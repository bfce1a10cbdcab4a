/-
Pieces that are cut out of an excerpt, and where they are found in it.
-/
import Stencil.Tag.Site

namespace Stencil

/-- What stands between the blanks of a text, and the blanks. -/
theorem exists_eq_trim (text : List Char) :
    ∃ blanks, text = text.takeWhile isBlank ++ trim text ++ blanks := by
  refine ⟨((text.dropWhile isBlank).reverse.takeWhile isBlank).reverse, ?_⟩
  rw [trim, List.append_assoc, ← List.reverse_append, List.takeWhile_append_dropWhile,
    List.reverse_reverse, List.takeWhile_append_dropWhile]

namespace Excerpt

/-- The piece is cut out of the whole, where it stands behind the text `inside`. -/
structure CutFrom (piece whole : Excerpt) (inside : List Char) : Prop where
  text : inside ++ piece.text <+: whole.text
  start : ∃ first, whole.start = some first ∧ piece.start = some (first + inside.length)

namespace CutFrom

variable {piece middle whole : Excerpt} {inner outer inside : List Char} {first : Nat}

theorem self (h : whole.start = some first) : whole.CutFrom whole [] :=
  ⟨List.prefix_rfl, first, h, h⟩

/-- Pieces of pieces are pieces. -/
theorem trans (h : piece.CutFrom middle inner) (h' : middle.CutFrom whole outer) :
    piece.CutFrom whole (outer ++ inner) := by
  constructor
  · rw [List.append_assoc]
    exact ((List.prefix_append_right_inj outer).mpr h.text).trans h'.text
  · obtain ⟨first, hwhole, hmiddle⟩ := h'.start
    obtain ⟨first', hmiddle', hpiece⟩ := h.start
    rw [hmiddle] at hmiddle'
    cases hmiddle'
    exact ⟨first, hwhole, by rw [hpiece, List.length_append, Nat.add_assoc]⟩

theorem drop (h : whole.start = some first) {n : Nat} (hn : n ≤ whole.text.length) :
    (whole.drop n).CutFrom whole (whole.text.take n) := by
  constructor
  · exact (List.take_append_drop n whole.text).symm ▸ List.prefix_rfl
  · refine ⟨first, h, ?_⟩
    rw [Excerpt.drop, h, List.length_take, Nat.min_eq_left hn]
    rfl

theorem trim (h : whole.start = some first) :
    whole.trim.CutFrom whole (whole.text.takeWhile isBlank) := by
  constructor
  · obtain ⟨blanks, hblanks⟩ := exists_eq_trim whole.text
    exact ⟨blanks, hblanks.symm⟩
  · refine ⟨first, h, ?_⟩
    rw [Excerpt.trim, h]
    rfl

/-- What stands behind the first blank is a piece; without a blank there is nothing. -/
theorem splitBlank (h : whole.start = some first) :
    (∃ inside, whole.splitBlank.2.CutFrom whole inside) ∨ whole.splitBlank.2.text = [] := by
  unfold Excerpt.splitBlank
  dsimp only
  split
  · next hword =>
      have hdrop := CutFrom.drop h (Nat.succ_le_of_lt hword)
      obtain ⟨_, -, hstart⟩ := hdrop.start
      exact .inl ⟨_, (CutFrom.trim hstart).trans hdrop⟩
  · exact .inr rfl

/-- A piece is found where it was cut out, even if the same text stands elsewhere too. -/
theorem placeIn?_eq (h : piece.CutFrom whole inside) :
    whole.placeIn? piece = some inside.length := by
  obtain ⟨first, hwhole, hpiece⟩ := h.start
  have hlength := h.text.length_le
  rw [List.length_append] at hlength
  have hfits : first ≤ first + inside.length ∧
      first + inside.length + piece.text.length ≤ first + whole.text.length := by omega
  simp [placeIn?, hwhole, hpiece, hfits]

theorem take_inside (h : piece.CutFrom whole inside) :
    whole.text.take inside.length = inside := by
  obtain ⟨rest, hrest⟩ := h.text
  rw [← hrest, List.append_assoc, List.take_left]

end CutFrom

end Excerpt
end Stencil
