/-
Words in a text: cutting a text at a word cuts it at the first occurrence, and fails only if
the word does not occur.
-/
import Stencil.Text.Basic

namespace Stencil

/-- The word stands in the text right after the first `i` characters. -/
def OccursAt (word text : List Char) (i : Nat) : Prop := word <+: text.drop i

@[simp] theorem stripWord_append (word rest : List Char) :
    stripWord word (word ++ rest) = some rest := by
  induction word with
  | nil => rw [List.nil_append, stripWord]
  | cons c word ih => simp [stripWord, ih]

theorem findFrom_eq_some {word text : List Char} {seen i : Nat}
    (h : findFrom word seen text = some i) :
    ∃ k, i = seen + k ∧ OccursAt word text k ∧ ∀ j < k, ¬ OccursAt word text j := by
  fun_induction findFrom word seen text with
  | case1 seen text hprefix =>
      cases h
      exact ⟨0, rfl, by simpa [OccursAt] using hprefix, by simp⟩
  | case2 => cases h
  | case3 seen c rest hprefix ih =>
      obtain ⟨k, rfl, hoccurs, hfirst⟩ := ih h
      refine ⟨k + 1, by omega, by simpa [OccursAt] using hoccurs, ?_⟩
      intro j hj
      cases j with
      | zero => simpa [OccursAt] using hprefix
      | succ j => simpa [OccursAt] using hfirst j (by omega)

theorem findFrom_eq_none {word text : List Char} {seen : Nat}
    (h : findFrom word seen text = none) (i : Nat) : ¬ OccursAt word text i := by
  fun_induction findFrom word seen text generalizing i with
  | case1 => cases h
  | case2 seen hprefix => simpa [OccursAt] using hprefix
  | case3 seen c rest hprefix ih =>
      cases i with
      | zero => simpa [OccursAt] using hprefix
      | succ i => simpa [OccursAt] using ih h i

/-- A text is cut at the first occurrence of a word. -/
theorem splitWord_eq_some_iff {word text before after : List Char} :
    splitWord word text = some (before, after) ↔
      text = before ++ word ++ after ∧ ∀ j < before.length, ¬ OccursAt word text j := by
  simp only [splitWord, findWord, Option.map_eq_some_iff, Prod.mk.injEq]
  constructor
  · rintro ⟨i, hfind, rfl, rfl⟩
    obtain ⟨k, hk, ⟨rest, hrest⟩, hfirst⟩ := findFrom_eq_some hfind
    obtain rfl : i = k := by omega
    constructor
    · rw [← List.drop_drop, ← hrest, List.drop_left, List.append_assoc, hrest,
        List.take_append_drop]
    · intro j hj
      exact hfirst j (Nat.lt_of_lt_of_le hj (by rw [List.length_take]; omega))
  · rintro ⟨htext, hfirst⟩
    have hoccurs : OccursAt word text before.length := ⟨after, by simp [htext]⟩
    cases hfind : findFrom word 0 text with
    | none => exact absurd hoccurs (findFrom_eq_none hfind _)
    | some i =>
        obtain ⟨k, hk, hki, hfirst'⟩ := findFrom_eq_some hfind
        obtain rfl : i = before.length := by
          rcases Nat.lt_trichotomy k before.length with hlt | heq | hgt
          · exact absurd hki (hfirst k hlt)
          · omega
          · exact absurd hoccurs (hfirst' _ hgt)
        refine ⟨_, rfl, ?_, ?_⟩
        · simp [htext]
        · rw [htext, ← List.length_append, List.drop_left]

/-- A text that cannot be cut at a word does not hold it. -/
theorem splitWord_eq_none_iff {word text : List Char} :
    splitWord word text = none ↔ ∀ before after, text ≠ before ++ word ++ after := by
  simp only [splitWord, findWord, Option.map_eq_none_iff]
  constructor
  · rintro hfind before after rfl
    exact findFrom_eq_none hfind before.length ⟨after, by simp⟩
  · intro habsent
    cases hfind : findFrom word 0 text with
    | none => rfl
    | some i =>
        obtain ⟨k, hk, ⟨rest, hrest⟩, -⟩ := findFrom_eq_some hfind
        refine absurd ?_ (habsent (text.take k) rest)
        rw [List.append_assoc, hrest, List.take_append_drop]

end Stencil
