/-
Offsets counted in bytes: at the ends of a piece of a text they cut out the piece, and each has its
line and column.
-/
import Stencil.Proofs.Position
import Stencil.Text.Basic

namespace Stencil

theorem byteCount_append (first rest : List Char) :
    byteCount (first ++ rest) = byteCount first + byteCount rest := by
  have hfold : ∀ (text : List Char) (bytes : Nat),
      text.foldl (fun bytes c => bytes + c.utf8Size) bytes = bytes + byteCount text := by
    intro text
    induction text with
    | nil => intro bytes; rfl
    | cons c text ih =>
        intro bytes
        rw [byteCount, List.foldl_cons, List.foldl_cons, ih, ih (0 + c.utf8Size)]
        omega
  rw [byteCount, List.foldl_append]
  exact hfold rest _

theorem byteCount_cons (c : Char) (text : List Char) :
    byteCount (c :: text) = c.utf8Size + byteCount text := by
  have hone : byteCount [c] = c.utf8Size := Nat.zero_add _
  rw [← hone, ← byteCount_append]
  rfl

theorem byteCount_pos {text : List Char} (h : text ≠ []) : 0 < byteCount text := by
  obtain ⟨c, rest, rfl⟩ := List.exists_cons_of_ne_nil h
  rw [byteCount_cons]
  exact Nat.add_pos_left c.utf8Size_pos _

theorem dropBytes_byteCount (lead text : List Char) :
    dropBytes (byteCount lead) (lead ++ text) = text := by
  induction lead with
  | nil =>
      unfold dropBytes
      rfl
  | cons c lead ih =>
      have hpos := byteCount_pos (List.cons_ne_nil c lead)
      rw [List.cons_append, dropBytes, byteCount_cons, Nat.add_sub_cancel_left]
      · exact ih
      · exact Nat.pos_iff_ne_zero.mp hpos

theorem takeBytes_byteCount (text rest : List Char) :
    takeBytes (byteCount text) (text ++ rest) = text := by
  induction text with
  | nil =>
      unfold takeBytes
      rfl
  | cons c text ih =>
      have hpos := byteCount_pos (List.cons_ne_nil c text)
      rw [List.cons_append, takeBytes, byteCount_cons, Nat.add_sub_cancel_left, ih]
      exact Nat.pos_iff_ne_zero.mp hpos

theorem sliceBytes_eq (lead piece rest : List Char) :
    sliceBytes (byteCount lead) (byteCount (lead ++ piece)) (lead ++ piece ++ rest) = piece := by
  rw [sliceBytes, List.append_assoc, dropBytes_byteCount, byteCount_append,
    Nat.add_sub_cancel_left, takeBytes_byteCount]

/-- The place of the byte at an offset: what stands before it is counted out. -/
def Position.atByte (text : List Char) (offset : Nat) : Position := counted (takeBytes offset text)

theorem Position.after_eq_atByte (lead rest : List Char) :
    after {} lead = atByte (lead ++ rest) (byteCount lead) := by
  rw [atByte, takeBytes_byteCount, after_default]

theorem Position.after_eq_atByte_end (text : List Char) :
    after {} text = atByte text (byteCount text) := by
  have hplace := after_eq_atByte text []
  rwa [List.append_nil] at hplace

end Stencil
