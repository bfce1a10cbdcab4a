/-
The label of a diagnostic: the walk that looks for a place in a text finds the place behind a text,
and so a range between two such places is the bytes of the piece that stands there.
-/
import Stencil.Diagnostic
import Stencil.Proofs.Position
import Stencil.Proofs.Text.Bytes

namespace Stencil

/-- The walk passes over the characters before the place that it looks for. -/
theorem bytesBefore_after (here : Position) (lead rest : List Char) :
    bytesBefore (here.after lead) here (lead ++ rest) = byteCount lead := by
  induction lead generalizing here with
  | nil =>
      cases rest with
      | nil => rfl
      | cons c rest => exact if_pos ⟨Nat.le_refl _, Nat.le_refl _⟩
  | cons c lead ih =>
      have hbefore := here.before_after (List.cons_ne_nil c lead)
      rw [List.cons_append, bytesBefore, byteCount_cons, if_neg]
      · rw [Position.after_cons, ih]
      · rintro ⟨hline, hcolumn⟩
        rcases hbefore with hlater | ⟨-, hlater⟩
        · exact Nat.lt_irrefl _ (Nat.lt_of_lt_of_le hlater hline)
        · exact Nat.lt_irrefl _ (Nat.lt_of_lt_of_le hlater hcolumn)

theorem Span.ofRange_behind {before piece rest : List Char} (h : piece ≠ []) :
    ofRange (before ++ piece ++ rest) (Range.behind before piece) =
      ⟨byteCount before, byteCount piece⟩ := by
  have hstart : bytesBefore (Position.after {} before) {} (before ++ piece ++ rest)
      = byteCount before := by
    rw [List.append_assoc, bytesBefore_after]
  have hstop : bytesBefore (Position.after {} (before ++ piece)) {} (before ++ piece ++ rest)
      = byteCount before + byteCount piece := by
    rw [bytesBefore_after, byteCount_append]
  have hpos := byteCount_pos h
  rw [ofRange, Range.behind]
  dsimp only
  rw [hstart, hstop, Nat.add_sub_cancel_left, Nat.max_eq_left hpos]

end Stencil
