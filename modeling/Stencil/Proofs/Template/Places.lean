/-
Where the tokens of a template stand: each ends where the next begins, and the last at the end
of the text.
-/
import Stencil.Proofs.Template.Tokenisation

namespace Stencil
namespace Template

/-- Where some tokens end; without tokens, where they would begin. -/
def endOf (start : Position) (tokens : List Token) : Position :=
  tokens.foldl (fun _ t => t.range.stop) start

@[simp] theorem endOf_nil (start : Position) : endOf start [] = start := rfl

@[simp] theorem endOf_cons (start : Position) (t : Token) (tokens : List Token) :
    endOf start (t :: tokens) = endOf t.range.stop tokens := rfl

theorem endOf_append (start : Position) (first rest : List Token) :
    endOf start (first ++ rest) = endOf (endOf start first) rest :=
  List.foldl_append

theorem endOf_textTokens (start : Cursor) (text : List Char) :
    endOf start.position (textTokens start text) = start.position.after text := by
  cases text with
  | nil => rfl
  | cons c rest => rfl

/-- Every step of the scan goes on where the tokens before it end. -/
theorem endOf_scan (start : Cursor) (seen text : List Char) :
    endOf start.position (scan start seen text) = start.position.after (seen.reverse ++ text) := by
  fun_induction scan start seen text with
  | case1 start seen => rw [endOf_textTokens, List.append_nil]
  | case2 start seen c rest d hd text raw opening ih =>
      have htext : c :: rest = raw ++ d.rest := (token_isDirective hd opening).1
      have hopening : start.after seen.reverse = opening := by simp [opening, text]
      have hplace : opening.position = start.position.after seen.reverse := by
        rw [← hopening, Cursor.after]
      rw [List.reverse_nil, List.nil_append] at ih
      rw [endOf_append, endOf_cons, hopening]
      change endOf (opening.after raw).position (scan (opening.after raw) [] d.rest) = _
      rw [ih, htext, Position.after_append, Position.after_append, ← hplace, Cursor.after]
  | case3 start seen c rest hnone ih =>
      rw [ih, List.reverse_cons, List.append_assoc, List.singleton_append]

/-- The tokens of a template end where its text does. -/
theorem endOf_tokens (source : String) :
    endOf {} (tokens source) = Position.after {} source.toList :=
  endOf_scan {} [] source.toList

end Template
end Stencil
