/-
Where the tokens of an expression stand: each covers the text that it was read from, and an
unexpected character is one that no token starts with.
-/
import Stencil.Proofs.Expr.Lexemes
import Stencil.Proofs.Text.Bytes

namespace Stencil

namespace Expr

/-- A token covers `piece`, which stands behind `lead` and which the text goes on from with
`rest`. -/
structure Token.Covers (token : Token) (lead piece rest : List Char) : Prop where
  lexeme : lexeme? (piece ++ rest) = some (token.kind, rest)
  start : token.start = byteCount lead
  stop : token.stop = byteCount (lead ++ piece)
  range : token.range = Range.behind lead piece

/-- The token at the front of what is left of a text, and where reading goes on. -/
theorem covers_of_lexeme? (lead : List Char) {after rest : List Char} {c : Char} {kind : TokenKind}
    (h : lexeme? (c :: after) = some (kind, rest)) :
    ∃ piece, piece = (c :: after).take (after.length + 1 - rest.length) ∧
      c :: after = piece ++ rest ∧
        Token.Covers ⟨kind, byteCount lead, byteCount lead + byteCount piece,
          Range.ofText (Position.after {} lead) piece⟩ lead piece rest := by
  obtain ⟨piece, hpiece, -⟩ := lexeme_of_lexeme? h
  have htake : (c :: after).take (after.length + 1 - rest.length) = piece := by
    have hlength := congrArg List.length hpiece
    rw [List.length_append, List.length_cons] at hlength
    rw [hpiece, hlength, Nat.add_sub_cancel, List.take_left]
  refine ⟨piece, htake.symm, hpiece, ?_, rfl, (byteCount_append ..).symm, ?_⟩
  · rw [← hpiece]
    exact h
  · rw [Range.ofText_eq, Range.behind, Position.after_append]

/-- What a scan of the text behind `lead` comes to: its end, a character that no token starts with,
or a token in front of what the scan behind it comes to. -/
inductive Scans : (lead text : List Char) → Except ExprError (List Token) → Prop where
  | eof {lead blanks : List Char} : (∀ c ∈ blanks, isSpace c = true) →
      Scans lead blanks (.ok [⟨.eof, byteCount (lead ++ blanks), byteCount (lead ++ blanks),
        ⟨Position.after {} (lead ++ blanks), Position.after {} (lead ++ blanks)⟩⟩])
  | stuck {lead blanks rest : List Char} {c : Char} : (∀ c ∈ blanks, isSpace c = true) →
      isSpace c = false → lexeme? (c :: rest) = none →
        Scans lead (blanks ++ c :: rest)
          (.error (.unexpectedCharacter c (Position.after {} (lead ++ blanks))))
  | token {lead blanks piece rest : List Char} {token : Token}
      {result : Except ExprError (List Token)} : (∀ c ∈ blanks, isSpace c = true) →
        token.Covers (lead ++ blanks) piece rest → Scans (lead ++ blanks ++ piece) rest result →
          Scans lead (blanks ++ piece ++ rest) (result.map (token :: ·))

/-- Every step of the scan goes on behind what it has read. -/
theorem scans_scan (lead text : List Char) {bytes : Nat} {position : Position}
    (hbytes : bytes = byteCount lead) (hposition : position = Position.after {} lead) :
    Scans lead text (scan bytes position text) := by
  fun_induction scan bytes position text generalizing lead with
  | case1 bytes position text blanks bytes' position' hend =>
      have hsplit : blanks ++ [] = text := hend ▸ List.takeWhile_append_dropWhile
      have hbytes' : bytes' = byteCount (lead ++ blanks) := by rw [byteCount_append, ← hbytes]
      have hposition' : position' = Position.after {} (lead ++ blanks) := by
        rw [Position.after_append, ← hposition]
      rw [hbytes', hposition', ← hsplit, List.append_nil]
      exact .eof (List.all_eq_true.mp List.all_takeWhile)
  | case2 bytes position text blanks position' c after htext hnone =>
      have hsplit : blanks ++ c :: after = text := htext ▸ List.takeWhile_append_dropWhile
      have hspace := List.head?_dropWhile_not isSpace text
      rw [htext] at hspace
      have hposition' : position' = Position.after {} (lead ++ blanks) := by
        rw [Position.after_append, ← hposition]
      rw [hposition', ← hsplit]
      exact .stuck (List.all_eq_true.mp List.all_takeWhile) (by simpa using hspace) hnone
  | case3 bytes position text blanks bytes' position' c after htext kind rest hlexeme lexeme stop
      token ih =>
      have hsplit : blanks ++ c :: after = text := htext ▸ List.takeWhile_append_dropWhile
      have hbytes' : bytes' = byteCount (lead ++ blanks) := by rw [byteCount_append, ← hbytes]
      have hposition' : position' = Position.after {} (lead ++ blanks) := by
        rw [Position.after_append, ← hposition]
      obtain ⟨piece, hpiece, hafter, hcovers⟩ := covers_of_lexeme? (lead ++ blanks) hlexeme
      change piece = lexeme at hpiece
      rw [← hbytes', ← hposition', hpiece] at hcovers
      have hrest := ih (lead ++ blanks ++ lexeme)
        (by rw [byteCount_append, ← hbytes']) (by rw [Position.after_append, ← hposition'])
      rw [← hsplit, hafter, hpiece, ← List.append_assoc]
      exact .token (List.all_eq_true.mp List.all_takeWhile) hcovers hrest

theorem scans_tokenize (source : List Char) : Scans [] source (tokenize source) :=
  scans_scan [] source rfl rfl

/-- A piece of a text that an error blames: a token that does not belong there, or a character
that no token starts with. -/
inductive Offends (text : List Char) : ExprError → (lead piece : List Char) → Prop where
  | token {lead piece rest : List Char} {token : Token} :
      text = lead ++ piece ++ rest → token.Covers lead piece rest →
        Offends text (.unexpectedToken token) lead piece
  | character {lead rest : List Char} {c : Char} :
      text = lead ++ c :: rest → lexeme? (c :: rest) = none → c ≠ '\n' →
        Offends text (.unexpectedCharacter c (Position.after {} lead)) lead [c]

/-- What a scan of `text` comes to: tokens that cover pieces of it, or a character that no token
starts with. -/
def Scanned (text : List Char) : Except ExprError (List Token) → Prop
  | .ok tokens => ∀ token ∈ tokens, token.isEof = false →
      ∃ lead piece rest, text = lead ++ piece ++ rest ∧ token.Covers lead piece rest
  | .error cause => ∃ lead piece, Offends text cause lead piece

theorem Scanned.cons {text lead piece rest : List Char} {result : Except ExprError (List Token)}
    {token : Token} (h : Scanned text result) (htext : text = lead ++ piece ++ rest)
    (hcovers : token.Covers lead piece rest) : Scanned text (result.map (token :: ·)) := by
  cases result with
  | error cause => exact h
  | ok tokens => exact List.forall_mem_cons.mpr ⟨fun _ => ⟨lead, piece, rest, htext, hcovers⟩, h⟩

theorem Scans.scanned {lead text : List Char} {result : Except ExprError (List Token)}
    (h : Scans lead text result) : Scanned (lead ++ text) result := by
  induction h with
  | eof =>
      intro token htoken hnot
      rw [List.mem_singleton.mp htoken] at hnot
      cases hnot
  | @stuck lead blanks rest c _ hspace hnone =>
      refine ⟨lead ++ blanks, [c], .character (List.append_assoc ..).symm hnone ?_⟩
      rintro rfl
      cases hspace
  | @token lead blanks piece rest token result _ hcovers _ ih =>
      rw [← List.append_assoc, ← List.append_assoc]
      exact ih.cons rfl hcovers

/-- The tokens of an expression stand where they say, and so does a character that is none. -/
theorem scanned_tokenize (text : List Char) : Scanned text (tokenize text) :=
  (scans_tokenize text).scanned

end Expr
end Stencil
