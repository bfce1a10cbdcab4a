/-
Cutting an expression into tokens.  Each class of token takes as much text as it can, and
operators of two characters come before those of one.
-/
import Stencil.Expr.Error
import Stencil.Text.Basic
import Stencil.Unicode.Alphabetic
import Stencil.Unicode.Numeric

namespace Stencil
namespace Expr

/-- What may stand between tokens. -/
def isSpace (c : Char) : Bool := c = ' ' || c = '\t' || c = '\r' || c = '\n'

def isNameStart (c : Char) : Bool := isAlphabetic c || c = '_'

def isNamePart (c : Char) : Bool := isAlphabetic c || isNumeric c || c = '_'

def isHexDigit (c : Char) : Bool :=
  ('0' ≤ c && c ≤ '9') || ('a' ≤ c && c ≤ 'f') || ('A' ≤ c && c ≤ 'F')

def hexDigit (c : Char) : Nat :=
  if c ≤ '9' then c.toNat - '0'.toNat
  else if c ≤ 'F' then c.toNat - 'A'.toNat + 10
  else c.toNat - 'a'.toNat + 10

/-- The digits after a point, and the text after them.  A point without digits stays. -/
def fraction : List Char → List Char × List Char
  | '.' :: digit :: rest =>
      if digit.isDigit then (digit :: rest.takeWhile Char.isDigit, rest.dropWhile Char.isDigit)
      else ([], '.' :: digit :: rest)
  | text => ([], text)

theorem length_fraction_le (text : List Char) : (fraction text).2.length ≤ text.length := by
  unfold fraction
  split
  · split
    · have := (List.dropWhile_suffix Char.isDigit (l := ‹List Char›)).length_le
      simp only [List.length_cons]
      omega
    · exact Nat.le_refl _
  · exact Nat.le_refl _

/-- A number at the front of a text: digits, and a fraction if a digit follows the point. -/
def number? : List Char → Option (TokenKind × List Char)
  | c :: text =>
      if c.isDigit then
        let whole := c :: text.takeWhile Char.isDigit
        let (places, rest) := fraction (text.dropWhile Char.isDigit)
        some (.number (.ofDigits whole places), rest)
      else none
  | [] => none

theorem length_rest_of_number? {text rest : List Char} {kind : TokenKind}
    (h : number? text = some (kind, rest)) : rest.length < text.length := by
  unfold number? at h
  split at h
  · rename_i c text
    split at h
    · simp only [Option.some.injEq, Prod.mk.injEq] at h
      obtain ⟨-, rfl⟩ := h
      exact Nat.lt_succ_of_le (Nat.le_trans (length_fraction_le _)
        (List.dropWhile_suffix _).length_le)
    · simp at h
  · simp at h

/-- The character that an escape stands for, read after its backslash. -/
def escape? : List Char → Option (Char × List Char)
  | '\\' :: rest => some ('\\', rest)
  | '"' :: rest => some ('"', rest)
  | '\'' :: rest => some ('\'', rest)
  | 'r' :: rest => some ('\r', rest)
  | 'n' :: rest => some ('\n', rest)
  | 't' :: rest => some ('\t', rest)
  | 'u' :: '\x7b' :: text =>
      let digits := (text.takeWhile isHexDigit).take 6
      let code := digits.foldl (fun n c => 16 * n + hexDigit c) 0
      match digits, text.drop digits.length with
      | _ :: _, '\x7d' :: rest =>
          if code.isValidChar then some (Char.ofNat code, rest) else none
      | _, _ => none
  | _ => none

theorem length_rest_of_escape? {text rest : List Char} {c : Char}
    (h : escape? text = some (c, rest)) : rest.length < text.length := by
  unfold escape? at h
  split at h
  all_goals first
    | (simp only [Option.some.injEq, Prod.mk.injEq] at h
       obtain ⟨-, rfl⟩ := h
       exact Nat.lt_succ_self _)
    | skip
  · rename_i text
    simp only at h
    split at h
    · rename_i hrest
      split at h
      · simp only [Option.some.injEq, Prod.mk.injEq] at h
        obtain ⟨-, rfl⟩ := h
        have := congrArg List.length hrest
        simp only [List.length_drop, List.length_cons] at this
        simp only [List.length_cons]
        omega
      · simp at h
    · simp at h
  · simp at h

/-- The characters of a string after its opening quote, and the text after its closing one.
`seen` holds the characters so far, last first. -/
def stringBody (quote : Char) (seen : List Char) : List Char → Option (List Char × List Char)
  | [] => none
  | c :: rest =>
      if c = quote then some (seen.reverse, rest)
      else if c = '\\' then
        match _h : escape? rest with
        | some (decoded, rest) => stringBody quote (decoded :: seen) rest
        | none => none
      else stringBody quote (c :: seen) rest
termination_by text => text.length
decreasing_by
  · have := length_rest_of_escape? _h
    simp only [List.length_cons]
    omega
  · simp

theorem length_rest_of_stringBody {quote : Char} {seen text content rest : List Char}
    (h : stringBody quote seen text = some (content, rest)) : rest.length < text.length := by
  fun_induction stringBody quote seen text with
  | case1 => simp at h
  | case2 seen rest =>
      simp only [Option.some.injEq, Prod.mk.injEq] at h
      obtain ⟨-, rfl⟩ := h
      simp
  | case3 seen tail decoded more hescape _ ih =>
      have := ih h
      have := length_rest_of_escape? hescape
      simp only [List.length_cons]
      omega
  | case4 => simp at h
  | case5 seen c tail hquote hslash ih =>
      have := ih h
      simp only [List.length_cons]
      omega

/-- A string at the front of a text, between quotes of one kind. -/
def string? : List Char → Option (TokenKind × List Char)
  | quote :: rest =>
      if quote = '"' || quote = '\'' then
        (stringBody quote [] rest).map fun (content, rest) =>
          (.string (String.ofList content), rest)
      else none
  | [] => none

theorem length_rest_of_string? {text rest : List Char} {kind : TokenKind}
    (h : string? text = some (kind, rest)) : rest.length < text.length := by
  unfold string? at h
  split at h
  · split at h
    · simp only [Option.map_eq_some_iff, Prod.mk.injEq, Prod.exists] at h
      obtain ⟨content, tail, hbody, -, rfl⟩ := h
      have := length_rest_of_stringBody hbody
      simp only [List.length_cons]
      omega
    · simp at h
  · simp at h

/-- A name or keyword at the front of a text. -/
def word? : List Char → Option (TokenKind × List Char)
  | c :: rest =>
      if isNameStart c then
        let word := String.ofList (c :: rest.takeWhile isNamePart)
        let kind := match Mark.ofWord? word with
          | some m => TokenKind.mark m
          | none => .ident word
        some (kind, rest.dropWhile isNamePart)
      else none
  | [] => none

theorem length_rest_of_word? {text rest : List Char} {kind : TokenKind}
    (h : word? text = some (kind, rest)) : rest.length < text.length := by
  unfold word? at h
  split at h
  · split at h
    · simp only [Option.some.injEq, Prod.mk.injEq] at h
      obtain ⟨-, rfl⟩ := h
      exact Nat.lt_succ_of_le (List.dropWhile_suffix _).length_le
    · simp at h
  · simp at h

/-- An operator or punctuation at the front of a text. -/
def symbol? (text : List Char) : Option (TokenKind × List Char) :=
  Mark.symbols.findSome? fun m => (stripWord m.text.toList text).map (TokenKind.mark m, ·)

theorem length_rest_of_symbol? {text rest : List Char} {kind : TokenKind}
    (h : symbol? text = some (kind, rest)) : rest.length < text.length := by
  obtain ⟨m, -, hm⟩ := List.exists_of_findSome?_eq_some h
  simp only [Option.map_eq_some_iff, Prod.mk.injEq] at hm
  obtain ⟨tail, hstrip, -, rfl⟩ := hm
  have hlength := congrArg List.length (eq_append_of_stripWord hstrip)
  have hpos : 0 < m.text.toList.length := by cases m <;> decide
  rw [List.length_append] at hlength
  omega

/-- The token at the front of a text, and the text after it. -/
def lexeme? (text : List Char) : Option (TokenKind × List Char) :=
  number? text <|> string? text <|> word? text <|> symbol? text

theorem length_rest_of_lexeme? {text rest : List Char} {kind : TokenKind}
    (h : lexeme? text = some (kind, rest)) : rest.length < text.length := by
  simp only [lexeme?, Option.orElse_eq_orElse, Option.orElse_eq_or, Option.or_eq_some_iff] at h
  rcases h with h | ⟨-, h | ⟨-, h | ⟨-, h⟩⟩⟩
  · exact length_rest_of_number? h
  · exact length_rest_of_string? h
  · exact length_rest_of_word? h
  · exact length_rest_of_symbol? h

/-- The tokens of what is left of an expression, after `bytes` bytes and at `position`. -/
def scan (bytes : Nat) (position : Position) (text : List Char) :
    Except ExprError (List Token) :=
  let blanks := text.takeWhile isSpace
  let bytes := bytes + byteCount blanks
  let position := position.after blanks
  match _htext : text.dropWhile isSpace with
  | [] => .ok [⟨.eof, bytes, bytes, ⟨position, position⟩⟩]
  | c :: after =>
      match _h : lexeme? (c :: after) with
      | none => .error (.unexpectedCharacter c position)
      | some (kind, rest) =>
          let lexeme := (c :: after).take (after.length + 1 - rest.length)
          let stop := bytes + byteCount lexeme
          let token : Token := ⟨kind, bytes, stop, Range.ofText position lexeme⟩
          (scan stop (position.after lexeme) rest).map (token :: ·)
termination_by text.length
decreasing_by
  have hrest := length_rest_of_lexeme? _h
  have hblank := (List.dropWhile_suffix isSpace (l := text)).length_le
  rw [_htext] at hblank
  omega

/-- The tokens of an expression, the last of them its end. -/
def tokenize (source : List Char) : Except ExprError (List Token) := scan 0 {} source

end Expr
end Stencil
