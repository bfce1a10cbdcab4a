/-
Quoted text: a text between double quotes in which every character can be seen.
-/
import Stencil.Unicode.Unprintable

namespace Stencil

/-- The code point of `c` in hexadecimal between braces. -/
def escapeCode (c : Char) : String :=
  "\\u\x7b" ++ String.ofList (Nat.toDigits 16 c.toNat) ++ "\x7d"

/-- One character of quoted text. Quote, backslash and the common controls have short
escapes; other characters that cannot be seen alone are shown by their code. -/
def escapeChar (c : Char) : String :=
  match c with
  | '"' => "\\\""
  | '\\' => "\\\\"
  | '\n' => "\\n"
  | '\r' => "\\r"
  | '\t' => "\\t"
  | '\x00' => "\\0"
  | c => if isGraphemeExtend c || isInvisible c then escapeCode c else c.toString

/-- The text between double quotes, with escapes where a character cannot be seen alone. -/
def quoted (text : String) : String :=
  "\"" ++ text.toList.foldl (fun shown c => shown ++ escapeChar c) "" ++ "\""

end Stencil
