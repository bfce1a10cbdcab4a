/-
Reading JSON.  Every reader takes characters off the front of a text and returns what is
left, or nothing if the text does not start with what it reads.
-/
import Stencil.Json.Basic
import Stencil.Json.Numeral
import Stencil.Text.Basic

namespace Stencil
namespace Json

/-- Reads something off the front of a text. -/
abbrev Reader (α : Type) := List Char → Option (α × List Char)

/-- How deep arrays and objects may be nested. -/
def maxNesting : Nat := 127

def isSpace (c : Char) : Bool := c = ' ' || c = '\n' || c = '\t' || c = '\r'

def skipSpace (text : List Char) : List Char := text.dropWhile isSpace

/-- The value of a hexadecimal digit. -/
def hexDigit? (c : Char) : Option Nat :=
  if '0' ≤ c && c ≤ '9' then some (c.toNat - '0'.toNat)
  else if 'a' ≤ c && c ≤ 'f' then some (c.toNat - 'a'.toNat + 10)
  else if 'A' ≤ c && c ≤ 'F' then some (c.toNat - 'A'.toNat + 10)
  else none

/-- The value of four hexadecimal digits. -/
def hexUnit? (a b c d : Char) : Option Nat :=
  match hexDigit? a, hexDigit? b, hexDigit? c, hexDigit? d with
  | some a, some b, some c, some d => some (((a * 16 + b) * 16 + c) * 16 + d)
  | _, _, _, _ => none

/-- The first unit of a surrogate pair. -/
def isHighSurrogate (unit : Nat) : Bool := 0xD800 ≤ unit && unit < 0xDC00

/-- The second unit of a surrogate pair. -/
def isLowSurrogate (unit : Nat) : Bool := 0xDC00 ≤ unit && unit < 0xE000

/-- The character of a surrogate pair. -/
def surrogatePair (high low : Nat) : Char :=
  Char.ofNat ((high - 0xD800) * 0x400 + (low - 0xDC00) + 0x10000)

/-- The character that a backslash before `c` stands for. -/
def escape? (c : Char) : Option Char :=
  match c with
  | '"' => some '"'
  | '\\' => some '\\'
  | '/' => some '/'
  | 'b' => some '\x08'
  | 'f' => some '\x0c'
  | 'n' => some '\n'
  | 'r' => some '\r'
  | 't' => some '\t'
  | _ => none

/-- Reads a string after its opening quote; `seen` holds its characters so far, last first.
A surrogate stands only in a pair, and control characters only as escapes. -/
def stringBody (seen : List Char) : Reader String
  | '"' :: rest => some (String.ofList seen.reverse, rest)
  | '\\' :: 'u' :: a :: b :: c :: d :: rest =>
      match hexUnit? a b c d with
      | none => none
      | some unit =>
          if isLowSurrogate unit then none
          else if isHighSurrogate unit then
            match rest with
            | '\\' :: 'u' :: e :: f :: g :: h :: rest =>
                match hexUnit? e f g h with
                | none => none
                | some low =>
                    if isLowSurrogate low then stringBody (surrogatePair unit low :: seen) rest
                    else none
            | _ => none
          else stringBody (Char.ofNat unit :: seen) rest
  | '\\' :: c :: rest =>
      match escape? c with
      | some c => stringBody (c :: seen) rest
      | none => none
  | c :: rest => if c < ' ' || c = '\\' then none else stringBody (c :: seen) rest
  | [] => none

/-- Reads the power of ten of a numeral: a mark, a sign if there is one, and digits. -/
def power : Reader Int
  | mark :: text =>
      if mark = 'e' || mark = 'E' then
        let (negative, text) := match text with
          | '-' :: rest => (true, rest)
          | '+' :: rest => (false, rest)
          | rest => (false, rest)
        let digits := text.takeWhile Char.isDigit
        if digits.isEmpty then none
        else
          let n : Int := digits.foldl (fun n c => 10 * n + (c.toNat - '0'.toNat)) 0
          some (if negative then -n else n, text.dropWhile Char.isDigit)
      else some (0, mark :: text)
  | [] => some (0, [])

/-- Reads a numeral without its sign.  A zero in front stands alone, and a point has digits
on both sides. -/
def numeral (negative : Bool) : Reader Json := fun text => do
  let whole := text.takeWhile Char.isDigit
  let text := text.dropWhile Char.isDigit
  if whole.isEmpty || (whole.length > 1 && whole.head? == some '0') then none
  else
    let (fraction, text) ← match text with
      | '.' :: rest =>
          if (rest.takeWhile Char.isDigit).isEmpty then none
          else some (rest.takeWhile Char.isDigit, rest.dropWhile Char.isDigit)
      | rest => some ([], rest)
    let (exponent, text) ← power text
    let n ← Number.ofNumeral? negative whole fraction exponent
    some (.number n, text)

/-- Reads the items of an array after its bracket or a comma; `fuel` bounds their number. -/
def arrayItems (item : Reader Json) : Nat → Reader (List Json)
  | 0, _ => none
  | fuel + 1, text => do
      let (first, text) ← item text
      match skipSpace text with
      | ',' :: text =>
          let (rest, text) ← arrayItems item fuel text
          some (first :: rest, text)
      | ']' :: text => some ([first], text)
      | _ => none

/-- Reads the members of an object after its brace or a comma; `fuel` bounds their number. -/
def objectMembers (item : Reader Json) : Nat → Reader (List (String × Json))
  | 0, _ => none
  | fuel + 1, text => do
      match skipSpace text with
      | '"' :: text =>
          let (key, text) ← stringBody [] text
          match skipSpace text with
          | ':' :: text =>
              let (value, text) ← item text
              match skipSpace text with
              | ',' :: text =>
                  let (rest, text) ← objectMembers item fuel text
                  some ((key, value) :: rest, text)
              | '\x7d' :: text => some ([(key, value)], text)
              | _ => none
          | _ => none
      | _ => none

/-- Reads the rest of an array after its opening bracket. -/
def arrayRest (item : Reader Json) : Reader Json := fun text =>
  match skipSpace text with
  | ']' :: rest => some (.array [], rest)
  | _ => do
      let (items, rest) ← arrayItems item text.length text
      some (.array items, rest)

/-- Reads the rest of an object after its opening brace.  Of two members with one key the
later counts. -/
def objectRest (item : Reader Json) : Reader Json := fun text =>
  match skipSpace text with
  | '\x7d' :: rest => some (.object [], rest)
  | _ => do
      let (members, rest) ← objectMembers item text.length text
      some (.object (Table.ofEntries members), rest)

/-- Reads a value that is not an array or object; `c` is its first character. -/
def scalar (c : Char) : Reader Json := fun text =>
  match c with
  | '"' => (stringBody [] text).map fun (s, rest) => (.string s, rest)
  | 'n' => (stripWord "ull".toList text).map (Json.null, ·)
  | 't' => (stripWord "rue".toList text).map (Json.bool true, ·)
  | 'f' => (stripWord "alse".toList text).map (Json.bool false, ·)
  | '-' => numeral true text
  | c => if c.isDigit then numeral false (c :: text) else none

/-- Reads a value whose arrays and objects are nested at most `nesting` deep. -/
def value : (nesting : Nat) → Reader Json
  | 0, text =>
      match skipSpace text with
      | [] => none
      | c :: rest => scalar c rest
  | nesting + 1, text =>
      match skipSpace text with
      | '[' :: rest => arrayRest (value nesting) rest
      | '\x7b' :: rest => objectRest (value nesting) rest
      | c :: rest => scalar c rest
      | [] => none

/-- The value that a whole text writes. -/
def read? (text : String) : Option Json :=
  match value maxNesting text.toList with
  | some (json, rest) => if (skipSpace rest).isEmpty then some json else none
  | none => none

end Json
end Stencil
