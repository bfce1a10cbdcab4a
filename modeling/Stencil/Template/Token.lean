/-
Tokens of a template: literal text and the four kinds of directive.
-/
import Stencil.Excerpt
import Stencil.Position

namespace Stencil
namespace Template

/-- What a piece of a template is. -/
inductive TokenKind where
  | text
  | var
  | block
  | comment
  | load
deriving DecidableEq, Repr, Inhabited

namespace TokenKind

def name : TokenKind → String
  | text => "text"
  | var => "var"
  | block => "block"
  | comment => "comment"
  | load => "load"

/-- The delimiters that open and close a directive; text has none. -/
def delimiters : TokenKind → Option (List Char × List Char)
  | text => none
  | load => some (['\x7b', '!'], ['!', '\x7d'])
  | block => some (['\x7b', '%'], ['%', '\x7d'])
  | var => some (['\x7b', '\x7b'], ['\x7d', '\x7d'])
  | comment => some (['\x7b', '#'], ['#', '\x7d'])

end TokenKind

/-- A piece of a template.  `raw` is the piece as it stands there; `content` is the trimmed
body of a directive, or all of a text. -/
structure Token where
  kind : TokenKind
  content : Excerpt
  raw : Excerpt
  range : Range
deriving DecidableEq, Repr, Inhabited

/-- A directive with one space inside each delimiter; text as it is. -/
def Token.display (t : Token) : String :=
  match t.kind.delimiters with
  | some (opening, closing) =>
      String.ofList (opening ++ ' ' :: t.content.text ++ ' ' :: closing)
  | none => t.content.toString

end Template
end Stencil
