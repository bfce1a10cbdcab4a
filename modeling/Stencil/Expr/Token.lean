/-
Tokens of an expression.
-/
import Stencil.Number
import Stencil.Position
import Stencil.Text.Quoted

namespace Stencil
namespace Expr

/-- Tokens with a fixed spelling: keywords, operators and punctuation. -/
inductive Mark where
  | andWord | orWord | notWord | inWord | ifWord | elseWord | forWord | lambdaWord
  | trueWord | falseWord | noneWord
  | doubleStar | star | doubleSlash | slash | percent | plus | minus
  | equalEqual | notEqual | lessEqual | less | greaterEqual | greater | equal
  | leftParen | rightParen | leftBracket | rightBracket | leftBrace | rightBrace
  | comma | colon | dot
deriving DecidableEq, Repr, Inhabited

namespace Mark

def text : Mark → String
  | andWord => "and" | orWord => "or" | notWord => "not" | inWord => "in" | ifWord => "if"
  | elseWord => "else" | forWord => "for" | lambdaWord => "lambda"
  | trueWord => "True" | falseWord => "False" | noneWord => "None"
  | doubleStar => "**" | star => "*" | doubleSlash => "//" | slash => "/" | percent => "%"
  | plus => "+" | minus => "-" | equalEqual => "==" | notEqual => "!=" | lessEqual => "<="
  | less => "<" | greaterEqual => ">=" | greater => ">" | equal => "="
  | leftParen => "(" | rightParen => ")" | leftBracket => "[" | rightBracket => "]"
  | leftBrace => "\x7b" | rightBrace => "\x7d" | comma => "," | colon => ":" | dot => "."

/-- The keyword that a word spells.  The constants have a second spelling. -/
def ofWord? : String → Option Mark
  | "and" => some andWord
  | "or" => some orWord
  | "not" => some notWord
  | "in" => some inWord
  | "if" => some ifWord
  | "else" => some elseWord
  | "for" => some forWord
  | "lambda" => some lambdaWord
  | "True" => some trueWord
  | "true" => some trueWord
  | "False" => some falseWord
  | "false" => some falseWord
  | "None" => some noneWord
  | "none" => some noneWord
  | _ => none

/-- Operators and punctuation, those of two characters first. -/
def symbols : List Mark :=
  [doubleStar, doubleSlash, equalEqual, notEqual, lessEqual, greaterEqual,
    star, slash, percent, plus, minus, less, greater, equal,
    leftParen, rightParen, leftBracket, rightBracket, leftBrace, rightBrace, comma, colon, dot]

end Mark

/-- What a token of an expression is. -/
inductive TokenKind where
  | number (n : Number)
  | string (s : String)
  | ident (name : String)
  | mark (m : Mark)
  | eof
deriving DecidableEq, Inhabited

/-- A token as an error message shows it. -/
def TokenKind.display : TokenKind → String
  | number n => n.text
  | string s => quoted s
  | ident name => name
  | mark m => m.text
  | eof => "end of expression"

/-- A token, the bytes of the expression it covers, and the range of its text. -/
structure Token where
  kind : TokenKind
  start : Nat
  stop : Nat
  range : Range
deriving DecidableEq, Inhabited

/-- The token is the mark `m`. -/
def Token.isMark (t : Token) (m : Mark) : Bool :=
  match t.kind with
  | .mark n => n = m
  | _ => false

def Token.isEof (t : Token) : Bool :=
  match t.kind with
  | .eof => true
  | _ => false

end Expr
end Stencil
