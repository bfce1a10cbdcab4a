/-
Constants and operators of expressions.
-/
import Stencil.Number

namespace Stencil

/-- A constant that an expression writes out. -/
inductive Literal where
  | none
  | bool (b : Bool)
  | number (n : Number)
  | string (s : String)
deriving DecidableEq, Inhabited

inductive UnaryOp where
  | neg
  | pos
  | not
deriving DecidableEq, Repr, Inhabited

inductive BinaryOp where
  | add | sub | mul | div | floorDiv | mod | pow
  | eq | ne | lt | le | gt | ge
  | isIn | notIn
deriving DecidableEq, Repr, Inhabited

/-- The operator as an expression writes it. -/
def BinaryOp.symbol : BinaryOp → String
  | add => "+" | sub => "-" | mul => "*" | div => "/" | floorDiv => "//" | mod => "%"
  | pow => "**" | eq => "==" | ne => "!=" | lt => "<" | le => "<=" | gt => ">" | ge => ">="
  | isIn => "in" | notIn => "not in"

end Stencil
