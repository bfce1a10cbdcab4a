/-
Syntax trees of expressions.  Every node carries the range of its text; parentheses around
a node belong to its range and leave no other trace.
-/
import Stencil.Operator
import Stencil.Position

namespace Stencil

mutual

/-- An expression. -/
inductive Expr where
  | literal (value : Literal) (range : Range)
  | ident (name : String) (range : Range)
  | list (items : List Expr) (range : Range)
  | dict (entries : List (Expr × Expr)) (range : Range)
  | member (value : Expr) (name : String) (range : Range)
  | index (value position : Expr) (range : Range)
  | call (callee : Expr) (args : List Expr) (range : Range)
  | unary (op : UnaryOp) (operand : Expr) (range : Range)
  | binary (op : BinaryOp) (lhs rhs : Expr) (range : Range)
  | and (lhs rhs : Expr) (range : Range)
  | or (lhs rhs : Expr) (range : Range)
  | conditional (yes cond no : Expr) (range : Range)
  | lambda (params : List String) (body : Expr) (range : Range)
  | comprehension (element : Expr) (clauses : List Clause) (range : Range)

/-- One `for targets in source if condition …` part of a list comprehension. -/
inductive Clause where
  | mk (targets : List String) (source : Expr) (conditions : List Expr)

end

instance : Inhabited Expr := ⟨.literal .none {}⟩

/-- The range of the text of an expression. -/
def Expr.range : Expr → Range
  | literal _ r | ident _ r | list _ r | dict _ r | member _ _ r | index _ _ r | call _ _ r
  | unary _ _ r | binary _ _ _ r | and _ _ r | or _ _ r | conditional _ _ _ r | lambda _ _ r
  | comprehension _ _ r => r

/-- The same expression over another range. -/
def Expr.withRange (r : Range) : Expr → Expr
  | literal v _ => literal v r
  | ident n _ => ident n r
  | list items _ => list items r
  | dict entries _ => dict entries r
  | member v n _ => member v n r
  | index v i _ => index v i r
  | call f args _ => call f args r
  | unary op v _ => unary op v r
  | binary op a b _ => binary op a b r
  | and a b _ => and a b r
  | or a b _ => or a b r
  | conditional yes cond no _ => conditional yes cond no r
  | lambda params body _ => lambda params body r
  | comprehension element clauses _ => comprehension element clauses r

/-- The range from the start of one expression to the end of another. -/
def Expr.span (first last : Expr) : Range := ⟨first.range.start, last.range.stop⟩

end Stencil
