/-
Compiled expressions.  Names bound inside an expression have become slots; all other names
are looked up in the context when the code runs.
-/
import Stencil.Operator

namespace Stencil

mutual

/-- A compiled expression. -/
inductive Code where
  | literal (value : Literal)
  /-- The value bound to a name inside the expression. -/
  | slot (index : Nat) (name : String)
  /-- The table of helpers. -/
  | helpers
  /-- The value of a name of the context. -/
  | global (name : String)
  | list (items : List Code)
  | dict (entries : List (Code × Code))
  | member (value : Code) (name : String)
  | index (value position : Code)
  | call (callee : Code) (args : List Code)
  | unary (op : UnaryOp) (operand : Code)
  | binary (op : BinaryOp) (lhs rhs : Code)
  | and (lhs rhs : Code)
  | or (lhs rhs : Code)
  | conditional (yes cond no : Code)
  | lambda (arity : Nat) (body : Code)
  | comprehension (element : Code) (clauses : List CodeClause)

/-- One clause of a comprehension: how many slots an item fills, what it iterates over, and
what has to hold of an item. -/
inductive CodeClause where
  | mk (arity : Nat) (source : Code) (conditions : List Code)

end

instance : Inhabited Code := ⟨.literal .none⟩

mutual

/-- The names that the code looks up in the context, in the order of the code. -/
def Code.globals : Code → List String
  | .literal _ => []
  | .slot _ _ => []
  | .helpers => []
  | .global name => [name]
  | .list items => globalsOfAll items
  | .dict entries => globalsOfEntries entries
  | .member value _ => value.globals
  | .index value position => value.globals ++ position.globals
  | .call callee args => callee.globals ++ globalsOfAll args
  | .unary _ operand => operand.globals
  | .binary _ lhs rhs => lhs.globals ++ rhs.globals
  | .and lhs rhs => lhs.globals ++ rhs.globals
  | .or lhs rhs => lhs.globals ++ rhs.globals
  | .conditional yes cond no => yes.globals ++ cond.globals ++ no.globals
  | .lambda _ body => body.globals
  | .comprehension element clauses => globalsOfClauses clauses ++ element.globals

def globalsOfAll : List Code → List String
  | [] => []
  | code :: rest => code.globals ++ globalsOfAll rest

def globalsOfEntries : List (Code × Code) → List String
  | [] => []
  | (key, value) :: rest => key.globals ++ value.globals ++ globalsOfEntries rest

def globalsOfClauses : List CodeClause → List String
  | [] => []
  | .mk _ source conditions :: rest =>
      source.globals ++ globalsOfAll conditions ++ globalsOfClauses rest

end

/-- The names that the code looks up in the context, each once, in the order of first use. -/
def Code.freeNames (code : Code) : List String := code.globals.eraseDups

end Stencil
