/-
From syntax trees to code.  The scope of a place in an expression lists the names bound
around it, outermost first, and a name stands for its last place in that list.
-/
import Stencil.Code.Basic
import Stencil.Expr.Syntax

namespace Stencil

/-- The last place of `name` in a scope. -/
def slot? (name : String) : List String → Option Nat
  | [] => none
  | bound :: scope =>
      match slot? name scope with
      | some i => some (i + 1)
      | none => if bound = name then some 0 else none

/-- The name of the table of helpers.  It is never looked up in the context. -/
def helpersName : String := "helpers"

/-- The code of a name: a slot if it is bound, else the helpers, else the context. -/
def Code.ofName (scope : List String) (name : String) : Code :=
  match slot? name scope with
  | some i => .slot i name
  | none => if name = helpersName then .helpers else .global name

/-- The scope after the clauses of a comprehension: their targets are bound. -/
def clauseScope (scope : List String) : List Clause → List String
  | [] => scope
  | .mk targets _ _ :: rest => clauseScope (scope ++ targets) rest

mutual

/-- The code of an expression in a scope. -/
def Code.ofExpr (scope : List String) : Expr → Code
  | .literal value _ => .literal value
  | .ident name _ => .ofName scope name
  | .list items _ => .list (codesOfExprs scope items)
  | .dict entries _ => .dict (codesOfEntries scope entries)
  | .member value name _ => .member (.ofExpr scope value) name
  | .index value position _ => .index (.ofExpr scope value) (.ofExpr scope position)
  | .call callee args _ => .call (.ofExpr scope callee) (codesOfExprs scope args)
  | .unary op operand _ => .unary op (.ofExpr scope operand)
  | .binary op lhs rhs _ => .binary op (.ofExpr scope lhs) (.ofExpr scope rhs)
  | .and lhs rhs _ => .and (.ofExpr scope lhs) (.ofExpr scope rhs)
  | .or lhs rhs _ => .or (.ofExpr scope lhs) (.ofExpr scope rhs)
  | .conditional yes cond no _ =>
      .conditional (.ofExpr scope yes) (.ofExpr scope cond) (.ofExpr scope no)
  | .lambda params body _ => .lambda params.length (.ofExpr (scope ++ params) body)
  | .comprehension element clauses _ =>
      .comprehension (.ofExpr (clauseScope scope clauses) element)
        (codesOfClauses scope clauses)

def codesOfExprs (scope : List String) : List Expr → List Code
  | [] => []
  | e :: rest => .ofExpr scope e :: codesOfExprs scope rest

def codesOfEntries (scope : List String) : List (Expr × Expr) → List (Code × Code)
  | [] => []
  | (key, value) :: rest =>
      (.ofExpr scope key, .ofExpr scope value) :: codesOfEntries scope rest

/-- The code of the clauses of a comprehension.  A source sees the targets of the clauses
before it, the conditions see those of their own clause too. -/
def codesOfClauses (scope : List String) : List Clause → List CodeClause
  | [] => []
  | .mk targets source conditions :: rest =>
      let inner := scope ++ targets
      .mk targets.length (.ofExpr scope source) (codesOfExprs inner conditions)
        :: codesOfClauses inner rest

end

end Stencil
