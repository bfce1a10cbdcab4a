/-
A stream of tokens with the place last reached and the depth of nesting, and the few moves
that every parser of expressions is made of.
-/
import Stencil.Expr.Error

namespace Stencil
namespace Expr

/-- The deepest nesting of an expression. -/
def maxDepth : Nat := 128

/-- The tokens left, the end of the last token taken, and how many levels are open. -/
structure Stream where
  tokens : List Token
  lastEnd : Position := {}
  lastStop : Nat := 0
  depth : Nat := 0

/-- Takes tokens off a stream. -/
abbrev Parse (α : Type) := StateT Stream (Except ExprError) α

/-- Takes the next token. -/
def next : Parse Token := do
  let s ← get
  match s.tokens with
  | [] => throw .unexpectedEof
  | token :: rest =>
      set { s with tokens := rest, lastEnd := token.range.stop, lastStop := token.stop }
      return token

/-- The next token is the mark `m`. -/
def peekIs (m : Mark) : Parse Bool := do
  match (← get).tokens with
  | [] => return false
  | token :: _ => return token.isMark m

/-- The next token is the end of the expression. -/
def peekEof : Parse Bool := do
  match (← get).tokens with
  | [] => return false
  | token :: _ => return token.isEof

/-- The start of the next token; after the last token, its end. -/
def peekStart : Parse Position := do
  let s ← get
  match s.tokens with
  | [] => return s.lastEnd
  | token :: _ => return token.range.start

/-- The bytes before the next token; after the last token, up to its end. -/
def peekOffset : Parse Nat := do
  let s ← get
  match s.tokens with
  | [] => return s.lastStop
  | token :: _ => return token.start

/-- Takes the next token if it is the mark `m`, and says whether it did. -/
def consume (m : Mark) : Parse Bool := do
  if ← peekIs m then
    let _ ← next
    return true
  else return false

/-- A token that does not belong here; the end of the expression has an error of its own. -/
def unexpected (token : Token) : ExprError :=
  if token.isEof then .unexpectedEof else .unexpectedToken token

/-- Takes the next token, which has to be the mark `m`. -/
def expect (m : Mark) : Parse Unit := do
  let token ← next
  if token.isMark m then return () else throw (unexpected token)

/-- Takes the next token, which has to be a name. -/
def expectIdent : Parse String := do
  let token ← next
  match token.kind with
  | .ident name => return name
  | _ => throw (unexpected token)

/-- Takes the end of the expression. -/
def expectEof : Parse Unit := do
  let token ← next
  if token.isEof then return () else throw (.unexpectedToken token)

/-- The range from `start` to the end of the last token taken. -/
def rangeFrom (start : Position) : Parse Range := do
  return ⟨start, (← get).lastEnd⟩

/-- Opens one more level of nesting, if there is one. -/
def enter : Parse Unit := do
  let s ← get
  if s.depth < maxDepth then set { s with depth := s.depth + 1 }
  else throw (.tooDeeplyNested maxDepth (← peekStart))

/-- Runs a parser and closes the levels that it opened. -/
def restoringDepth {α : Type} (p : Parse α) : Parse α := do
  let depth := (← get).depth
  let result ← p
  modify fun s => { s with depth := depth }
  return result

/-- Runs a parser one level deeper. -/
def nested {α : Type} (p : Parse α) : Parse α :=
  restoringDepth do
    enter
    p

end Expr
end Stencil
