/-
From tokens to syntax trees.

The parsers of one level of the grammar are functions of the parsers they call back into
from the start, `Descent`.  A descent is built once for every token that is left, since no
parser is called back into before it took a token.
-/
import Stencil.Expr.Stream
import Stencil.Expr.Syntax

namespace Stencil
namespace Expr

/-- The parsers that a parser runs from the start of the grammar after it took a token. -/
structure Descent where
  /-- An expression, one level deeper. -/
  expr : Parse Expr
  /-- An operand of `not`, one level deeper. -/
  notOperand : Parse Expr
  /-- An operand of a sign or a power, one level deeper. -/
  unaryOperand : Parse Expr
  /-- A chain of `or` on the same level: what a comprehension iterates over or tests. -/
  disjunction : Parse Expr

/-- The descent of a stream without tokens. -/
def Descent.ended : Descent :=
  { expr := throw .unexpectedEof
    notOperand := throw .unexpectedEof
    unaryOperand := throw .unexpectedEof
    disjunction := throw .unexpectedEof }

/-- Bounds the rounds of a loop that takes a token in every round. -/
def rounds : Parse Nat := do
  return (← get).tokens.length + 1

/-- Reads items between commas up to the mark `close`; a comma may follow the last. -/
def sequence (item : Parse Expr) (close : Mark) : Nat → Parse (List Expr)
  | 0 => throw .unexpectedEof
  | fuel + 1 => do
      if ← consume close then return []
      let first ← item
      if ← consume .comma then
        let rest ← sequence item close fuel
        return first :: rest
      else
        expect close
        return [first]

/-- Reads `key: value` pairs between commas up to a closing brace. -/
def entries (item : Parse Expr) : Nat → Parse (List (Expr × Expr))
  | 0 => throw .unexpectedEof
  | fuel + 1 => do
      if ← consume .rightBrace then return []
      let key ← item
      expect .colon
      let value ← item
      if ← consume .comma then
        let rest ← entries item fuel
        return (key, value) :: rest
      else
        expect .rightBrace
        return [(key, value)]

/-- Reads names between commas, each other than the names `seen` before it. -/
def parameters (seen : List String) : Nat → Parse (List String)
  | 0 => throw .unexpectedEof
  | fuel + 1 => do
      let name ← expectIdent
      if name ∈ seen then throw (.duplicateParameter name)
      if ← consume .comma then
        let rest ← parameters (name :: seen) fuel
        return name :: rest
      else return [name]

/-- Reads the names that one item is bound to. -/
def targets : Nat → Parse (List String)
  | 0 => throw .unexpectedEof
  | fuel + 1 => do
      let name ← expectIdent
      if ← consume .comma then
        let rest ← targets fuel
        return name :: rest
      else return [name]

/-- Reads the `if` conditions of a clause. -/
def conditions (condition : Parse Expr) : Nat → Parse (List Expr)
  | 0 => return []
  | fuel + 1 => do
      if ← consume .ifWord then
        let first ← condition
        let rest ← conditions condition fuel
        return first :: rest
      else return []

/-- Reads the `for` clauses of a comprehension. -/
def clauses (disjunction : Parse Expr) : Nat → Parse (List Clause)
  | 0 => return []
  | fuel + 1 => do
      if ← consume .forWord then
        let names ← targets (← rounds)
        expect .inWord
        let source ← disjunction
        let tests ← conditions disjunction (← rounds)
        let rest ← clauses disjunction fuel
        return .mk names source tests :: rest
      else return []

namespace Descent

/-- Reads a list or a comprehension after its opening bracket. -/
def list (d : Descent) (start : Position) : Parse Expr := do
  if ← consume .rightBracket then return .list [] (← rangeFrom start)
  let first ← d.expr
  if ← peekIs .forWord then
    let parts ← clauses d.disjunction (← rounds)
    expect .rightBracket
    return .comprehension first parts (← rangeFrom start)
  if ← consume .comma then
    let rest ← sequence d.expr .rightBracket (← rounds)
    return .list (first :: rest) (← rangeFrom start)
  expect .rightBracket
  return .list [first] (← rangeFrom start)

/-- Reads a constant, a name, a list, a dict, or an expression in parentheses. -/
def primary (d : Descent) : Parse Expr := do
  let token ← next
  let start := token.range.start
  match token.kind with
  | .number n => return .literal (.number n) (← rangeFrom start)
  | .string s => return .literal (.string s) (← rangeFrom start)
  | .ident name => return .ident name (← rangeFrom start)
  | .mark .trueWord => return .literal (.bool true) (← rangeFrom start)
  | .mark .falseWord => return .literal (.bool false) (← rangeFrom start)
  | .mark .noneWord => return .literal .none (← rangeFrom start)
  | .mark .leftParen =>
      let inner ← d.expr
      expect .rightParen
      return inner.withRange (← rangeFrom start)
  | .mark .leftBracket => d.list start
  | .mark .leftBrace =>
      let pairs ← entries d.expr (← rounds)
      return .dict pairs (← rangeFrom start)
  | _ => throw (unexpected token)

/-- Reads the `.name`, `[index]` and `(args)` that follow an operand. -/
def suffixes (d : Descent) (start : Position) (value : Expr) : Nat → Parse Expr
  | 0 => return value
  | fuel + 1 => do
      if ← consume .dot then
        enter
        let name ← expectIdent
        d.suffixes start (.member value name (← rangeFrom start)) fuel
      else if ← consume .leftBracket then
        enter
        let position ← d.expr
        expect .rightBracket
        d.suffixes start (.index value position (← rangeFrom start)) fuel
      else if ← consume .leftParen then
        enter
        let args ← sequence d.expr .rightParen (← rounds)
        d.suffixes start (.call value args (← rangeFrom start)) fuel
      else return value

def suffixed (d : Descent) : Parse Expr := restoringDepth do
  let start ← peekStart
  let value ← d.primary
  d.suffixes start value (← rounds)

/-- Reads an operand that may be raised to a power. -/
def power (d : Descent) : Parse Expr := do
  let base ← d.suffixed
  if ← consume .doubleStar then
    let exponent ← d.unaryOperand
    return .binary .pow base exponent (base.span exponent)
  else return base

/-- Reads an operand that may have signs in front. -/
def unary (d : Descent) : Parse Expr := do
  let start ← peekStart
  if ← consume .minus then
    let operand ← d.unaryOperand
    return .unary .neg operand (← rangeFrom start)
  else if ← consume .plus then
    let operand ← d.unaryOperand
    return .unary .pos operand (← rangeFrom start)
  else d.power

end Descent

/-- How tightly a mark binds its operands: comparisons 1, sums 2, products 3; 0 for a mark
that is no such operator. -/
def Mark.precedence : Mark → Nat
  | .equalEqual | .notEqual | .less | .lessEqual | .greater | .greaterEqual | .inWord
  | .notWord => 1
  | .plus | .minus => 2
  | .star | .slash | .doubleSlash | .percent => 3
  | _ => 0

/-- The precedence of the next token. -/
def peekPrecedence : Parse Nat := do
  match (← get).tokens with
  | ⟨.mark m, _, _, _⟩ :: _ => return m.precedence
  | _ => return 0

/-- Takes an operator.  After an operand `not` can only start `not in`. -/
def operator : Parse BinaryOp := do
  let token ← next
  match token.kind with
  | .mark .equalEqual => return .eq
  | .mark .notEqual => return .ne
  | .mark .less => return .lt
  | .mark .lessEqual => return .le
  | .mark .greater => return .gt
  | .mark .greaterEqual => return .ge
  | .mark .inWord => return .isIn
  | .mark .notWord =>
      expect .inWord
      return .notIn
  | .mark .plus => return .add
  | .mark .minus => return .sub
  | .mark .star => return .mul
  | .mark .slash => return .div
  | .mark .doubleSlash => return .floorDiv
  | .mark .percent => return .mod
  | _ => throw (.unexpectedToken token)

namespace Descent

/-- Reads the operators of at least the given precedence that follow `lhs`, with their
operands.  Every operator opens a level until its chain is read. -/
def operators (d : Descent) (least : Nat) (lhs : Expr) : Nat → Parse Expr
  | 0 => return lhs
  | fuel + 1 => do
      let precedence ← peekPrecedence
      if precedence = 0 || precedence < least then return lhs
      enter
      let op ← operator
      let operand ← d.unary
      let following ← peekPrecedence
      let rhs ← if precedence < following
        then restoringDepth (d.operators following operand fuel)
        else pure operand
      d.operators least (.binary op lhs rhs (lhs.span rhs)) fuel

/-- Reads sums and products. -/
def arithmetic (d : Descent) : Parse Expr := do
  let lhs ← d.unary
  restoringDepth (do d.operators 2 lhs (← rounds))

/-- Reads the comparisons that follow `lhs`.  `chain` holds the comparisons read so far, of
which `lhs` is the last operand; neighbours are compared, and all have to hold. -/
def comparisons (d : Descent) (chain : Option Expr) (lhs : Expr) : Nat → Parse Expr
  | 0 => return chain.getD lhs
  | fuel + 1 => do
      if (← peekPrecedence) ≠ 1 then return chain.getD lhs
      enter
      let op ← operator
      let rhs ← d.arithmetic
      let pair := Expr.binary op lhs rhs (lhs.span rhs)
      let chain := match chain with
        | some before => Expr.and before pair (before.span pair)
        | none => pair
      d.comparisons (some chain) rhs fuel

def comparison (d : Descent) : Parse Expr := restoringDepth do
  let lhs ← d.arithmetic
  d.comparisons none lhs (← rounds)

def negation (d : Descent) : Parse Expr := do
  let start ← peekStart
  if ← consume .notWord then
    let operand ← d.notOperand
    return .unary .not operand (← rangeFrom start)
  else d.comparison

/-- Reads the operands that follow `lhs` in a chain of `and`. -/
def conjuncts (d : Descent) (lhs : Expr) : Nat → Parse Expr
  | 0 => return lhs
  | fuel + 1 => do
      if ← consume .andWord then
        enter
        let rhs ← d.negation
        d.conjuncts (.and lhs rhs (lhs.span rhs)) fuel
      else return lhs

def conjunction (d : Descent) : Parse Expr := restoringDepth do
  let lhs ← d.negation
  d.conjuncts lhs (← rounds)

/-- Reads the operands that follow `lhs` in a chain of `or`. -/
def disjuncts (d : Descent) (lhs : Expr) : Nat → Parse Expr
  | 0 => return lhs
  | fuel + 1 => do
      if ← consume .orWord then
        enter
        let rhs ← d.conjunction
        d.disjuncts (.or lhs rhs (lhs.span rhs)) fuel
      else return lhs

def disjunctionOf (d : Descent) : Parse Expr := restoringDepth do
  let lhs ← d.conjunction
  d.disjuncts lhs (← rounds)

/-- Reads a function after the word `lambda`. -/
def lambda (d : Descent) (start : Position) : Parse Expr := do
  let params ← if ← peekIs .colon then pure [] else parameters [] (← rounds)
  expect .colon
  let body ← d.expr
  return .lambda params body (← rangeFrom start)

/-- Reads a function, a conditional, or a chain of `or`. -/
def conditional (d : Descent) : Parse Expr := do
  let start ← peekStart
  if ← consume .lambdaWord then d.lambda start
  else
    let yes ← d.disjunctionOf
    if ← consume .ifWord then
      let cond ← d.disjunctionOf
      expect .elseWord
      let no ← d.expr
      return .conditional yes cond no (← rangeFrom start)
    else return yes

/-- The descent of a stream of at most `fuel` tokens. -/
def ofLength : Nat → Descent
  | 0 => ended
  | fuel + 1 =>
      let d := ofLength fuel
      { expr := nested d.conditional
        notOperand := nested d.negation
        unaryOperand := nested d.unary
        disjunction := d.disjunctionOf }

end Descent

/-- Reads an expression one level deeper. -/
def expression : Parse Expr := do
  (Descent.ofLength (← rounds)).expr

/-- Reads one expression that takes up the whole stream. -/
def whole : Parse Expr := do
  if ← peekEof then throw .empty
  let e ← expression
  expectEof
  return e

/-- The syntax tree of a list of tokens that ends in their end. -/
def ofTokens? (tokens : List Token) : Except ExprError Expr :=
  (whole.run { tokens := tokens }).map Prod.fst

/-- One argument of a tag: an expression, the keyword in front of it, and the bytes of the
argument text that it covers. -/
structure Argument where
  keyword : Option String
  value : Expr
  start : Nat
  stop : Nat
deriving Inhabited

/-- Reads `value` or `name=value`. -/
def argument : Parse Argument := do
  let start ← peekOffset
  let value ← expression
  match value with
  | .ident name _ =>
      if ← consume .equal then
        let start ← peekOffset
        let value ← expression
        return ⟨some name, value, start, (← get).lastStop⟩
      else return ⟨none, value, start, (← get).lastStop⟩
  | _ => return ⟨none, value, start, (← get).lastStop⟩

/-- Reads arguments between commas up to the end; a comma may follow the last. -/
def argumentList : Nat → Parse (List Argument)
  | 0 => throw .unexpectedEof
  | fuel + 1 => do
      if ← peekEof then return []
      let first ← argument
      if ← consume .comma then
        let rest ← argumentList fuel
        return first :: rest
      else return [first]

/-- The arguments that a list of tokens writes. -/
def argumentsOfTokens? (tokens : List Token) : Except ExprError (List Argument) :=
  let all : Parse (List Argument) := do
    let args ← argumentList (← rounds)
    expectEof
    return args
  (all.run { tokens := tokens }).map Prod.fst

end Expr
end Stencil
