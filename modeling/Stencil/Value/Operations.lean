/-
Operations on values.  Each takes values of certain types only and names the operation and
the types in its error otherwise.
-/
import Stencil.Text.Basic
import Stencil.Value.Basic

namespace Stencil
namespace Val

variable {κ : Type}

abbrev Result (κ : Type) := Except EvalError (Val κ)

/-- The most bytes that a repeated text or array may take. -/
def maxRepeatBytes : Nat := Nat.pow 2 63 - 1

/-- The bytes that one item of an array takes. -/
def itemBytes : Nat := 40

/-- Lengths and counts are words of 64 bits: they lie below this bound. -/
def wordBound : Nat := Nat.pow 2 64

/-- The product of two words, if it is one. -/
def wordProduct? (a b : Nat) : Option Nat :=
  if a * b < wordBound then some (a * b) else .none

/-- How often a number repeats what it multiplies: not at all unless it is above zero, else as often
as the word says that has the bits of its integer. -/
def repeatCount (n : Number) : Nat :=
  if !n.isNaN && n.order ≤ 0 then 0 else (n.toInt % wordBound).toNat

/-- The length of `length` items repeated `count` times, if their bytes can be stored. -/
def repeatLength? (length count bytes : Nat) : Except EvalError Nat :=
  let total := (wordProduct? length count).filter fun total =>
    (wordProduct? total bytes).any (· ≤ maxRepeatBytes)
  match total with
  | some total => .ok total
  | .none => .error (.failure "repeat count too large")

/-- `s` as often as `count` says. -/
def repeatString (count : Nat) (s : String) : String :=
  if s.isEmpty then "" else String.join (List.replicate count s)

/-- The first `length` items of `items` over and over. -/
def cycleList {α : Type} (length : Nat) (items : List α) : List α :=
  (List.replicate (length / items.length + 1) items).flatten.take length

def timesString (s : String) (n : Number) : Result κ :=
  (repeatLength? s.utf8ByteSize (repeatCount n) 1).map fun _ =>
    string (repeatString (repeatCount n) s)

def timesArray (items : List (Val κ)) (n : Number) : Result κ :=
  (repeatLength? items.length (repeatCount n) itemBytes).map fun length =>
    array (cycleList length items)

def add : Val κ → Val κ → Result κ
  | number a, number b => .ok (number (a + b))
  | string a, string b => .ok (string (a ++ b))
  | array a, array b => .ok (array (a ++ b))
  | a, b => .error (invalidTypes "+" [a, b])

def sub : Val κ → Val κ → Result κ
  | number a, number b => .ok (number (a - b))
  | a, b => .error (invalidTypes "-" [a, b])

/-- The product of numbers; a number also repeats a text or an array, from either side. -/
def mul : Val κ → Val κ → Result κ
  | number a, number b => .ok (number (a * b))
  | string s, number n => timesString s n
  | number n, string s => timesString s n
  | array items, number n => timesArray items n
  | number n, array items => timesArray items n
  | a, b => .error (invalidTypes "*" [a, b])

/-- A kind of division of numbers: nothing is divided by a number next to zero. -/
def divideBy (operation : String) (divide : Number → Number → Number) :
    Val κ → Val κ → Result κ
  | number a, number b => if b.isZero then .error .zeroDivision else .ok (number (divide a b))
  | a, b => .error (invalidTypes operation [a, b])

def div : Val κ → Val κ → Result κ := divideBy "/" (· / ·)

def floorDiv : Val κ → Val κ → Result κ := divideBy "//" Number.floorDiv

def mod : Val κ → Val κ → Result κ := divideBy "%" Number.modulo

def pow : Val κ → Val κ → Result κ
  | number a, number b => .ok (number (a.pow b))
  | a, b => .error (invalidTypes "**" [a, b])

def neg : Val κ → Result κ
  | number n => .ok (number (-n))
  | a => .error (invalidTypes "-" [a])

def pos : Val κ → Result κ
  | number n => .ok (number n)
  | a => .error (invalidTypes "+" [a])

/-- A test of the order of two values. -/
def ordered (operation : String) (test : Ordering → Bool) (a b : Val κ) : Result κ :=
  match order? a b with
  | some o => .ok (bool (test o))
  | .none => .error (invalidTypes operation [a, b])

/-- A text holds its parts, an array its items, a dict its keys. -/
def contains : (container item : Val κ) → Except EvalError Bool
  | string text, string part => .ok (findWord part.toList text.toList).isSome
  | array items, item => .ok (items.any (· == item))
  | dict entries, string key => .ok (Table.find? key entries).isSome
  | dict _, _ => .ok false
  | container, item => .error (invalidTypes "in" [item, container])

/-- The place in a sequence of `length` items that an index means: a negative one counts
from the end.  It is worked out in words of 64 bits with a sign. -/
def place? (index : Int) (length : Nat) : Option Nat :=
  let index := Int64.ofInt index
  let length := Int64.ofNat length
  let place := if index < 0 then length + index else index
  if place < 0 || length ≤ place then .none else some place.toUInt64.toNat

/-- The item of a list that an index means. -/
def itemAt {α : Type} (items : List α) (n : Number) : Except EvalError α :=
  match (place? n.toInt items.length).bind (items[·]?) with
  | some item => .ok item
  | .none => .error (.indexOutOfBounds n.toInt)

/-- An item of an array, a character of a text, or an entry of a dict. -/
def index (value position : Val κ) : Result κ :=
  let refused := invalidTypes "[]" [value, position]
  match value, position with
  | array items, number n => if n.isInt then itemAt items n else .error refused
  | string s, number n =>
      if n.isInt then (itemAt s.toList n).map fun c => string c.toString else .error refused
  | dict entries, string key =>
      match Table.find? key entries with
      | some value => .ok value
      | .none => .error (.keyNotFound key)
  | _, _ => .error refused

/-- An entry of a dict by its name. -/
def member (name : String) : Val κ → Result κ
  | dict entries =>
      match Table.find? name entries with
      | some value => .ok value
      | .none => .error (.memberNotFound "dict" name)
  | v => .error (.memberNotFound v.typeName name)

def applyUnary : UnaryOp → Val κ → Result κ
  | .neg, v => neg v
  | .pos, v => pos v
  | .not, v => .ok (bool !v.isTruthy)

def applyBinary (op : BinaryOp) (lhs rhs : Val κ) : Result κ :=
  match op with
  | .add => add lhs rhs
  | .sub => sub lhs rhs
  | .mul => mul lhs rhs
  | .div => div lhs rhs
  | .floorDiv => floorDiv lhs rhs
  | .mod => mod lhs rhs
  | .pow => pow lhs rhs
  | .eq => .ok (bool (lhs == rhs))
  | .ne => .ok (bool (lhs != rhs))
  | .lt => ordered op.symbol Ordering.isLT lhs rhs
  | .le => ordered op.symbol Ordering.isLE lhs rhs
  | .gt => ordered op.symbol Ordering.isGT lhs rhs
  | .ge => ordered op.symbol Ordering.isGE lhs rhs
  | .isIn => (contains rhs lhs).map bool
  | .notIn => (contains rhs lhs).map fun found => bool !found

/-- The values that fill the slots of a clause for one item: the item itself, or the items
of an array of the right length. -/
def unpack (arity : Nat) (item : Val κ) : Except EvalError (List (Val κ)) :=
  if arity = 1 then .ok [item]
  else match item with
    | array values =>
        if values.length = arity then .ok values
        else .error (.failure ("expected " ++ toString arity ++ " values to unpack, got "
          ++ toString values.length))
    | v => .error (invalidTypes "unpack" [v])

end Val
end Stencil
