/-
Values of expressions.  Functions are values too: a native function is known by its name, a
function of an expression by its body and the bindings of the place that made it.  Each time
a function is registered or made it gets a serial number of its own, and two functions are
equal if their numbers are.
-/
import Stencil.Eval.Error
import Stencil.Number
import Stencil.Operator
import Stencil.Table

namespace Stencil

/-- A value; `κ` is the type of the bodies of functions.  The entries of a dict and the
helpers of a function are tables, and the globals of a function are bindings, newest
first. -/
inductive Val (κ : Type) where
  | none
  | bool (b : Bool)
  | number (n : Number)
  | string (s : String)
  | array (items : List (Val κ))
  | dict (entries : List (String × Val κ))
  | native (name : String) (serial : Nat)
  | closure (serial arity : Nat) (body : κ) (locals : List (Val κ))
      (globals helpers : List (String × Val κ))

namespace Val

variable {κ : Type}

instance : Inhabited (Val κ) := ⟨none⟩

/-- The name that functions of expressions go by. -/
def closureName : String := "lambda"

def typeName : Val κ → String
  | none => "None"
  | bool _ => "bool"
  | number _ => "number"
  | string _ => "string"
  | array _ => "array"
  | dict _ => "dict"
  | native .. => "function"
  | closure .. => "function"

def ofLiteral : Literal → Val κ
  | .none => none
  | .bool b => bool b
  | .number n => number n
  | .string s => string s

def isNone : Val κ → Bool
  | none => true
  | _ => false

def isFunction : Val κ → Bool
  | native .. => true
  | closure .. => true
  | _ => false

/-- Empty values, numbers next to zero, `false` and none count as false. -/
def isTruthy : Val κ → Bool
  | none => false
  | bool b => b
  | number n => !n.isZero
  | string s => !s.isEmpty
  | array items => !items.isEmpty
  | dict entries => !entries.isEmpty
  | native .. => true
  | closure .. => true

/-- The dict of some entries; of two with one key the later counts. -/
def ofEntries (entries : List (String × Val κ)) : Val κ := dict (Table.ofEntries entries)

mutual

/-- A value as it stands inside another: strings in quotes, none by its name. -/
def written : Val κ → String
  | none => "None"
  | bool b => toString b
  | number n => n.text
  | string s => "\"" ++ s ++ "\""
  | array items => "[" ++ ", ".intercalate (writtenAll items) ++ "]"
  | dict entries => "\x7b" ++ ", ".intercalate (writtenEntries entries) ++ "\x7d"
  | native name _ => "function/" ++ name
  | closure .. => "function/" ++ closureName

def writtenAll : List (Val κ) → List String
  | [] => []
  | v :: rest => v.written :: writtenAll rest

def writtenEntries : List (String × Val κ) → List String
  | [] => []
  | (key, v) :: rest => ("\"" ++ key ++ "\": " ++ v.written) :: writtenEntries rest

end

/-- The text that a value is rendered as. -/
def text : Val κ → String
  | none => ""
  | string s => s
  | v => v.written

mutual

/-- Equality by content, of functions by serial number. -/
def equals : Val κ → Val κ → Bool
  | none, none => true
  | bool a, bool b => a == b
  | number a, number b => a == b
  | string a, string b => a == b
  | array a, array b => equalAll a b
  | dict a, dict b => equalEntries a b
  | native a m, native b n => a == b && m == n
  | closure m .., closure n .. => m == n
  | _, _ => false

def equalAll : List (Val κ) → List (Val κ) → Bool
  | [], [] => true
  | a :: as, b :: bs => equals a b && equalAll as bs
  | _, _ => false

def equalEntries : List (String × Val κ) → List (String × Val κ) → Bool
  | [], [] => true
  | (k, a) :: as, (l, b) :: bs => k == l && equals a b && equalEntries as bs
  | _, _ => false

end

instance : BEq (Val κ) := ⟨equals⟩

mutual

/-- The order of two values of one type.  Arrays are compared item by item up to the first
pair that is not equal; dicts, functions and none have no order. -/
def order? : Val κ → Val κ → Option Ordering
  | number a, number b => some (compare a b)
  | bool a, bool b => some (compare a b)
  | string a, string b => some (compare a b)
  | array a, array b => orderAll? a b
  | _, _ => .none

def orderAll? : List (Val κ) → List (Val κ) → Option Ordering
  | [], [] => some .eq
  | [], _ :: _ => some .lt
  | _ :: _, [] => some .gt
  | a :: as, b :: bs =>
      match order? a b with
      | some .eq => orderAll? as bs
      | other => other

end

/-- An operation does not take values of these types. -/
def invalidTypes (operation : String) (values : List (Val κ)) : EvalError :=
  .invalidTypes operation (values.map typeName)

/-- What iterating over a value gives: the items of an array, the keys of a dict, the
characters of a string. -/
def items : Val κ → Except EvalError (List (Val κ))
  | array items => .ok items
  | dict entries => .ok (entries.map fun entry => string entry.1)
  | string s => .ok (s.toList.map fun c => string c.toString)
  | v => .error (invalidTypes "iter" [v])

end Val

end Stencil
