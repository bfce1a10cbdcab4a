/-
The native functions: what a function of a given name does with its arguments.
-/
import Stencil.Eval.Host

namespace Stencil

/-- A native function, from its arguments to what it does. -/
abbrev Native (κ : Type) := List (Val κ) → Reply κ

namespace Native

variable {κ : Type}

/-- One text with its ASCII letters in upper case. -/
def upper : Native κ
  | [.string s] => .give (.ok (.string (s.map Char.toUpper)))
  | [v] => .give (.error (Val.invalidTypes "upper" [v]))
  | args => .give (.error (.invalidArgumentCount "upper" 1 args.length))

/-- The texts of the items of a value, with a text between each two. -/
def join : Native κ
  | [value, .string separator] =>
      .give (value.items.map fun items => .string (separator.intercalate (items.map Val.text)))
  | args => .give (.error (Val.invalidTypes "join" args))

/-- The arguments as an array. -/
def args : Native κ := fun args => .give (.ok (.array args))

/-- The name of the type of the first argument. -/
def type : Native κ
  | [] => .give (.ok .none)
  | v :: _ => .give (.ok (.string v.typeName))

/-- The items of the first argument. -/
def iter : Native κ
  | [] => .give (.ok .none)
  | v :: _ => .give (v.items.map .array)

/-- The result of calling the first argument with the others. -/
def call : Native κ
  | [] => .give (.error (.failure "call needs a function"))
  | f :: rest =>
      if f.isFunction then .call f rest .give
      else .give (.error (.failure "call needs a function"))

/-- Fails with the texts of the arguments. -/
def fail : Native κ := fun args => .give (.error (.failure (String.join (args.map Val.text))))

/-- The native functions by name. -/
def named : List (String × Native κ) :=
  [("upper", upper), ("join", join), ("args", args), ("type", type), ("iter", iter),
    ("call", call), ("fail", fail)]

/-- A host with the native functions above; calling any other name is an error. -/
def host (callLimit : Nat) : Host κ where
  native name args :=
    match named.lookup name with
    | some native => native args
    | none => .give (.error (.notCallable name))
  callLimit

end Native

end Stencil
