/-
What surrounds an evaluation: the native functions that values can name, and how deep calls
may be nested.
-/
import Stencil.Context

namespace Stencil

/-- Why an evaluation stopped without a value: an error of the expression, or calls nested
deeper than the host allows. -/
inductive Halt where
  | error (e : EvalError)
  | callLimit
deriving DecidableEq, Repr, Inhabited

/-- An evaluation.  Its state is the next serial number for a function. -/
abbrev Eval (α : Type) := StateT Nat (Except Halt) α

/-- A result that needs no serial numbers. -/
def Eval.ofResult {α : Type} (result : Except EvalError α) : Eval α :=
  match result with
  | .ok value => pure value
  | .error e => throw (.error e)

/-- What a native function does: give its result, or first call a value and go on with what
that gives. -/
inductive Reply (κ : Type) where
  | give (result : Except EvalError (Val κ))
  | call (callee : Val κ) (args : List (Val κ))
      (resume : Except EvalError (Val κ) → Reply κ)

/-- Carries a reply out, with `call` to call functions. -/
def Reply.run {κ : Type} (call : Val κ → List (Val κ) → Eval (Val κ)) : Reply κ → Eval (Val κ)
  | .give result => Eval.ofResult result
  | .call callee args resume => fun serial =>
      match call callee args serial with
      | .ok (value, serial) => (resume (.ok value)).run call serial
      | .error (.error e) => (resume (.error e)).run call serial
      | .error .callLimit => .error .callLimit

/-- Native functions by name, and the number of calls that may be open at once. -/
structure Host (κ : Type) where
  native : String → List (Val κ) → Reply κ
  callLimit : Nat

end Stencil
