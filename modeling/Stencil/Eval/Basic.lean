/-
Evaluation of code.

Evaluating a piece of code recurs on the code alone; what a call does is a parameter.
`Host.apply` ties the knot: a call runs the body of a function with one call less to spend.
-/
import Stencil.Code.Basic
import Stencil.Eval.Host
import Stencil.Value.Operations

namespace Stencil

/-- A value whose functions have code for bodies. -/
abbrev Value := Val Code

/-- Everything that code reads while it runs: the context, the helpers, and the values of
its slots. -/
structure Env where
  context : Context Code
  helpers : Helpers Code
  slots : List Value := []

/-- Calls a value with arguments. -/
abbrev Call := Value → List Value → Eval Value

/-- A function that remembers where it was made. -/
def Env.close (env : Env) (arity : Nat) (body : Code) : Eval Value := do
  let serial ← get
  set (serial + 1)
  return .closure serial arity body env.slots env.context.bindings env.helpers

/-- The environment with more slots filled. -/
def Env.fill (env : Env) (values : List Value) : Env := { env with slots := env.slots ++ values }

def Env.slot (env : Env) (index : Nat) (name : String) : Except EvalError Value :=
  match env.slots[index]? with
  | some value => .ok value
  | none => .error (.undefined name)

def Env.global (env : Env) (name : String) : Except EvalError Value :=
  match env.context.find? name with
  | some value => .ok value
  | none => .error (.undefined name)

mutual

/-- The value of code. -/
def Code.eval (call : Call) (env : Env) : Code → Eval Value
  | .literal value => return .ofLiteral value
  | .slot index name => Eval.ofResult (env.slot index name)
  | .helpers => return .dict env.helpers
  | .global name => Eval.ofResult (env.global name)
  | .list items => do
      let values ← evalAll call env items
      return .array values
  | .dict entries => do
      let entries ← evalEntries call env entries
      return .ofEntries entries
  | .member value name => do
      let value ← value.eval call env
      Eval.ofResult (value.member name)
  | .index value position => do
      let value ← value.eval call env
      let position ← position.eval call env
      Eval.ofResult (value.index position)
  | .call callee args => do
      let callee ← callee.eval call env
      let args ← evalAll call env args
      call callee args
  | .unary op operand => do
      let operand ← operand.eval call env
      Eval.ofResult (operand.applyUnary op)
  | .binary op lhs rhs => do
      let lhs ← lhs.eval call env
      let rhs ← rhs.eval call env
      Eval.ofResult (Val.applyBinary op lhs rhs)
  | .and lhs rhs => do
      let value ← lhs.eval call env
      if value.isTruthy then rhs.eval call env else return value
  | .or lhs rhs => do
      let value ← lhs.eval call env
      if value.isTruthy then return value else rhs.eval call env
  | .conditional yes cond no => do
      let value ← cond.eval call env
      if value.isTruthy then yes.eval call env else no.eval call env
  | .lambda arity body => env.close arity body
  | .comprehension element clauses => do
      let values ← evalClauses call (fun env => element.eval call env) env clauses
      return .array values

def evalAll (call : Call) (env : Env) : List Code → Eval (List Value)
  | [] => return []
  | code :: rest => do
      let value ← code.eval call env
      let values ← evalAll call env rest
      return value :: values

/-- The entries of a dict: keys are the texts of values. -/
def evalEntries (call : Call) (env : Env) : List (Code × Code) → Eval (List (String × Value))
  | [] => return []
  | (key, value) :: rest => do
      let key ← key.eval call env
      let value ← value.eval call env
      let entries ← evalEntries call env rest
      return (key.text, value) :: entries

/-- Whether all conditions hold; those after the first that fails are not evaluated. -/
def evalConditions (call : Call) (env : Env) : List Code → Eval Bool
  | [] => return true
  | condition :: rest => do
      let value ← condition.eval call env
      if value.isTruthy then evalConditions call env rest else return false

/-- The values of `element` for all items that the clauses let through, in order. -/
def evalClauses (call : Call) (element : Env → Eval Value) (env : Env) :
    List CodeClause → Eval (List Value)
  | [] => do
      let value ← element env
      return [value]
  | .mk arity source conditions :: rest => do
      let source ← source.eval call env
      let items ← Eval.ofResult source.items
      let groups ← items.mapM fun item => do
        let values ← Eval.ofResult (Val.unpack arity item)
        let env := env.fill values
        if ← evalConditions call env conditions then evalClauses call element env rest
        else return []
      return groups.flatten

end

/-- Calls a value with at most `limit` calls open at once. -/
def Host.apply (host : Host Code) : (limit : Nat) → Call
  | 0, _, _ => throw .callLimit
  | limit + 1, callee, args =>
      match callee with
      | .native name _ => (host.native name args).run (host.apply limit)
      | .closure _ arity body slots globals helpers =>
          if args.length = arity then
            body.eval (host.apply limit) ⟨⟨globals⟩, helpers, slots ++ args⟩
          else throw (.error (.invalidArgumentCount Val.closureName arity args.length))
      | value => throw (.error (.notCallable value.typeName))

/-- The value of code in an environment. -/
def Host.eval (host : Host Code) (code : Code) (env : Env) : Eval Value :=
  code.eval (host.apply host.callLimit) env

end Stencil
