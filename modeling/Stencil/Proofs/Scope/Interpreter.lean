/-
The meaning of an expression without slots: an interpreter of syntax trees that looks every
name up in an environment of names.  A tree is evaluated from left to right, and the first
error ends the evaluation.
-/
import Stencil.Code.Compile
import Stencil.Eval.Basic

namespace Stencil

/-- A function as the text has it: its parameters and its body, and the names that were bound
around it, outermost first. -/
structure Lambda where
  captured : List String
  params : List String
  body : Expr

namespace Named

/-- A value whose functions are pieces of text. -/
abbrev Value := Val Lambda

abbrev Call := Value → List Value → Eval Value

/-- An environment of names. -/
structure Env where
  context : Context Lambda
  helpers : Helpers Lambda
  /-- What parameters and targets are bound to, outermost binding first. -/
  bindings : List (String × Value) := []

namespace Env

/-- The names bound inside the expression, outermost first. -/
def scope (env : Env) : List String := env.bindings.map Prod.fst

/-- Binds names to values inside the bindings that there are. -/
def bind (names : List String) (values : List Value) (env : Env) : Env :=
  { env with bindings := env.bindings ++ names.zip values }

/-- What a name means: its innermost binding, else the helpers if it is their name, else what
the context has for it. -/
def resolve (env : Env) (name : String) : Except EvalError Value :=
  match env.bindings.reverse.lookup name with
  | some value => .ok value
  | none =>
      if name = helpersName then .ok (.dict env.helpers)
      else match env.context.find? name with
        | some value => .ok value
        | none => .error (.undefined name)

/-- A function that remembers the environment it was made in. -/
def close (env : Env) (params : List String) (body : Expr) : Eval Value := do
  let serial ← get
  set (serial + 1)
  return .closure serial params.length ⟨env.scope, params, body⟩ (env.bindings.map Prod.snd)
    env.context.bindings env.helpers

end Env

mutual

/-- The value of an expression. -/
def interpret (call : Call) (env : Env) : Expr → Eval Value
  | .literal value _ => return .ofLiteral value
  | .ident name _ => Eval.ofResult (env.resolve name)
  | .list items _ => do
      let values ← interpretAll call env items
      return .array values
  | .dict entries _ => do
      let entries ← interpretEntries call env entries
      return .ofEntries entries
  | .member value name _ => do
      let value ← interpret call env value
      Eval.ofResult (value.member name)
  | .index value position _ => do
      let value ← interpret call env value
      let position ← interpret call env position
      Eval.ofResult (value.index position)
  | .call callee args _ => do
      let callee ← interpret call env callee
      let args ← interpretAll call env args
      call callee args
  | .unary op operand _ => do
      let operand ← interpret call env operand
      Eval.ofResult (operand.applyUnary op)
  | .binary op lhs rhs _ => do
      let lhs ← interpret call env lhs
      let rhs ← interpret call env rhs
      Eval.ofResult (Val.applyBinary op lhs rhs)
  | .and lhs rhs _ => do
      let value ← interpret call env lhs
      if value.isTruthy then interpret call env rhs else return value
  | .or lhs rhs _ => do
      let value ← interpret call env lhs
      if value.isTruthy then return value else interpret call env rhs
  | .conditional yes cond no _ => do
      let value ← interpret call env cond
      if value.isTruthy then interpret call env yes else interpret call env no
  | .lambda params body _ => env.close params body
  | .comprehension element clauses _ => do
      let values ← interpretClauses call (fun env => interpret call env element) env clauses
      return .array values

def interpretAll (call : Call) (env : Env) : List Expr → Eval (List Value)
  | [] => return []
  | e :: rest => do
      let value ← interpret call env e
      let values ← interpretAll call env rest
      return value :: values

/-- The entries of a dict: keys are the texts of values. -/
def interpretEntries (call : Call) (env : Env) :
    List (Expr × Expr) → Eval (List (String × Value))
  | [] => return []
  | (key, value) :: rest => do
      let key ← interpret call env key
      let value ← interpret call env value
      let entries ← interpretEntries call env rest
      return (key.text, value) :: entries

/-- Whether all conditions hold; those after the first that fails are not evaluated. -/
def interpretConditions (call : Call) (env : Env) : List Expr → Eval Bool
  | [] => return true
  | condition :: rest => do
      let value ← interpret call env condition
      if value.isTruthy then interpretConditions call env rest else return false

/-- The values of `element` for all items that the clauses let through, in order. -/
def interpretClauses (call : Call) (element : Env → Eval Value) (env : Env) :
    List Clause → Eval (List Value)
  | [] => do
      let value ← element env
      return [value]
  | .mk targets source conditions :: rest => do
      let source ← interpret call env source
      let items ← Eval.ofResult source.items
      let groups ← items.mapM fun item => do
        let values ← Eval.ofResult (Val.unpack targets.length item)
        let env := env.bind targets values
        if ← interpretConditions call env conditions then
          interpretClauses call element env rest
        else return []
      return groups.flatten

end

/-- Calls a value with at most `limit` calls open at once.  The body of a function is evaluated
in the environment that the function remembers, with its parameters bound innermost. -/
def apply (host : Host Lambda) : (limit : Nat) → Call
  | 0, _, _ => throw .callLimit
  | limit + 1, callee, args =>
      match callee with
      | .native name _ => (host.native name args).run (apply host limit)
      | .closure _ arity lambda locals globals helpers =>
          if args.length = arity then
            let env : Env := ⟨⟨globals⟩, helpers, lambda.captured.zip locals⟩
            interpret (apply host limit) (env.bind lambda.params args) lambda.body
          else throw (.error (.invalidArgumentCount Val.closureName arity args.length))
      | value => throw (.error (.notCallable value.typeName))

/-- The value of an expression in an environment. -/
def eval (host : Host Lambda) (e : Expr) (env : Env) : Eval Value :=
  interpret (apply host host.callLimit) env e

end Named
end Stencil
