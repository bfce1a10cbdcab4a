/-
Tags that choose, repeat and bind: `if`, `for`, `with`, `twice`.
-/
import Stencil.Tag.Program

namespace Stencil
namespace Tag

open TagProgram

/-- `if CONDITION … else … endif` -/
def choice : Handler := fun args => do
  let condition ← expression args
  let (yes, closing) ← scope ["else", "endif"]
  let no ← if closing = "else" then Prod.fst <$> scope ["endif"] else pure []
  return some <| .node fun context =>
    .value condition context fun v =>
      .statements (if v.isTruthy then yes else no) context .done

/-- What a loop binds for one item: one name to the item, several names to the items of an
array of as many. -/
def bindItem (names : List String) (item : Value) : Except EvalError (List (String × Value)) :=
  match names, item with
  | [name], item => .ok [(name, item)]
  | names, .array values =>
      if values.length = names.length then .ok (names.zip values) else .error (refused names)
  | names, _ => .error (refused names)
where
  refused (names : List String) : EvalError :=
    .failure ("expected " ++ toString names.length ++ " values to unpack")

/-- Renders the body of a loop for one item after another. -/
def eachItem (names : List String) (body : List Statement) (context : Context Code) :
    List Value → Plan
  | [] => .done
  | item :: rest =>
      match bindItem names item with
      | .error e => .fail e
      | .ok bindings =>
          .statements body (context.scope bindings) (eachItem names body context rest)

/-- The names before the `in` of a loop. -/
def loopNames (e : Excerpt) : List String :=
  (splitOnChar ',' e.text).map fun name => String.ofList (trim name)

/-- `for NAME, … in ITEMS … endfor` -/
def loop : Handler := fun args => do
  match args.splitWord " in " with
  | none => invalidArguments "for" "expected `for <names> in <expression>`"
  | some (targets, source) =>
      let names := loopNames targets
      if names.contains "" then invalidArguments "for" "empty loop variable"
      let items ← expression source
      let (body, _) ← scope ["endfor"]
      return some <| .node fun context =>
        .value items context fun v =>
          match v.items with
          | .error e => .fail e
          | .ok values => eachItem names body context values

/-- Evaluates named expressions and goes on with what they bind. -/
def bindAll (context : Context Code) (resume : List (String × Value) → Plan) :
    List (String × Expression) → Plan
  | [] => resume []
  | (name, e) :: rest =>
      .value e context fun v =>
        bindAll context (fun bindings => resume ((name, v) :: bindings)) rest

/-- `with NAME=VALUE, … … endwith` -/
def binding : Handler := fun args => do
  let given ← arguments args
  if !given.positional.isEmpty then
    invalidArguments "with" "only keyword arguments are allowed"
  let (body, _) ← scope ["endwith"]
  return some <| .node fun context =>
    bindAll context (fun bindings => .statements body (context.scope bindings) .done)
      given.keywords

/-- `twice … endtwice` -/
def twice : Handler := fun _ => do
  let (body, _) ← scope ["endtwice"]
  return some <| .node fun context => .statements body context (.statements body context .done)

end Tag
end Stencil
