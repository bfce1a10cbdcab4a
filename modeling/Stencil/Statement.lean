/-
Statements of a template, and the plans by which nodes render.

A node is a statement made by a tag.  Its plan is a tree of requests to the render it takes
part in: evaluate an expression, render statements or a method, and go on with the answer.
-/
import Stencil.Expression

namespace Stencil

/-- What a node can see of the render it takes part in. -/
structure RenderSite where
  template : String
  method : String
  depth : Nat
  helpers : Helpers Code

mutual

inductive Statement where
  /-- Text that is rendered as it stands. -/
  | text (s : String)
  /-- An expression, rendered as the text of its value. -/
  | expr (e : Expression)
  /-- A node; its plan depends on the context. -/
  | node (plan : Context Code → Plan)

/-- What a node renders, step by step. -/
inductive Plan where
  | done
  | fragment (text : String) (next : Plan)
  | fail (e : EvalError)
  | evaluate (e : Expression) (context : Context Code) (resume : Except EvalError Value → Plan)
  /-- Renders statements against a context. -/
  | statements (body : List Statement) (context : Context Code) (next : Plan)
  /-- Renders the most derived definition of a method. -/
  | method (name : String) (context : Context Code) (next : Plan)
  /-- Renders the definition that the current one overrides. -/
  | super (context : Context Code) (next : Plan)
  | look (resume : RenderSite → Plan)

end

namespace Plan

instance : Inhabited Plan := ⟨done⟩

/-- Goes on with the value of an expression; an error ends the plan. -/
def value (e : Expression) (context : Context Code) (resume : Value → Plan) : Plan :=
  evaluate e context fun
    | .ok v => resume v
    | .error e => fail e

end Plan

instance : Inhabited Statement := ⟨.text ""⟩

end Stencil
