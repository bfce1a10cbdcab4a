/-
Rendering a template: fragments of text in the order of the document, up to the first error.

Rendering statements recurs on them; entering a method is a parameter.  `Renderer.enter`
ties the knot: a method is entered with one level less to spend.
-/
import Stencil.Template.Basic

namespace Stencil

/-- What rendering has given: the fragments in order, and why it stopped early. -/
structure Rendered where
  fragments : List String := []
  stop : Option Halt := none
deriving DecidableEq, Repr, Inhabited

namespace Rendered

def fragment (text : String) : Rendered := { fragments := [text] }

def halt (h : Halt) : Rendered := { stop := some h }

def error (e : EvalError) : Rendered := halt (.error e)

/-- What comes after `a` is rendered only if `a` did not stop. -/
def followedBy (a : Rendered) (b : Unit → Rendered) : Rendered :=
  match a.stop with
  | some _ => a
  | none =>
      let b := b ()
      ⟨a.fragments ++ b.fragments, b.stop⟩

@[simp] theorem empty_followedBy (b : Unit → Rendered) :
    ({} : Rendered).followedBy b = b () := by
  simp [followedBy]

@[simp] theorem followedBy_empty (a : Rendered) : (a.followedBy fun _ => {}) = a := by
  cases a with
  | mk fragments stop => cases stop <;> simp [followedBy]

theorem followedBy_of_stop {a : Rendered} {h : Halt} (stopped : a.stop = some h)
    (b : Unit → Rendered) : a.followedBy b = a := by
  simp [followedBy, stopped]

theorem followedBy_assoc (a : Rendered) (b c : Unit → Rendered) :
    (a.followedBy b).followedBy c = a.followedBy fun _ => (b ()).followedBy c := by
  cases a with
  | mk fragments stop =>
      cases stop with
      | some h => rfl
      | none =>
          simp only [followedBy]
          split <;> simp_all [List.append_assoc]

/-- All of the text, or why there is none. -/
def text (r : Rendered) : Except Halt String :=
  match r.stop with
  | some h => .error h
  | none => .ok (String.join r.fragments)

end Rendered

/-- Where a render stands: the definition being rendered, by its method and its place in the
chain of definitions, its helpers, and the number of methods entered. -/
structure Renderer where
  template : Template
  method : String
  position : Nat
  helpers : Helpers Code
  depth : Nat

namespace Renderer

/-- The renderer of a template before any method is entered. -/
def start (t : Template) : Renderer := ⟨t, Template.rootName, 0, t.helpers, 0⟩

def site (r : Renderer) : RenderSite := ⟨r.template.name, r.method, r.depth, r.helpers⟩

/-- The definition that the current one overrides. -/
def overridden? (r : Renderer) : Option Method := (r.template.chain r.method)[r.position + 1]?

/-- The renderer inside a definition. -/
def inside (r : Renderer) (method : Method) (position : Nat) : Renderer :=
  { r with method := method.name, position, helpers := method.helpers, depth := r.depth + 1 }

end Renderer

/-- Renders the definition at a place of its chain.  The number is the next serial number
for a function. -/
abbrev Enter := Renderer → Method → (position : Nat) → Context Code → Nat → Rendered

mutual

/-- What a plan renders. -/
def Plan.render (host : Host Code) (enter : Enter) (r : Renderer) (serial : Nat) :
    Plan → Rendered
  | .done => {}
  | .fragment text next =>
      (Rendered.fragment text).followedBy fun _ => next.render host enter r serial
  | .fail e => .error e
  | .evaluate e context resume =>
      match e.evaluate host context r.helpers serial with
      | .ok (value, serial) => (resume (.ok value)).render host enter r serial
      | .error (.error e) => (resume (.error e)).render host enter r serial
      | .error .callLimit => .halt .callLimit
  | .statements body context next =>
      (renderAll host enter r context serial body).followedBy fun _ =>
        next.render host enter r serial
  | .method name context next =>
      match r.template.method? name with
      | none => .error (.methodNotFound name)
      | some method =>
          (enter r method 0 context serial).followedBy fun _ => next.render host enter r serial
  | .super context next =>
      match r.overridden? with
      | none => .error (.noParentMethod r.method)
      | some method =>
          (enter r method (r.position + 1) context serial).followedBy fun _ =>
            next.render host enter r serial
  | .look resume => (resume r.site).render host enter r serial

/-- What a statement renders against a context. -/
def Statement.render (host : Host Code) (enter : Enter) (r : Renderer) (context : Context Code)
    (serial : Nat) : Statement → Rendered
  | .text s => .fragment s
  | .expr e =>
      match e.evaluate host context r.helpers serial with
      | .ok (value, _) => .fragment value.text
      | .error h => .halt h
  | .node plan => (plan context).render host enter r serial

/-- What statements render one after another. -/
def renderAll (host : Host Code) (enter : Enter) (r : Renderer) (context : Context Code)
    (serial : Nat) : List Statement → Rendered
  | [] => {}
  | statement :: rest =>
      (statement.render host enter r context serial).followedBy fun _ =>
        renderAll host enter r context serial rest

end

/-- Renders a definition inside at most `levels` more methods. -/
def Renderer.enter (host : Host Code) : (levels : Nat) → Enter
  | 0, r, _, _, _, _ => .error (.renderDepth r.template.maxRenderDepth)
  | levels + 1, r, method, position, context, serial =>
      renderAll host (Renderer.enter host levels) (r.inside method position) context serial
        method.body

namespace Template

/-- What a method of a template renders. -/
def renderMethod (t : Template) (host : Host Code) (name : String) (context : Context Code)
    (serial : Nat) : Rendered :=
  (Plan.method name context .done).render host (Renderer.enter host t.maxRenderDepth)
    (.start t) serial

/-- What a template renders. -/
def render (t : Template) (host : Host Code) (context : Context Code) (serial : Nat) :
    Rendered :=
  t.renderMethod host rootName context serial

end Template

end Stencil
