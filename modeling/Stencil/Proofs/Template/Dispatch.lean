/-
Dispatch while a template is rendered.  Every renderer that a node is handed stands at one
definition of the chain of its method and sees the helpers of that definition; what it enters
from there, by name or by overriding, is decided by the chain and the depth alone.
-/
import Stencil.Native
import Stencil.Proofs.Template.Inheritance
import Stencil.Template.Render

namespace Stencil

/-- What a plan can ask to have entered: the most derived definition of a method, or the one
that the current definition overrides. -/
inductive Target where
  | method (name : String)
  | super

namespace Target

/-- The plan that asks for a target and then goes on. -/
def plan (context : Context Code) (next : Plan) : Target → Plan
  | .method name => .method name context next
  | .super => .super context next

/-- The method whose chain a target is looked up in. -/
def name (r : Renderer) : Target → String
  | .method name => name
  | .super => r.method

/-- The place in that chain. -/
def position (r : Renderer) : Target → Nat
  | .method _ => 0
  | .super => r.position + 1

/-- The definition that is asked for. -/
def find? (r : Renderer) (target : Target) : Option Method :=
  (r.template.chain (target.name r))[target.position r]?

theorem find?_method (r : Renderer) (name : String) :
    (method name).find? r = r.template.method? name := by
  rw [Template.method?, List.head?_eq_getElem?]
  rfl

theorem find?_super (r : Renderer) : super.find? r = r.overridden? := rfl

theorem find?_eq_none_iff {r : Renderer} {target : Target} :
    target.find? r = none ↔ (r.template.chain (target.name r)).length ≤ target.position r :=
  List.getElem?_eq_none_iff

/-- The error if there is no such definition. -/
def missing (r : Renderer) : Target → EvalError
  | .method name => .methodNotFound name
  | .super => .noParentMethod r.method

end Target

/-- The state in which a target is rendered, and what is rendered there. -/
def Renderer.dispatch (r : Renderer) (target : Target) :
    Except EvalError (Renderer × List Statement) :=
  match target.find? r with
  | none => .error (target.missing r)
  | some method =>
      if r.depth < r.template.maxRenderDepth then
        .ok (r.inside method (target.position r), method.body)
      else .error (.renderDepth r.template.maxRenderDepth)

/-- The plans that a plan comes to, whatever it is answered. -/
inductive Plan.Reaches : Plan → Plan → Prop where
  | refl (plan : Plan) : Reaches plan plan
  | fragment (text : String) {next last : Plan} :
      Reaches next last → Reaches (.fragment text next) last
  | evaluate (e : Expression) (context : Context Code)
      {resume : Except EvalError Value → Plan} (answer : Except EvalError Value) {last : Plan} :
      Reaches (resume answer) last → Reaches (.evaluate e context resume) last
  | statements (body : List Statement) (context : Context Code) {next last : Plan} :
      Reaches next last → Reaches (.statements body context next) last
  | enter (target : Target) (context : Context Code) {next last : Plan} :
      Reaches next last → Reaches (target.plan context next) last
  | look {resume : RenderSite → Plan} (site : RenderSite) {last : Plan} :
      Reaches (resume site) last → Reaches (.look resume) last

/-- Statements that are rendered on behalf of a template, with the renderer that the nodes
among them are handed and the number of methods entered around them. -/
inductive Rendering (t : Template) : (entered : Nat) → Renderer → List Statement → Prop where
  | start {name : String} {r : Renderer} {body : List Statement} :
      (Renderer.start t).dispatch (.method name) = .ok (r, body) → Rendering t 1 r body
  | statements {entered : Nat} {r : Renderer} {body inner : List Statement}
      {plan : Context Code → Plan} {context innerContext : Context Code} {next : Plan} :
      Rendering t entered r body → .node plan ∈ body →
        (plan context).Reaches (.statements inner innerContext next) → Rendering t entered r inner
  | enter {entered : Nat} {r inner : Renderer} {body innerBody : List Statement}
      {plan : Context Code → Plan} {context innerContext : Context Code} {next : Plan}
      (target : Target) :
      Rendering t entered r body → .node plan ∈ body →
        (plan context).Reaches (target.plan innerContext next) →
          r.dispatch target = .ok (inner, innerBody) → Rendering t (entered + 1) inner innerBody

/-! What a target enters. -/

namespace Renderer

variable {r inner : Renderer} {body : List Statement} {target : Target}

theorem dispatch_ok_iff :
    r.dispatch target = .ok (inner, body) ↔
      ∃ method, target.find? r = some method ∧ r.depth < r.template.maxRenderDepth ∧
        inner = r.inside method (target.position r) ∧ body = method.body := by
  unfold dispatch
  cases hfind : target.find? r with
  | none => simp
  | some method =>
      by_cases hdepth : r.depth < r.template.maxRenderDepth
      · simp [hdepth, eq_comm]
      · simp [hdepth]

theorem dispatch_missing_iff :
    r.dispatch target = .error (target.missing r) ↔ target.find? r = none := by
  unfold dispatch
  cases hfind : target.find? r with
  | none => simp
  | some method =>
      by_cases hdepth : r.depth < r.template.maxRenderDepth
      · simp [hdepth]
      · cases target <;> simp [hdepth, Target.missing]

theorem dispatch_renderDepth_iff :
    r.dispatch target = .error (.renderDepth r.template.maxRenderDepth) ↔
      target.find? r ≠ none ∧ r.template.maxRenderDepth ≤ r.depth := by
  unfold dispatch
  cases hfind : target.find? r with
  | none => cases target <;> simp [Target.missing]
  | some method => simp

/-- How many more methods can be entered. -/
def levels (r : Renderer) : Nat := r.template.maxRenderDepth - r.depth

/-- What a target renders, asked for from a state. -/
def answer (host : Host Code) (r : Renderer) (context : Context Code) (serial : Nat)
    (target : Target) : Rendered :=
  match r.dispatch target with
  | .ok (inner, body) => renderAll host (Renderer.enter host inner.levels) inner context serial body
  | .error e => .error e

theorem answer_of_missing (host : Host Code) (context : Context Code) (serial : Nat)
    (hfind : target.find? r = none) :
    r.answer host context serial target = .error (target.missing r) := by
  rw [answer, dispatch_missing_iff.mpr hfind]

/-- A definition that is found is entered if the depth allows it. -/
theorem answer_of_find? (host : Host Code) (context : Context Code) (serial : Nat)
    {method : Method} (hfind : target.find? r = some method) :
    r.answer host context serial target =
      Renderer.enter host r.levels r method (target.position r) context serial := by
  by_cases hdepth : r.depth < r.template.maxRenderDepth
  · have hlevels : r.levels = (r.inside method (target.position r)).levels + 1 := by
      simp only [levels, inside]
      omega
    rw [hlevels, Renderer.enter]
    simp only [answer, dispatch, hfind, hdepth, if_true]
  · have hlevels : r.levels = 0 := by
      simp only [levels]
      omega
    simp only [hlevels, Renderer.enter, answer, dispatch, hfind, hdepth, if_false]

/-- A plan that asks for a target renders it, and goes on in the state that it asked from. -/
theorem render_plan (host : Host Code) (r : Renderer) (target : Target) (context : Context Code)
    (next : Plan) (serial : Nat) :
    (target.plan context next).render host (Renderer.enter host r.levels) r serial =
      (r.answer host context serial target).followedBy fun _ =>
        next.render host (Renderer.enter host r.levels) r serial := by
  cases hfind : target.find? r with
  | none =>
      rw [answer_of_missing host context serial hfind, Rendered.followedBy_of_stop rfl]
      cases target with
      | method name =>
          rw [Target.find?_method] at hfind
          simp only [Target.plan, Plan.render, hfind, Target.missing]
      | super =>
          rw [Target.find?_super] at hfind
          simp only [Target.plan, Plan.render, hfind, Target.missing]
  | some method =>
      rw [answer_of_find? host context serial hfind]
      cases target with
      | method name =>
          rw [Target.find?_method] at hfind
          simp only [Target.plan, Plan.render, hfind, Target.position]
      | super =>
          rw [Target.find?_super] at hfind
          simp only [Target.plan, Plan.render, hfind, Target.position]

end Renderer

section Frame

variable {host : Host Code} {enter enter' : Enter} {r : Renderer}

mutual

/-- Rendering a plan enters methods only from the state that it is rendered in, at what the
targets find there. -/
theorem Plan.render_congr
    (h : ∀ (target : Target) {method : Method}, target.find? r = some method →
      enter r method (target.position r) = enter' r method (target.position r)) :
    (plan : Plan) → (serial : Nat) →
      plan.render host enter r serial = plan.render host enter' r serial
  | .done, _ => by rw [Plan.render, Plan.render]
  | .fragment _ next, serial => by
      rw [Plan.render, Plan.render, Plan.render_congr h next serial]
  | .fail _, _ => by rw [Plan.render, Plan.render]
  | .evaluate e context resume, serial => by
      rw [Plan.render, Plan.render]
      split
      · exact Plan.render_congr h _ _
      · exact Plan.render_congr h _ _
      · rfl
  | .statements body context next, serial => by
      rw [Plan.render, Plan.render, renderAll_congr h body context serial,
        Plan.render_congr h next serial]
  | .method name context next, serial => by
      rw [Plan.render, Plan.render]
      cases hfind : r.template.method? name with
      | none => rfl
      | some method =>
          have henter := h (.method name) ((Target.find?_method r name).trans hfind)
          rw [Target.position] at henter
          simp only [henter, Plan.render_congr h next serial]
  | .super context next, serial => by
      rw [Plan.render, Plan.render]
      cases hfind : r.overridden? with
      | none => rfl
      | some method =>
          have henter := h .super ((Target.find?_super r).trans hfind)
          rw [Target.position] at henter
          simp only [henter, Plan.render_congr h next serial]
  | .look resume, serial => by
      rw [Plan.render, Plan.render]
      exact Plan.render_congr h _ serial

theorem Statement.render_congr
    (h : ∀ (target : Target) {method : Method}, target.find? r = some method →
      enter r method (target.position r) = enter' r method (target.position r)) :
    (statement : Statement) → (context : Context Code) → (serial : Nat) →
      statement.render host enter r context serial =
        statement.render host enter' r context serial
  | .text _, _, _ => by rw [Statement.render, Statement.render]
  | .expr _, _, _ => by rw [Statement.render, Statement.render]
  | .node plan, context, serial => by
      rw [Statement.render, Statement.render]
      exact Plan.render_congr h (plan context) serial

theorem renderAll_congr
    (h : ∀ (target : Target) {method : Method}, target.find? r = some method →
      enter r method (target.position r) = enter' r method (target.position r)) :
    (body : List Statement) → (context : Context Code) → (serial : Nat) →
      renderAll host enter r context serial body = renderAll host enter' r context serial body
  | [], _, _ => by rw [renderAll, renderAll]
  | statement :: rest, context, serial => by
      rw [renderAll, renderAll, Statement.render_congr h statement context serial,
        renderAll_congr h rest context serial]

end

end Frame

namespace Template

/-- Every definition in a chain is one of the method that the chain is for. -/
theorem Lineage.name_of_mem_chain {t : Template} {line : List Definition} (h : Lineage t line)
    {name : String} {method : Method} (hmem : method ∈ t.chain name) : method.name = name := by
  by_cases hname : name = rootName
  · subst hname
    obtain ⟨first, -, -, hchain⟩ := h.chain_rootName
    rw [hchain, List.mem_singleton] at hmem
    rw [hmem, Definition.entry]
  · rw [h.chain_eq hname, List.mem_filterMap] at hmem
    obtain ⟨d, -, hmethod⟩ := hmem
    obtain ⟨body, -, rfl⟩ := Option.map_eq_some_iff.mp hmethod
    rfl

end Template

/-- A renderer that stands at a definition of a template, inside so many methods. -/
structure Renderer.Sound (t : Template) (entered : Nat) (r : Renderer) : Prop where
  template : r.template = t
  position : r.position < (t.chain r.method).length
  helpers : ∃ method, (t.chain r.method)[r.position]? = some method ∧ r.helpers = method.helpers
  depth : r.depth = entered
  bounds : 1 ≤ entered ∧ entered ≤ t.maxRenderDepth

/-- What a renderer of a template enters, and when it fails to. -/
structure Renderer.Dispatches (t : Template) (r : Renderer) : Prop where
  /-- A method is entered at its most derived definition, -/
  method (name : String) {inner : Renderer} {body : List Statement} :
    r.dispatch (.method name) = .ok (inner, body) ↔
      ∃ method, (t.chain name)[0]? = some method ∧ r.depth < t.maxRenderDepth ∧
        inner = ⟨t, name, 0, method.helpers, r.depth + 1⟩ ∧ body = method.body
  methodNotFound (name : String) :
    r.dispatch (.method name) = .error (.methodNotFound name) ↔ t.chain name = []
  methodTooDeep (name : String) :
    r.dispatch (.method name) = .error (.renderDepth t.maxRenderDepth) ↔
      t.chain name ≠ [] ∧ r.depth = t.maxRenderDepth
  /-- and an overridden definition is the one behind the current one. -/
  super {inner : Renderer} {body : List Statement} :
    r.dispatch .super = .ok (inner, body) ↔
      ∃ method, (t.chain r.method)[r.position + 1]? = some method ∧
        r.depth < t.maxRenderDepth ∧
        inner = ⟨t, r.method, r.position + 1, method.helpers, r.depth + 1⟩ ∧ body = method.body
  noParentMethod :
    r.dispatch .super = .error (.noParentMethod r.method) ↔
      r.position + 1 = (t.chain r.method).length
  superTooDeep :
    r.dispatch .super = .error (.renderDepth t.maxRenderDepth) ↔
      r.position + 1 ≠ (t.chain r.method).length ∧ r.depth = t.maxRenderDepth

namespace Renderer

variable {t : Template} {line : List Definition} {entered : Nat} {r : Renderer}
  {target : Target}

/-- Entering a definition that is found, its method is the one that was asked for. -/
theorem inside_of_find? (h : Template.Lineage r.template line) {method : Method}
    (hfind : target.find? r = some method) :
    r.inside method (target.position r) =
      ⟨r.template, target.name r, target.position r, method.helpers, r.depth + 1⟩ := by
  rw [inside, h.name_of_mem_chain (List.mem_of_getElem? hfind)]

theorem dispatch_enters (h : Template.Lineage r.template line) {inner : Renderer}
    {body : List Statement} :
    r.dispatch target = .ok (inner, body) ↔
      ∃ method, (r.template.chain (target.name r))[target.position r]? = some method ∧
        r.depth < r.template.maxRenderDepth ∧
        inner = ⟨r.template, target.name r, target.position r, method.helpers, r.depth + 1⟩ ∧
        body = method.body := by
  rw [dispatch_ok_iff]
  constructor
  · rintro ⟨method, hfind, hdepth, hinner, hbody⟩
    exact ⟨method, hfind, hdepth, hinner.trans (inside_of_find? h hfind), hbody⟩
  · rintro ⟨method, hfind, hdepth, hinner, hbody⟩
    exact ⟨method, hfind, hdepth, hinner.trans (inside_of_find? h hfind).symm, hbody⟩

/-- One more method is entered. -/
theorem sound_of_dispatch (h : Template.Lineage t line) (ht : r.template = t)
    {inner : Renderer} {body : List Statement}
    (hdispatch : r.dispatch target = .ok (inner, body)) : inner.Sound t (r.depth + 1) := by
  subst ht
  obtain ⟨method, hfind, hlimit, rfl, -⟩ := (dispatch_enters h).mp hdispatch
  obtain ⟨hposition, -⟩ := List.getElem?_eq_some_iff.mp hfind
  exact ⟨rfl, hposition, ⟨method, hfind, rfl⟩, rfl, Nat.le_add_left 1 _, hlimit⟩

end Renderer

/-- The invariant of rendering: it holds wherever a method is entered, and nodes that render
statements of their own keep it. -/
theorem Rendering.sound {t : Template} {line : List Definition} (h : Template.Lineage t line)
    {entered : Nat} {r : Renderer} {body : List Statement} (hr : Rendering t entered r body) :
    r.Sound t entered := by
  induction hr with
  | start hdispatch => exact Renderer.sound_of_dispatch h rfl hdispatch
  | statements _ _ _ ih => exact ih
  | enter _ _ _ _ hdispatch ih =>
      rw [← ih.depth]
      exact Renderer.sound_of_dispatch h ih.template hdispatch

theorem Renderer.Sound.dispatches {t : Template} {line : List Definition}
    (h : Template.Lineage t line) {entered : Nat} {r : Renderer} (hr : r.Sound t entered) :
    r.Dispatches t := by
  have hdepth : r.depth ≤ t.maxRenderDepth := hr.depth ▸ hr.bounds.2
  have hposition := hr.position
  obtain rfl := hr.template
  -- The depth never passes the limit, so that reaching it is being equal to it.
  have hfull : r.template.maxRenderDepth ≤ r.depth ↔ r.depth = r.template.maxRenderDepth := by
    omega
  have hmethod (name : String) :
      (Target.method name).find? r = none ↔ r.template.chain name = [] := by
    rw [Target.find?_eq_none_iff, Target.position, Nat.le_zero, List.length_eq_zero_iff]
    rfl
  have hsuper : Target.super.find? r = none ↔
      r.position + 1 = (r.template.chain r.method).length := by
    rw [Target.find?_eq_none_iff, Target.position, Target.name]
    omega
  constructor
  · exact fun name => dispatch_enters h
  · exact fun name => dispatch_missing_iff.trans (hmethod name)
  · exact fun name => dispatch_renderDepth_iff.trans (and_congr (hmethod name).not hfull)
  · exact dispatch_enters h
  · exact dispatch_missing_iff.trans hsuper
  · exact dispatch_renderDepth_iff.trans (and_congr hsuper.not hfull)

/-- A template is rendered from the start: the method is the first that is entered. -/
theorem Template.renderMethod_eq_answer (t : Template) (host : Host Code) (name : String)
    (context : Context Code) (serial : Nat) :
    t.renderMethod host name context serial =
      (Renderer.start t).answer host context serial (.method name) := by
  have hplan := (Renderer.start t).render_plan host (.method name) context .done serial
  simp only [Plan.render, Rendered.followedBy_empty] at hplan
  exact hplan

/-- Rendering goes from state to state: it starts at a method, and every renderer that a node
is handed on the way stands at a definition of its method's chain, has the helpers of that
definition, and counts the methods entered around it.  What it enters by name is the most
derived definition, and what it enters by overriding is the next one of its chain; if there is
none, or if the limit of depth is reached, it fails.  Whatever is rendered there, the nodes go
on in the state that they asked from: a body enters methods only from its own state. -/
theorem rendering_dispatches {t : Template} {line : List Definition}
    (h : Template.Lineage t line) (host : Host Code) :
    (∀ name context serial, t.renderMethod host name context serial =
      (Renderer.start t).answer host context serial (.method name)) ∧
    ∀ {entered : Nat} {r : Renderer} {body : List Statement}, Rendering t entered r body →
      r.Sound t entered ∧ r.Dispatches t ∧
        (∀ (target : Target) (context : Context Code) (next : Plan) (serial : Nat),
          (target.plan context next).render host (Renderer.enter host r.levels) r serial =
            (r.answer host context serial target).followedBy fun _ =>
              next.render host (Renderer.enter host r.levels) r serial) ∧
        ∀ enter : Enter,
          (∀ (target : Target) (method : Method), target.find? r = some method →
            ∀ context serial, enter r method (target.position r) context serial =
              r.answer host context serial target) →
          ∀ context serial, renderAll host enter r context serial body =
            renderAll host (Renderer.enter host r.levels) r context serial body := by
  constructor
  · exact fun name context serial => t.renderMethod_eq_answer host name context serial
  · intro entered r body hr
    have hsound := hr.sound h
    refine ⟨hsound, hsound.dispatches h, r.render_plan host, fun enter henter context serial => ?_⟩
    refine renderAll_congr (fun target method hfind => ?_) body context serial
    funext context serial
    exact (henter target method hfind context serial).trans
      (Renderer.answer_of_find? host context serial hfind)

namespace SuperWitness

open Template

def library (helper : String) : Library :=
  Library.addHelper "h" (.string helper) (Library.addTag "super" Tag.super LineageWitness.library)

def superNode : Statement := .node fun context => .super context .done

/-- What a template defines that says a text around what it overrides. -/
def definition (name helper : String) (parent : Option Template) (body : List Statement) :
    Definition where
  name
  parent
  root := [Tag.callNode "a"]
  methods := [("a", body)]
  helpers := [("h", .string helper)]

def page : Definition := definition "page" "p" none [.text "1"]

def middle : Definition :=
  definition "middle" "m" (some (assemble page 16)) [.text "2", superNode]

def leaf : Definition :=
  definition "leaf" "l" (some (assemble middle 16)) [.text "3", superNode]

theorem lineage_page : Lineage (assemble page 16) [page] := by
  have htokens : tokens "\x7b%block a%\x7d1\x7b%endblock%\x7d" =
      lineTokens 0 [(.block, "block a"), (.text, "1"), (.block, "endblock")] := by
    decide +kernel
  have hdefine : define (LineageWitness.frame "page" []) (library "p")
      "\x7b%block a%\x7d1\x7b%endblock%\x7d" = .ok page :=
    define_of_tokens htokens (by rfl)
  exact .base 16 hdefine rfl

theorem lineage_middle : Lineage (assemble middle 16) [middle, page] := by
  have htokens : tokens
      "\x7b%extends page%\x7d\x7b%block a%\x7d2\x7b%super%\x7d\x7b%endblock%\x7d" =
      lineTokens 0 [(.block, "extends page"), (.block, "block a"), (.text, "2"), (.block, "super"),
        (.block, "endblock")] := by
    decide +kernel
  have hdefine : define (LineageWitness.frame "middle" [("page", assemble page 16)])
      (library "m") "\x7b%extends page%\x7d\x7b%block a%\x7d2\x7b%super%\x7d\x7b%endblock%\x7d" =
        .ok middle :=
    define_of_tokens htokens (by rfl)
  exact .extend 16 hdefine rfl lineage_page

theorem lineage_leaf : Lineage (assemble leaf 16) [leaf, middle, page] := by
  have htokens : tokens
      "\x7b%extends middle%\x7d\x7b%block a%\x7d3\x7b%super%\x7d\x7b%endblock%\x7d" =
      lineTokens 0 [(.block, "extends middle"), (.block, "block a"), (.text, "3"),
        (.block, "super"), (.block, "endblock")] := by
    decide +kernel
  have hdefine : define (LineageWitness.frame "leaf" [("middle", assemble middle 16)])
      (library "l") "\x7b%extends middle%\x7d\x7b%block a%\x7d3\x7b%super%\x7d\x7b%endblock%\x7d" =
        .ok leaf :=
    define_of_tokens htokens (by rfl)
  exact .extend 16 hdefine rfl lineage_middle

/-- The state of the definition in the middle, entered from the leaf, which was entered from
the top level of the page. -/
def middleState : Renderer := ⟨assemble leaf 16, "a", 1, [("h", .string "m")], 3⟩

theorem rendering_middle : Rendering (assemble leaf 16) 3 middleState [.text "2", superNode] := by
  have hstart : (Renderer.start (assemble leaf 16)).dispatch (.method rootName) =
      .ok (⟨assemble leaf 16, rootName, 0, page.helpers, 1⟩, page.root) := rfl
  have hcall : (Plan.method "a" {} .done).Reaches ((Target.method "a").plan {} .done) := .refl _
  have hleaf : Rendering (assemble leaf 16) 2 ⟨assemble leaf 16, "a", 0, leaf.helpers, 2⟩
      [.text "3", superNode] :=
    .enter (.method "a") (.start hstart) (List.mem_singleton_self _) hcall rfl
  have hsuper : (Plan.super {} .done).Reaches (Target.super.plan {} .done) := .refl _
  exact .enter .super hleaf (List.mem_cons_of_mem _ (List.mem_singleton_self superNode)) hsuper rfl

/-- From the middle the page is next, and there is nothing behind it. -/
theorem middleState_dispatches :
    Lineage (assemble leaf 16) [leaf, middle, page] ∧
      Rendering (assemble leaf 16) 3 middleState [.text "2", superNode] ∧
      middleState.Sound (assemble leaf 16) 3 ∧ middleState.Dispatches (assemble leaf 16) := by
  obtain ⟨hsound, hdispatches, -⟩ :=
    (rendering_dispatches lineage_leaf (Native.host 4)).2 rendering_middle
  exact ⟨lineage_leaf, rendering_middle, hsound, hdispatches⟩

example : (((assemble leaf 16).render (Native.host 4) {} 0).fragments) = ["3", "2", "1"] := by
  decide +kernel

end SuperWitness

end Stencil
