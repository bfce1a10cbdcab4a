/-
The limit of depth when a template is rendered.  A greater limit changes nothing unless the limit
is reached, and then it only goes on: what was rendered up to there is rendered all the same.
-/
import Stencil.Native
import Stencil.Proofs.Template.Blockless
import Stencil.Tag.Methods
import Stencil.Template.Render

namespace Stencil

/-- The template with another limit of depth. -/
def Template.withLimit (limit : Nat) (t : Template) : Template := { t with maxRenderDepth := limit }

namespace Rendered

/-- The second render gives what the first one gives, or the first one stopped at the limit of
depth and the second one gives at least as much. -/
def UpTo (limit : Nat) (a b : Rendered) : Prop :=
  a = b ∨ a.stop = some (.error (.renderDepth limit)) ∧ a.fragments <+: b.fragments

namespace UpTo

variable {limit : Nat} {a b : Rendered}

theorem refl (a : Rendered) : a.UpTo limit a := .inl rfl

/-- At the limit nothing has been rendered. -/
theorem reached (b : Rendered) : (Rendered.error (.renderDepth limit)).UpTo limit b :=
  .inr ⟨rfl, List.nil_prefix⟩

theorem prefix_followedBy (b : Rendered) (g : Unit → Rendered) :
    b.fragments <+: (b.followedBy g).fragments := by
  unfold followedBy
  split
  · exact List.prefix_rfl
  · exact List.prefix_append _ _

/-- What stopped at the limit stays behind; what did not goes on alike. -/
theorem followedBy {f g : Unit → Rendered} (h : a.UpTo limit b) (hfg : (f ()).UpTo limit (g ())) :
    (a.followedBy f).UpTo limit (b.followedBy g) := by
  rcases h with rfl | ⟨hstop, hprefix⟩
  · cases hstop : a.stop with
    | some halt =>
        rw [followedBy_of_stop hstop, followedBy_of_stop hstop]
        exact .refl a
    | none =>
        simp only [Rendered.followedBy, hstop]
        rcases hfg with heq | ⟨hstop', hprefix'⟩
        · rw [heq]
          exact .refl _
        · exact .inr ⟨hstop', (List.prefix_append_right_inj _).mpr hprefix'⟩
  · rw [followedBy_of_stop hstop]
    exact .inr ⟨hstop, hprefix.trans (prefix_followedBy b g)⟩

theorem items_eq (h : a.UpTo limit b) (hstop : a.stop ≠ some (.error (.renderDepth limit))) :
    b.items = a.items := by
  rcases h with rfl | ⟨hlimit, -⟩
  · rfl
  · exact absurd hlimit hstop

theorem prefix_items (h : a.UpTo limit b) : a.fragments.map .ok <+: b.items := by
  have hfragments : a.fragments <+: b.fragments := by
    rcases h with rfl | ⟨-, hprefix⟩
    · exact List.prefix_rfl
    · exact hprefix
  exact (hfragments.map _).trans (List.prefix_append _ _)

end UpTo

end Rendered

/-- The renderer of the same template with another limit. -/
def Renderer.withLimit (limit : Nat) (r : Renderer) : Renderer :=
  { r with template := r.template.withLimit limit }

section Deeper

variable {host : Host Code} {limit higher : Nat} {enter enter' : Enter} {r : Renderer}

mutual

/-- A plan sees nothing of the limit but what it enters: the same definitions are found, with the
same helpers. -/
theorem Plan.render_upTo
    (h : ∀ method position context serial, (enter r method position context serial).UpTo limit
      (enter' (r.withLimit higher) method position context serial)) :
    (plan : Plan) → (serial : Nat) →
      (plan.render host enter r serial).UpTo limit
        (plan.render host enter' (r.withLimit higher) serial)
  | .done, _ => by
      rw [Plan.render, Plan.render]
      exact .refl _
  | .fragment _ next, serial => by
      rw [Plan.render, Plan.render]
      exact .followedBy (.refl _) (Plan.render_upTo h next serial)
  | .fail _, _ => by
      rw [Plan.render, Plan.render]
      exact .refl _
  | .evaluate e context resume, serial => by
      rw [Plan.render, Plan.render]
      change Rendered.UpTo limit _ (match e.evaluate host context r.helpers serial with
        | .ok (value, serial) => _
        | .error (.error e) => _
        | .error .callLimit => _)
      cases e.evaluate host context r.helpers serial with
      | ok result => exact Plan.render_upTo h _ _
      | error halt =>
          cases halt with
          | error e => exact Plan.render_upTo h _ _
          | callLimit => exact .refl _
  | .statements body context next, serial => by
      rw [Plan.render, Plan.render]
      exact .followedBy (renderAll_upTo h body context serial) (Plan.render_upTo h next serial)
  | .method name context next, serial => by
      rw [Plan.render, Plan.render]
      change Rendered.UpTo limit _ (match r.template.method? name with
        | none => _
        | some method => _)
      cases r.template.method? name with
      | none => exact .refl _
      | some method => exact .followedBy (h _ _ _ _) (Plan.render_upTo h next serial)
  | .super context next, serial => by
      rw [Plan.render, Plan.render]
      change Rendered.UpTo limit _ (match r.overridden? with
        | none => _
        | some method => _)
      cases r.overridden? with
      | none => exact .refl _
      | some method => exact .followedBy (h _ _ _ _) (Plan.render_upTo h next serial)
  | .look resume, serial => by
      rw [Plan.render, Plan.render]
      exact Plan.render_upTo h (resume r.site) serial

theorem Statement.render_upTo
    (h : ∀ method position context serial, (enter r method position context serial).UpTo limit
      (enter' (r.withLimit higher) method position context serial)) :
    (statement : Statement) → (context : Context Code) → (serial : Nat) →
      (statement.render host enter r context serial).UpTo limit
        (statement.render host enter' (r.withLimit higher) context serial)
  | .text _, _, _ => by
      rw [Statement.render, Statement.render]
      exact .refl _
  | .expr _, _, _ => by
      rw [Statement.render, Statement.render]
      exact .refl _
  | .node plan, context, serial => by
      rw [Statement.render, Statement.render]
      exact Plan.render_upTo h (plan context) serial

theorem renderAll_upTo
    (h : ∀ method position context serial, (enter r method position context serial).UpTo limit
      (enter' (r.withLimit higher) method position context serial)) :
    (body : List Statement) → (context : Context Code) → (serial : Nat) →
      (renderAll host enter r context serial body).UpTo limit
        (renderAll host enter' (r.withLimit higher) context serial body)
  | [], _, _ => by
      rw [renderAll, renderAll]
      exact .refl _
  | statement :: rest, context, serial => by
      rw [renderAll, renderAll]
      exact .followedBy (Statement.render_upTo h statement context serial)
        (renderAll_upTo h rest context serial)

end

/-- The run: the induction is on the levels that the first render has left, of which the second
one has as many more as its limit is higher. -/
theorem Renderer.enter_upTo (host : Host Code) (higher more levels : Nat) :
    ∀ (r : Renderer) (method : Method) (position : Nat) (context : Context Code) (serial : Nat),
      (Renderer.enter host levels r method position context serial).UpTo r.template.maxRenderDepth
        (Renderer.enter host (levels + more) (r.withLimit higher) method position context
          serial) := by
  induction levels with
  | zero =>
      intro r method position context serial
      exact .reached _
  | succ levels ih =>
      intro r method position context serial
      rw [Nat.add_right_comm, Renderer.enter, Renderer.enter]
      exact renderAll_upTo (ih (r.inside method position)) method.body context serial

end Deeper

namespace Template

theorem renderMethod_upTo (t : Template) (host : Host Code) (name : String)
    (context : Context Code) (serial : Nat) {limit higher : Nat} (h : limit ≤ higher) :
    ((t.withLimit limit).renderMethod host name context serial).UpTo limit
      ((t.withLimit higher).renderMethod host name context serial) := by
  obtain ⟨more, rfl⟩ := Nat.exists_eq_add_of_le h
  exact Plan.render_upTo
    (fun method position context serial =>
      Renderer.enter_upTo host (limit + more) more limit (.start (t.withLimit limit)) method
        position context serial)
    (.method name context .done) serial

/-- A higher limit of depth only extends what is rendered.  A render that does not end at the
limit gives the same items, the error that it may end in included; one that does gives fragments
that are the first of those items that are given with the higher limit. -/
theorem renderMethod_extends_with_limit (t : Template) (host : Host Code) (name : String)
    (context : Context Code) (serial : Nat) {limit higher : Nat} (h : limit ≤ higher) :
    (((t.withLimit limit).renderMethod host name context serial).stop ≠
        some (.error (.renderDepth limit)) →
      ((t.withLimit higher).renderMethod host name context serial).items =
        ((t.withLimit limit).renderMethod host name context serial).items) ∧
    (((t.withLimit limit).renderMethod host name context serial).stop =
        some (.error (.renderDepth limit)) →
      ((t.withLimit limit).renderMethod host name context serial).fragments.map .ok <+:
        ((t.withLimit higher).renderMethod host name context serial).items) := by
  have hupTo := t.renderMethod_upTo host name context serial h
  exact ⟨hupTo.items_eq, fun _ => hupTo.prefix_items⟩

namespace RecursionWitness

/-- A template whose top level renders itself behind a dot. -/
def page : Template :=
  assemble ⟨"page", none, [.text ".", Tag.callNode rootName], [], []⟩ 8

theorem renderMethod_extends_recursion :
    2 ≤ 4 ∧
      ((page.withLimit 2).renderMethod (Native.host 4) rootName {} 0).stop =
        some (.error (.renderDepth 2)) ∧
      ((page.withLimit 2).renderMethod (Native.host 4) rootName {} 0).fragments = [".", "."] ∧
      ((page.withLimit 2).renderMethod (Native.host 4) rootName {} 0).fragments.map .ok <+:
        ((page.withLimit 4).renderMethod (Native.host 4) rootName {} 0).items := by
  have hstop : ((page.withLimit 2).renderMethod (Native.host 4) rootName {} 0).stop =
      some (.error (.renderDepth 2)) := by rfl
  have hlimit : 2 ≤ 4 := by decide
  exact ⟨hlimit, hstop, rfl,
    (page.renderMethod_extends_with_limit (Native.host 4) rootName {} 0 hlimit).2 hstop⟩

/-- With the higher limit two more dots come before the error. -/
example : ((page.withLimit 4).renderMethod (Native.host 4) rootName {} 0).items =
    [.ok ".", .ok ".", .ok ".", .ok ".", .error (.error (.renderDepth 4))] := by
  rfl

end RecursionWitness

end Template

end Stencil
