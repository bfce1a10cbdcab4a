/-
The methods of a template: a name is given a body once, whatever the handlers of the tags do.  The
check that the name is free stands in front of the body and the definition behind it; that nothing
in between takes the name is what the pending methods are for.
-/
import Mathlib.Logic.Relation
import Stencil.Proofs.Template.Current

namespace Stencil
namespace Template

section Handlers

variable {frame : Frame}

namespace Progress

/-- A name is free if it is not reserved, not defined and not that of a body being read. -/
theorem isTaken_eq_false_iff {p : Progress} {name : String} :
    p.isTaken name = false ↔
      name ≠ rootName ∧ Table.find? name p.methods = none ∧ name ∉ p.pending := by
  simp [isTaken, and_assoc]

/-- The methods that are defined keep their bodies. -/
def Extends (p q : Progress) : Prop :=
  ∀ name body, Table.find? name p.methods = some body → Table.find? name q.methods = some body

theorem Extends.refl (p : Progress) : p.Extends p := fun _ _ h => h

theorem Extends.trans {p q r : Progress} (h : p.Extends q) (h' : q.Extends r) : p.Extends r :=
  fun name body hp => h' name body (h name body hp)

theorem Extends.of_eq {p q : Progress} (h : q.methods = p.methods) : p.Extends q := by
  intro name body hp
  rwa [h]

theorem extends_define {p : Progress} {name : String} (h : Table.find? name p.methods = none)
    (body : List Statement) :
    p.Extends { p with methods := Table.insert name body p.methods } := by
  intro other found hfound
  have hne : other ≠ name := by
    rintro rfl
    rw [h] at hfound
    cases hfound
  exact (Table.find?_insert_of_ne hne body p.methods).trans hfound

/-- What reading does to the methods: those that are defined keep their bodies, and neither the
reserved name nor that of a body being read is defined. -/
structure Preserves (p q : Progress) : Prop where
  defined : p.Extends q
  undefined : ∀ {name}, name = rootName ∨ name ∈ p.pending →
    Table.find? name p.methods = none → Table.find? name q.methods = none
  pending : q.pending = p.pending

namespace Preserves

variable {p q r : Progress} {name : String}

theorem of_eq (hmethods : q.methods = p.methods) (hpending : q.pending = p.pending) :
    p.Preserves q where
  defined := .of_eq hmethods
  undefined _ hp := by rwa [hmethods]
  pending := hpending

theorem refl (p : Progress) : p.Preserves p := .of_eq rfl rfl

theorem trans (h : p.Preserves q) (h' : q.Preserves r) : p.Preserves r where
  defined := h.defined.trans h'.defined
  undefined hname hp := h'.undefined (h.pending ▸ hname) (h.undefined hname hp)
  pending := h'.pending.trans h.pending

/-- The name of a body is still undefined when the body has been read. -/
theorem find?_eq_none (hfree : p.isTaken name = false)
    (h : { p with pending := name :: p.pending }.Preserves q) :
    Table.find? name q.methods = none :=
  h.undefined (.inr List.mem_cons_self) (isTaken_eq_false_iff.mp hfree).2.1

theorem tail_pending (h : { p with pending := name :: p.pending }.Preserves q) :
    q.pending.tail = p.pending := by
  rw [h.pending]
  rfl

/-- A body that could not be read defines nothing itself. -/
theorem abandon (h : { p with pending := name :: p.pending }.Preserves q) :
    p.Preserves { q with pending := q.pending.tail } where
  defined := h.defined
  undefined hname hp := h.undefined (hname.imp_right (List.mem_cons_of_mem _)) hp
  pending := h.tail_pending

/-- A body that has been read defines its method, and no method is replaced. -/
theorem define (hfree : p.isTaken name = false)
    (h : { p with pending := name :: p.pending }.Preserves q) (body : List Statement) :
    p.Preserves { q with
      pending := q.pending.tail, methods := Table.insert name body q.methods } where
  defined := h.defined.trans (extends_define (h.find?_eq_none hfree) body)
  undefined := by
    intro other hother hp
    obtain ⟨hroot, -, hpending⟩ := isTaken_eq_false_iff.mp hfree
    have hne : other ≠ name := by
      rintro rfl
      exact hother.elim hroot hpending
    exact (Table.find?_insert_of_ne hne body q.methods).trans
      (h.undefined (hother.imp_right (List.mem_cons_of_mem _)) hp)
  pending := h.tail_pending

end Preserves

end Progress

theorem keeps_preserves (frame : Frame) : frame.Keeps Progress.Preserves where
  refl := .refl
  trans := .trans
  token p := by
    unfold Reading.token?
    split <;> exact .of_eq rfl rfl
  emit statement p := by
    unfold Progress.emit
    split <;> exact .of_eq rfl rfl
  parent t p := by
    unfold Reading.parent
    split <;> exact .of_eq rfl rfl
  load path p := by
    unfold Reading.load
    split <;> exact .of_eq rfl rfl
  scope h := ⟨h.defined, h.undefined, h.pending⟩
  abandon _ h := h.abandon
  define body hfree h := h.define hfree body

namespace Reading

variable {α : Type} {p q : Progress} {bound : Nat} {ends : List String} {name : String}

theorem preserves_upTo (frame : Frame) (bound : Nat) (ends : List String) (p : Progress) :
    p.Preserves (upTo frame bound ends p).2 :=
  Within.upTo (keeps_preserves frame) bound ends p

theorem preserves_nested (frame : Frame) (bound : Nat) (ends : List String) (p : Progress) :
    p.Preserves (nested frame bound ends p).2 :=
  Within.inScope (keeps_preserves frame) (preserves_upTo frame bound ends) p

theorem preserves_run (frame : Frame) (bound : Nat) (program : TagProgram α) (p : Progress) :
    p.Preserves (run frame (nested frame bound) program p).2 :=
  Within.run (keeps_preserves frame) (preserves_nested frame bound) program p

/-- A method that is taken is refused, and nothing is changed. -/
theorem asMethod_of_isTaken {read : Reading (List Statement × String)}
    (h : p.isTaken name = true) :
    asMethod name read p = (.error (.duplicateMethod name p.range), p) := by
  rw [asMethod, if_pos h]

/-- A method whose body cannot be read is not defined. -/
theorem asMethod_of_error {read : Reading (List Statement × String)} {e : ParseError}
    (h : p.isTaken name = false)
    (hread : read { p with pending := name :: p.pending } = (.error e, q)) :
    asMethod name read p = (.error e, { q with pending := q.pending.tail }) := by
  rw [asMethod, if_neg (Bool.eq_false_iff.mp h), hread]

theorem asMethod_of_ok {read : Reading (List Statement × String)} {body : List Statement}
    {closing : String} (h : p.isTaken name = false)
    (hread : read { p with pending := name :: p.pending } = (.ok (body, closing), q)) :
    asMethod name read p = (.ok closing, { q with
      pending := q.pending.tail, methods := Table.insert name body q.methods }) := by
  rw [asMethod, if_neg (Bool.eq_false_iff.mp h), hread]

/-- What a body defines stays defined when the body has become a method. -/
theorem extends_asMethod (h : p.isTaken name = false) :
    (nested frame bound ends { p with pending := name :: p.pending }).2.Extends
      (asMethod name (nested frame bound ends) p).2 := by
  have hbody := preserves_nested frame bound ends { p with pending := name :: p.pending }
  rcases hread : nested frame bound ends { p with pending := name :: p.pending }
    with ⟨e | ⟨body, closing⟩, q⟩
  · rw [asMethod_of_error h hread]
    exact .refl q
  · rw [hread] at hbody
    rw [asMethod_of_ok h hread]
    exact Progress.extends_define (hbody.find?_eq_none h) body

/-- The handler of a tag has read all that the reader has when it goes on. -/
theorem extends_handle {scope : List String → Reading (List Statement × String)} {token : Token}
    {handler : Handler} (hkind : token.kind = .block)
    (hends : ends.contains token.content.splitBlank.1.toString = false)
    (hhandler : p.library.tag? token.content.splitBlank.1.toString = some handler) :
    (run frame scope (handler token.content.splitBlank.2) p).2.Extends
      (handle frame scope ends token p).2 := by
  have hhandle : handle frame scope ends token p =
      (tag frame scope token.content.splitBlank.1 token.content.splitBlank.2 >>=
        fun _ => pure none : Reading (Option String)) p := by
    rw [handle, hkind]
    exact congrFun (if_neg (Bool.eq_false_iff.mp hends)) p
  rcases hrun : run frame scope (handler token.content.splitBlank.2) p with ⟨e | _ | statement, q⟩
  · have htag : tag frame scope token.content.splitBlank.1 token.content.splitBlank.2 p =
        (.error e, q) := by
      simp only [tag, hhandler, hrun]
    rw [hhandle, bind_error htag]
    exact .refl q
  · have htag : tag frame scope token.content.splitBlank.1 token.content.splitBlank.2 p =
        (.ok (), q) := by
      simp only [tag, hhandler, hrun]
    rw [hhandle, bind_ok htag]
    exact .refl q
  · have htag : tag frame scope token.content.splitBlank.1 token.content.splitBlank.2 p =
        (.ok (), q.emit statement) := by
      simp only [tag, hhandler, hrun]
    rw [hhandle, bind_ok htag]
    exact ((keeps_preserves frame).emit statement q).defined

/-- A scope has read all that it has when one of its tokens has been handled. -/
theorem extends_upTo {token : Token} (htoken : token? p = (.ok (some token), q)) :
    (handle frame (nested frame bound) ends token q).2.Extends
      (upTo frame (bound + 1) ends p).2 := by
  rw [upTo, bind_ok htoken]
  dsimp only
  rcases hhandle : handle frame (nested frame bound) ends token q with ⟨e | _ | closing, r⟩
  · rw [bind_error hhandle]
    exact .refl r
  · rw [bind_ok hhandle]
    exact (preserves_upTo frame bound ends r).defined
  · rw [bind_ok hhandle]
    exact .refl r

end Reading

namespace Point

/-- How far the reading has come. -/
def progress : Point → Progress
  | .reading _ _ p => p
  | .handling _ _ _ _ p => p

/-- A step over something that is read as a whole: the next point on the same level. -/
inductive Passes (frame : Frame) : Point → Point → Prop where
  | next {bound : Nat} {ends : List String} {p q r : Progress} {token : Token} :
      Reading.token? p = (.ok (some token), q) →
        Reading.handle frame (Reading.nested frame bound) ends token q = (.ok none, r) →
          Passes frame (.reading (bound + 1) ends p) (.reading bound ends r)
  | look {bound : Nat} {called p : Progress} {whole : TagProgram (Option Statement)}
      {resume : TagSite → TagProgram (Option Statement)} :
      Passes frame (.handling bound called whole (.look resume) p)
        (.handling bound called whole (resume (p.site frame)) p)
  | emit {bound : Nat} {called p : Progress} {whole next : TagProgram (Option Statement)}
      {statement : Statement} :
      Passes frame (.handling bound called whole (.emit statement next) p)
        (.handling bound called whole next (p.emit statement))
  | scope {bound : Nat} {called p q : Progress} {whole : TagProgram (Option Statement)}
      {ends : List String} {resume answer} :
      Reading.nested frame bound ends p = (answer, q) →
        Passes frame (.handling bound called whole (.parseUntil ends resume) p)
          (.handling bound called whole (resume answer) q)
  | method {bound : Nat} {called p q : Progress} {whole : TagProgram (Option Statement)}
      {name : String} {ends : List String} {resume answer} :
      Reading.asMethod name (Reading.nested frame bound ends) p = (answer, q) →
        Passes frame (.handling bound called whole (.buildMethod name ends resume) p)
          (.handling bound called whole (resume answer) q)
  | setParent {bound : Nat} {called p q : Progress} {whole : TagProgram (Option Statement)}
      {t : Template} {resume answer} :
      Reading.parent t p = (answer, q) →
        Passes frame (.handling bound called whole (.setParent t resume) p)
          (.handling bound called whole (resume answer) q)

/-- A step into something that is read as a whole: its first point. -/
inductive Enters (frame : Frame) : Point → Point → Prop where
  | handler {bound : Nat} {ends : List String} {p q : Progress} {token : Token}
      {handler : Handler} :
      Reading.token? p = (.ok (some token), q) → token.kind = .block →
        ends.contains token.content.splitBlank.1.toString = false →
          q.library.tag? token.content.splitBlank.1.toString = some handler →
            Enters frame (.reading (bound + 1) ends p)
              (.handling bound q (handler token.content.splitBlank.2)
                (handler token.content.splitBlank.2) q)
  | scope {bound : Nat} {called p : Progress} {whole : TagProgram (Option Statement)}
      {ends : List String} {resume} :
      Enters frame (.handling bound called whole (.parseUntil ends resume) p)
        (.reading bound ends p.push)
  | method {bound : Nat} {called p : Progress} {whole : TagProgram (Option Statement)}
      {name : String} {ends : List String} {resume} :
      p.isTaken name = false →
        Enters frame (.handling bound called whole (.buildMethod name ends resume) p)
          (.reading bound ends { p with pending := name :: p.pending }.push)

/-- The second point is the first or a later one inside of what is read there. -/
def Leads (frame : Frame) : Point → Point → Prop :=
  Relation.ReflTransGen fun a b => a.Passes frame b ∨ a.Enters frame b

/-- The second point is the first or a later one: somewhere on the way to it the reader has passed
what it entered on the way to the first. -/
def Precedes (frame : Frame) (first second : Point) : Prop :=
  first.Leads frame second ∨
    ∃ outer inside behind : Point, outer.Enters frame inside ∧ outer.Passes frame behind ∧
      inside.Leads frame first ∧ behind.Leads frame second

/-- The body of the method `name` is still being read. -/
def Encloses (frame : Frame) (start : Progress) (name : String) (point : Point) : Prop :=
  ∃ bound called whole ends resume p body,
    Visits frame start (.handling bound called whole (.buildMethod name ends resume) p) ∧
      Enters frame (.handling bound called whole (.buildMethod name ends resume) p) body ∧
        body.Leads frame point

variable {a b c : Point}

theorem Leads.trans (h : a.Leads frame b) (h' : b.Leads frame c) : a.Leads frame c :=
  Relation.ReflTransGen.trans h h'

theorem Passes.leads (h : a.Passes frame b) : a.Leads frame b := .single (.inl h)

theorem Enters.leads (h : a.Enters frame b) : a.Leads frame b := .single (.inr h)

/-- One step is all that can be made on the same level. -/
theorem Passes.unique (h : a.Passes frame b) (h' : a.Passes frame c) : b = c := by
  cases h with
  | next htoken hhandle =>
      cases h' with
      | next htoken' hhandle' =>
          cases htoken.symm.trans htoken'
          cases hhandle.symm.trans hhandle'
          rfl
  | look => cases h'; rfl
  | emit => cases h'; rfl
  | scope hread =>
      cases h' with
      | scope hread' => cases hread.symm.trans hread'; rfl
  | method hread =>
      cases h' with
      | method hread' => cases hread.symm.trans hread'; rfl
  | setParent hread =>
      cases h' with
      | setParent hread' => cases hread.symm.trans hread'; rfl

theorem Enters.unique (h : a.Enters frame b) (h' : a.Enters frame c) : b = c := by
  cases h with
  | handler htoken _ _ hhandler =>
      cases h' with
      | handler htoken' _ _ hhandler' =>
          cases htoken.symm.trans htoken'
          cases hhandler.symm.trans hhandler'
          rfl
  | scope => cases h'; rfl
  | method _ => cases h'; rfl

/-- Of two points that a point leads to one precedes the other. -/
theorem Leads.total (h : a.Leads frame b) (h' : a.Leads frame c) :
    b.Precedes frame c ∨ c.Precedes frame b := by
  induction h using Relation.ReflTransGen.head_induction_on with
  | refl => exact .inl (.inl h')
  | @head a a' hstep hrest ih =>
      rcases Relation.ReflTransGen.cases_head h' with rfl | ⟨a'', hstep', hrest'⟩
      · exact .inr (.inl (.head hstep hrest))
      · rcases hstep with hpasses | henters <;> rcases hstep' with hpasses' | henters'
        · cases hpasses.unique hpasses'
          exact ih hrest'
        · exact .inr (.inr ⟨a, a'', a', henters', hpasses, hrest', hrest⟩)
        · exact .inl (.inr ⟨a, a', a'', henters, hpasses', hrest, hrest'⟩)
        · cases henters.unique henters'
          exact ih hrest'

/-- A step on the same level preserves. -/
theorem Passes.preserves (h : a.Passes frame b) : a.progress.Preserves b.progress := by
  have hkeeps := keeps_preserves frame
  have hnested := Reading.preserves_nested frame
  cases h with
  | @next bound ends p q r token htoken hhandle =>
      have hfirst := hkeeps.token p
      have hrest := Reading.Within.handle hkeeps (hnested bound) ends token q
      rw [htoken] at hfirst
      rw [hhandle] at hrest
      exact hfirst.trans hrest
  | look => exact .refl _
  | emit => exact hkeeps.emit _ _
  | @scope bound _ p _ _ ends _ _ hread =>
      have hscope := hnested bound ends p
      rwa [hread] at hscope
  | @method bound _ p _ _ name ends _ _ hread =>
      have hmethod := Reading.Within.asMethod hkeeps (hnested bound ends) name p
      rwa [hread] at hmethod
  | @setParent _ _ p _ _ t _ _ hread =>
      have hparent := hkeeps.parent t p
      rwa [hread] at hparent

/-- A step inwards changes no method. -/
theorem Enters.methods_eq (h : a.Enters frame b) : b.progress.methods = a.progress.methods := by
  cases h with
  | @handler _ _ p _ _ _ htoken _ _ _ =>
      unfold Reading.token? at htoken
      split at htoken
      · cases htoken
      · cases htoken
        rfl
  | scope => rfl
  | method _ => rfl

theorem Leads.extends (h : a.Leads frame b) : a.progress.Extends b.progress := by
  induction h with
  | refl => exact .refl _
  | tail _ hstep ih =>
      rcases hstep with hpasses | henters
      · exact ih.trans hpasses.preserves.defined
      · exact ih.trans (.of_eq henters.methods_eq)

/-- What has been read when all is read that is read as a whole at the point: the rest of its
scope, or of its handler. -/
def finish (frame : Frame) : Point → Progress
  | .reading bound ends p => (Reading.upTo frame bound ends p).2
  | .handling bound _ _ rest p => (Reading.run frame (Reading.nested frame bound) rest p).2

theorem extends_finish (frame : Frame) (a : Point) : a.progress.Extends (a.finish frame) := by
  cases a with
  | reading bound ends p => exact (Reading.preserves_upTo frame bound ends p).defined
  | handling bound called whole rest p => exact (Reading.preserves_run frame bound rest p).defined

/-- A step on the same level goes on to the same finish. -/
theorem Passes.finish_eq (h : a.Passes frame b) : b.finish frame = a.finish frame := by
  cases h with
  | next htoken hhandle =>
      refine congrArg Prod.snd (Eq.symm ?_)
      rw [Reading.upTo, Reading.bind_ok htoken]
      exact Reading.bind_ok hhandle
  | look => rfl
  | emit => rfl
  | scope hread => simp only [finish, Reading.run, hread]
  | method hread => simp only [finish, Reading.run, hread]
  | setParent hread => simp only [finish, Reading.run, hread]

/-- When the reader passes what it could have entered, it has read all of it. -/
theorem Enters.extends_passes (h : a.Enters frame b) (h' : a.Passes frame c) :
    (b.finish frame).Extends c.progress := by
  cases h with
  | @handler bound ends _ _ _ _ htoken hkind hends hhandler =>
      cases h' with
      | next htoken' hhandle =>
          cases htoken.symm.trans htoken'
          have hextends : Progress.Extends _
              (Reading.handle frame (Reading.nested frame bound) ends _ _).2 :=
            Reading.extends_handle hkind hends hhandler
          rwa [hhandle] at hextends
  | scope =>
      cases h' with
      | scope hread =>
          cases hread
          exact .refl _
  | @method bound _ p _ name ends _ hfree =>
      cases h' with
      | method hread =>
          have hextends : (Reading.nested frame bound ends _).2.Extends
              (Reading.asMethod name (Reading.nested frame bound ends) p).2 :=
            Reading.extends_asMethod hfree
          rwa [hread] at hextends

/-- What is entered is read before the rest of what it stands in. -/
theorem Enters.extends_finish (h : a.Enters frame b) :
    (b.finish frame).Extends (a.finish frame) := by
  cases h with
  | @handler bound _ _ _ _ _ htoken hkind hends hhandler =>
      exact (Reading.extends_handle hkind hends hhandler).trans (Reading.extends_upTo htoken)
  | @scope bound called p whole ends resume =>
      have hpass : Passes frame (.handling bound called whole (.parseUntil ends resume) p) _ :=
        .scope rfl
      rw [← hpass.finish_eq]
      exact (Enters.scope.extends_passes hpass).trans (Point.extends_finish frame _)
  | @method bound called p whole name ends resume hfree =>
      have hpass :
          Passes frame (.handling bound called whole (.buildMethod name ends resume) p) _ :=
        .method rfl
      rw [← hpass.finish_eq]
      exact ((Enters.method hfree).extends_passes hpass).trans (Point.extends_finish frame _)

theorem Leads.extends_finish (h : a.Leads frame b) :
    b.progress.Extends (a.finish frame) := by
  induction h using Relation.ReflTransGen.head_induction_on with
  | refl => exact Point.extends_finish frame b
  | head hstep _ ih =>
      rcases hstep with hpasses | henters
      · rwa [hpasses.finish_eq] at ih
      · exact ih.trans henters.extends_finish

/-- Whatever is defined at a point is defined at every later one, with the same body. -/
theorem Precedes.extends (h : a.Precedes frame b) : a.progress.Extends b.progress := by
  rcases h with hleads | ⟨outer, inside, behind, henters, hpasses, hfirst, hsecond⟩
  · exact hleads.extends
  · exact hfirst.extends_finish.trans ((henters.extends_passes hpasses).trans hsecond.extends)

end Point

variable {start : Progress} {point : Point}

/-- The points that reading comes to are those that the first one leads to. -/
theorem visits_iff_leads :
    Visits frame start point ↔
      (Point.reading start.tokens.length [] start.push).Leads frame point := by
  constructor
  · intro h
    induction h with
    | start => exact .refl
    | next _ htoken hhandle ih => exact ih.trans (Point.Passes.next htoken hhandle).leads
    | call _ htoken hkind hends hhandler ih =>
        exact ih.trans (Point.Enters.handler htoken hkind hends hhandler).leads
    | look _ ih => exact ih.trans Point.Passes.look.leads
    | emit _ ih => exact ih.trans Point.Passes.emit.leads
    | scope _ ih => exact ih.trans Point.Enters.scope.leads
    | scopeRead _ hread ih => exact ih.trans (Point.Passes.scope hread).leads
    | method _ hfree ih => exact ih.trans (Point.Enters.method hfree).leads
    | methodRead _ hread ih => exact ih.trans (Point.Passes.method hread).leads
    | setParent _ hread ih => exact ih.trans (Point.Passes.setParent hread).leads
  · intro h
    induction h with
    | refl => exact .start
    | tail _ hstep ih =>
        rcases hstep with hpasses | henters
        · cases hpasses with
          | next htoken hhandle => exact ih.next htoken hhandle
          | look => exact ih.look
          | emit => exact ih.emit
          | scope hread => exact ih.scopeRead hread
          | method hread => exact ih.methodRead hread
          | setParent hread => exact ih.setParent hread
        · cases henters with
          | handler htoken hkind hends hhandler => exact ih.call htoken hkind hends hhandler
          | scope => exact ih.scope
          | method hfree => exact ih.method hfree

namespace Point

variable {a b : Point} {name : String}

/-- A step inwards makes a method pending only if it goes into its body. -/
theorem Enters.mem_pending_iff (h : a.Enters frame b) :
    name ∈ b.progress.pending ↔
      name ∈ a.progress.pending ∨
        ∃ bound called whole ends resume p,
          a = .handling bound called whole (.buildMethod name ends resume) p := by
  cases h with
  | @handler _ _ p _ _ _ htoken _ _ _ =>
      have hpending := ((keeps_preserves frame).token p).pending
      rw [htoken] at hpending
      simp only [progress, reduceCtorEq, exists_false, or_false]
      rw [hpending]
  | scope => simp [progress, Progress.push]
  | method _ => simp [progress, Progress.push, or_comm, eq_comm]

theorem Leads.pending_subset (h : a.Leads frame b) : a.progress.pending ⊆ b.progress.pending := by
  induction h with
  | refl => exact List.Subset.refl _
  | tail _ hstep ih =>
      rcases hstep with hpasses | henters
      · rwa [hpasses.preserves.pending]
      · exact fun name hname => henters.mem_pending_iff.mpr (.inl (ih hname))

/-- The pending methods are those whose bodies are being read. -/
theorem mem_pending_iff_encloses (hstart : start.pending = []) (h : Visits frame start point) :
    name ∈ point.progress.pending ↔ point.Encloses frame start name := by
  constructor
  · intro hname
    have hleads := visits_iff_leads.mp h
    clear h
    induction hleads with
    | refl =>
        rw [progress, Progress.push, hstart] at hname
        exact absurd hname List.not_mem_nil
    | @tail a b hleads hstep ih =>
        have hinside (h : a.Encloses frame start name) : b.Encloses frame start name := by
          obtain ⟨bound, called, whole, ends, resume, p, body, hvisits, henters, hbody⟩ := h
          exact ⟨bound, called, whole, ends, resume, p, body, hvisits, henters, hbody.tail hstep⟩
        rcases hstep with hpasses | henters
        · exact hinside (ih (hpasses.preserves.pending ▸ hname))
        · rcases henters.mem_pending_iff.mp hname with
            hold | ⟨bound, called, whole, ends, resume, p, rfl⟩
          · exact hinside (ih hold)
          · exact ⟨bound, called, whole, ends, resume, p, b, visits_iff_leads.mpr hleads, henters,
              .refl⟩
  · rintro ⟨bound, called, whole, ends, resume, p, body, -, henters, hbody⟩
    exact hbody.pending_subset
      (henters.mem_pending_iff.mpr (.inr ⟨bound, called, whole, ends, resume, p, rfl⟩))

end Point

/-- What comes of it when the handler that goes on at `point`, where the reading has come to `p`,
asks for the method `name`. -/
structure Point.DefinesOnce (frame : Frame) (start : Progress) (point : Point) (bound : Nat)
    (name : String) (ends : List String) (p : Progress) : Prop where
  /-- The method is read if its name is free and its body can be read up to one of the ends. -/
  succeeds_iff :
    (∃ closing q, Reading.asMethod name (Reading.nested frame bound ends) p =
        (.ok closing, q)) ↔
      name ≠ rootName ∧ Table.find? name p.methods = none ∧
        ¬ point.Encloses frame start name ∧
        ∃ body closing read q,
          Reading.nested frame bound ends { p with pending := name :: p.pending } =
            (.ok (body, closing), q) ∧
          p.tokens = read ++ q.tokens ∧ Reading.Closes ends read closing q
  /-- It is put among the methods that there are behind its body, none of which has its name. -/
  inserts : ∀ closing q,
    Reading.asMethod name (Reading.nested frame bound ends) p = (.ok closing, q) →
      ∃ body r,
        Reading.nested frame bound ends { p with pending := name :: p.pending } =
          (.ok (body, closing), r) ∧
        Table.find? name r.methods = none ∧
        q = { r with pending := p.pending, methods := Table.insert name body r.methods }
  /-- If its name is not free, nothing is read. -/
  refused : name = rootName ∨ (∃ body, Table.find? name p.methods = some body) ∨
      point.Encloses frame start name →
    Reading.asMethod name (Reading.nested frame bound ends) p =
      (.error (.duplicateMethod name p.range), p)
  /-- If its body cannot be read, it stays undefined. -/
  abandoned : ∀ e q, p.isTaken name = false →
    Reading.nested frame bound ends { p with pending := name :: p.pending } = (.error e, q) →
      Table.find? name q.methods = none ∧
        Reading.asMethod name (Reading.nested frame bound ends) p =
          (.error e, { q with pending := p.pending })

theorem isTaken_iff_encloses (hstart : start.pending = []) {name : String}
    (h : Visits frame start point) :
    point.progress.isTaken name = false ↔
      name ≠ rootName ∧ Table.find? name point.progress.methods = none ∧
        ¬ point.Encloses frame start name := by
  rw [Progress.isTaken_eq_false_iff, Point.mem_pending_iff_encloses hstart h]

theorem Visits.definesOnce (hstart : start.pending = []) {bound : Nat} {called p : Progress}
    {whole : TagProgram (Option Statement)} {name : String} {ends : List String} {resume}
    (h : Visits frame start (.handling bound called whole (.buildMethod name ends resume) p)) :
    (Point.handling bound called whole (.buildMethod name ends resume) p).DefinesOnce frame start
      bound name ends p := by
  have hfree : p.isTaken name = false ↔ _ := isTaken_iff_encloses hstart h
  have hbound : p.tokens.length ≤ bound := h.behind.1
  have hbody := Reading.preserves_nested frame bound ends { p with pending := name :: p.pending }
  have hinserts : ∀ closing q,
      Reading.asMethod name (Reading.nested frame bound ends) p = (.ok closing, q) →
        p.isTaken name = false ∧ ∃ body r,
          Reading.nested frame bound ends { p with pending := name :: p.pending } =
            (.ok (body, closing), r) ∧
          Table.find? name r.methods = none ∧
          q = { r with pending := p.pending, methods := Table.insert name body r.methods } := by
    intro closing q hmethod
    rcases htaken : p.isTaken name with _ | _
    · rcases hread : Reading.nested frame bound ends { p with pending := name :: p.pending }
        with ⟨e | ⟨body, found⟩, r⟩
      · rw [Reading.asMethod_of_error htaken hread] at hmethod
        cases hmethod
      · rw [hread] at hbody
        rw [Reading.asMethod_of_ok htaken hread, hbody.tail_pending] at hmethod
        cases hmethod
        exact ⟨rfl, body, r, rfl, hbody.find?_eq_none htaken, rfl⟩
    · rw [Reading.asMethod_of_isTaken htaken] at hmethod
      cases hmethod
  constructor
  · constructor
    · rintro ⟨closing, q, hmethod⟩
      obtain ⟨htaken, body, r, hread, -, -⟩ := hinserts closing q hmethod
      obtain ⟨hroot, hnone, hencloses⟩ := hfree.mp htaken
      obtain ⟨read, hreads, hcloses⟩ :=
        Reading.closes_nested (p := { p with pending := name :: p.pending }) hbound hread
      exact ⟨hroot, hnone, hencloses, body, closing, read, r, hread, hreads.tokens, hcloses⟩
    · rintro ⟨hroot, hnone, hencloses, body, closing, read, q, hread, -, -⟩
      exact ⟨closing, _, Reading.asMethod_of_ok (hfree.mpr ⟨hroot, hnone, hencloses⟩) hread⟩
  · exact fun closing q hmethod => (hinserts closing q hmethod).2
  · intro hname
    apply Reading.asMethod_of_isTaken
    by_contra htaken
    obtain ⟨hroot, hnone, hencloses⟩ := hfree.mp (Bool.eq_false_of_not_eq_true htaken)
    rcases hname with hname | ⟨body, hbody⟩ | hname
    · exact hroot hname
    · cases hnone.symm.trans hbody
    · exact hencloses hname
  · intro e q htaken hread
    rw [hread] at hbody
    refine ⟨hbody.find?_eq_none htaken, ?_⟩
    rw [← hbody.tail_pending]
    exact Reading.asMethod_of_error htaken hread

/-- The methods of a template are those that are defined at the end of its reading. -/
theorem methods_of_define {library : Library} {source : String} {d : Definition}
    (h : define frame library source = .ok d) :
    d.methods = (Reading.upTo frame (tokens source).length []
      (Progress.push { tokens := tokens source, library })).2.methods := by
  unfold define Reading.inScope at h
  dsimp only at h
  rcases hread : Reading.upTo frame (tokens source).length []
      (Progress.push { tokens := tokens source, library }) with ⟨e | closing, q⟩
  · rw [hread] at h
    cases h
  · rw [hread] at h
    cases h
    rfl

/-- A method is defined at most once, whatever the handlers do.  Reading goes from point to point,
of any two of which one comes first; what is defined at a point is defined with the same body at
every later point and at the end, and the reserved name never is.  A handler that asks for a method
gets it if the name is free and the body can be read; nothing that is defined is replaced, and what
is refused or cannot be read is not defined. -/
theorem method_defined_once (frame : Frame) (library : Library) (source : String) :
    let start : Progress := { tokens := tokens source, library }
    let ended := (Reading.upTo frame start.tokens.length [] start.push).2
    (∀ a b, Visits frame start a → Visits frame start b →
      a.Precedes frame b ∨ b.Precedes frame a) ∧
    (∀ a b : Point, a.Precedes frame b → a.progress.Extends b.progress) ∧
    (∀ a, Visits frame start a →
      a.progress.Extends ended ∧ Table.find? rootName a.progress.methods = none) ∧
    Table.find? rootName ended.methods = none ∧
    (∀ d, define frame library source = .ok d → d.methods = ended.methods) ∧
    ∀ {bound : Nat} {called p : Progress} {whole : TagProgram (Option Statement)}
      {name : String} {ends : List String} {resume},
      Visits frame start (.handling bound called whole (.buildMethod name ends resume) p) →
        (Point.handling bound called whole (.buildMethod name ends resume) p).DefinesOnce frame
          start bound name ends p := by
  intro start ended
  have hended : Table.find? rootName ended.methods = none :=
    (Reading.preserves_upTo frame start.tokens.length [] start.push).undefined (.inl rfl) rfl
  have hextends : ∀ a, Visits frame start a → a.progress.Extends ended :=
    fun a h => (visits_iff_leads.mp h).extends_finish
  refine ⟨?_, fun a b h => h.extends, ?_, hended, ?_, fun h => h.definesOnce rfl⟩
  · exact fun a b ha hb => (visits_iff_leads.mp ha).total (visits_iff_leads.mp hb)
  · refine fun a h => ⟨hextends a h, ?_⟩
    rcases hroot : Table.find? rootName a.progress.methods with _ | body
    · rfl
    · cases hended.symm.trans (hextends a h rootName body hroot)
  · exact fun d h => methods_of_define h

end Handlers

namespace TwiceExample

/-- Asks for the same method again, and goes on if it is refused. -/
def twice : Handler := fun _ => .buildMethod "a" ["end"] fun _ =>
  .buildMethod "a" ["end"] fun _ => .done (.ok none)

def source : String := "\x7b%twice%\x7dx\x7b%end%\x7dy"

def frame : Frame := ⟨"page", Resolver.ofTable [], []⟩

def library : Library := Library.addTag "twice" twice {}

def opening : Token where
  kind := .block
  content := ⟨"twice".toList, some 2⟩
  raw := ⟨"\x7b%twice%\x7d".toList, some 0⟩
  range := ⟨⟨1, 1⟩, ⟨1, 10⟩⟩

def inside : Token where
  kind := .text
  content := ⟨['x'], some 9⟩
  raw := ⟨['x'], some 9⟩
  range := ⟨⟨1, 10⟩, ⟨1, 11⟩⟩

def closer : Token where
  kind := .block
  content := ⟨"end".toList, some 12⟩
  raw := ⟨"\x7b%end%\x7d".toList, some 10⟩
  range := ⟨⟨1, 11⟩, ⟨1, 18⟩⟩

def last : Token where
  kind := .text
  content := ⟨['y'], some 17⟩
  raw := ⟨['y'], some 17⟩
  range := ⟨⟨1, 18⟩, ⟨1, 19⟩⟩

theorem tokens_source : tokens source = [opening, inside, closer, last] := by decide +kernel

/-- The first body is kept, and what would have been the second is read in the outer scope. -/
example : (define frame library source).map (fun d => (d.root, d.methods)) =
    .ok ([.text "y"], [("a", [.text "x"])]) := by
  rw [define_eq_defineTokens, tokens_source]
  rfl

/-- Where the handler is called. -/
def called : Progress where
  tokens := [inside, closer, last]
  library := library
  scopes := [[]]
  range := opening.range
  directive := opening.raw

/-- Where it asks again. -/
def again : Progress :=
  { called with
    tokens := [last]
    methods := [("a", [.text "x"])]
    range := closer.range
    directive := closer.raw }

theorem asMethod_called :
    Reading.asMethod "a" (Reading.nested frame 3 ["end"]) called = (.ok "end", again) := by
  rfl

def program : TagProgram (Option Statement) := twice opening.content.splitBlank.2

theorem visits_called : Visits frame { tokens := tokens source, library }
    (.handling 3 called program program called) := by
  rw [tokens_source]
  exact .call .start rfl rfl rfl rfl

theorem visits_again : Visits frame { tokens := tokens source, library }
    (.handling 3 called program (.buildMethod "a" ["end"] fun _ => .done (.ok none)) again) :=
  visits_called.methodRead asMethod_called

/-- The second method is refused, and the first one stays as it is. -/
theorem again_refused : Reading.asMethod "a" (Reading.nested frame 3 ["end"]) again =
    (.error (.duplicateMethod "a" closer.range), again) := by
  obtain ⟨-, -, -, -, -, honce⟩ := method_defined_once frame library source
  exact (honce visits_again).refused (.inr (.inl ⟨[.text "x"], rfl⟩))

end TwiceExample

end Template
end Stencil
