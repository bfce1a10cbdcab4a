/-
What reading does to its progress.  A relation that every single step keeps holds between the
progress before and after any reading, whatever the handlers of the tags ask for and however
deep the scopes nest.
-/
import Stencil.Proofs.Table
import Stencil.Template.Parser

namespace Stencil
namespace Template

/-- A relation between the progress before and after that the steps of reading keep. -/
structure Frame.Keeps (frame : Frame) (R : Progress → Progress → Prop) : Prop where
  refl : ∀ p, R p p
  trans : ∀ {p q r}, R p q → R q r → R p r
  token : ∀ p, R p (Reading.token? p).2
  emit : ∀ statement p, R p (p.emit statement)
  parent : ∀ t p, R p (Reading.parent t p).2
  load : ∀ path p, R p (Reading.load frame path p).2
  /-- Whatever is read in a scope of its own. -/
  scope : ∀ {p q}, R p.push q → R p q.pop
  /-- A method whose body could not be read. -/
  abandon : ∀ {name p q}, p.isTaken name = false → R { p with pending := name :: p.pending } q →
    R p { q with pending := q.pending.tail }
  /-- A method whose body has been read. -/
  define : ∀ {name p q} body, p.isTaken name = false →
    R { p with pending := name :: p.pending } q →
      R p { q with pending := q.pending.tail, methods := Table.insert name body q.methods }

namespace Reading

variable {α β : Type} {frame : Frame} {R : Progress → Progress → Prop}

/-- The relation holds between the progress before and after, errors included. -/
def Within (R : Progress → Progress → Prop) (read : Reading α) : Prop := ∀ p, R p (read p).2

theorem bind_ok {read : Reading α} {next : α → Reading β} {p q : Progress} {a : α}
    (h : read p = (.ok a, q)) : (read >>= next) p = next a q := by
  change (ExceptT.bindCont next (read p).1) (read p).2 = next a q
  rw [h]
  rfl

theorem bind_error {read : Reading α} {next : α → Reading β} {p q : Progress}
    {e : ParseError} (h : read p = (.error e, q)) : (read >>= next) p = (.error e, q) := by
  change (ExceptT.bindCont next (read p).1) (read p).2 = (.error e, q)
  rw [h]
  rfl

/-- Two steps succeed only if both do. -/
theorem ok_of_bind {read : Reading α} {next : α → Reading β} {p q : Progress} {b : β}
    (h : (read >>= next) p = (.ok b, q)) :
    ∃ a r, read p = (.ok a, r) ∧ next a r = (.ok b, q) := by
  rcases hread : read p with ⟨e | a, r⟩
  · rw [bind_error hread] at h
    cases h
  · rw [bind_ok hread] at h
    exact ⟨a, r, rfl, h⟩

/-- The error of two steps is the error of one of them. -/
theorem error_of_bind {read : Reading α} {next : α → Reading β} {p q : Progress} {e : ParseError}
    (h : (read >>= next) p = (.error e, q)) :
    read p = (.error e, q) ∨ ∃ a r, read p = (.ok a, r) ∧ next a r = (.error e, q) := by
  rcases hread : read p with ⟨e' | a, r⟩
  · rw [bind_error hread] at h
    cases h
    exact .inl rfl
  · rw [bind_ok hread] at h
    exact .inr ⟨a, r, rfl, h⟩

theorem Within.bind (hR : frame.Keeps R) {read : Reading α} {next : α → Reading β}
    (hread : Within R read) (hnext : ∀ a, Within R (next a)) : Within R (read >>= next) := by
  intro p
  rcases h : read p with ⟨e | a, q⟩
  · have hstep := hread p
    rw [h] at hstep
    rw [bind_error h]
    exact hstep
  · have hstep := hread p
    rw [h] at hstep
    rw [bind_ok h]
    exact hR.trans hstep (hnext a q)

theorem Within.ofResult (hR : frame.Keeps R) (result : Except ParseError α) :
    Within R (ofResult result) :=
  fun p => hR.refl p

theorem Within.pure (hR : frame.Keeps R) (a : α) : Within R (pure a : Reading α) :=
  fun p => hR.refl p

theorem Within.inScope (hR : frame.Keeps R) {read : Reading α} (h : Within R read) :
    Within R (inScope read) :=
  fun p => hR.scope (h p.push)

theorem Within.asMethod (hR : frame.Keeps R) {read : Reading (List Statement × String)}
    (h : Within R read) (name : String) : Within R (asMethod name read) := by
  intro p
  unfold Reading.asMethod
  split
  · exact hR.refl p
  · next htaken =>
      have htaken := Bool.eq_false_of_not_eq_true htaken
      have hbody := h { p with pending := name :: p.pending }
      rcases hread : read { p with pending := name :: p.pending } with ⟨e | ⟨body, closing⟩, q⟩
      · rw [hread] at hbody
        exact hR.abandon htaken hbody
      · rw [hread] at hbody
        exact hR.define body htaken hbody

theorem Within.run (hR : frame.Keeps R)
    {scope : List String → Reading (List Statement × String)}
    (hscope : ∀ ends, Within R (scope ends)) (program : TagProgram α) :
    Within R (run frame scope program) := by
  induction program with
  | done result => exact .ofResult hR result
  | look resume ih => exact fun p => ih _ p
  | emit statement next ih =>
      exact fun p => hR.trans (hR.emit statement p) (ih (p.emit statement))
  | parseUntil ends resume ih => exact fun p => hR.trans (hscope ends p) (ih _ _)
  | buildMethod name ends resume ih =>
      exact fun p => hR.trans (Within.asMethod hR (hscope ends) name p) (ih _ _)
  | setParent t resume ih => exact fun p => hR.trans (hR.parent t p) (ih _ _)

theorem Within.tag (hR : frame.Keeps R)
    {scope : List String → Reading (List Statement × String)}
    (hscope : ∀ ends, Within R (scope ends)) (name args : Excerpt) :
    Within R (tag frame scope name args) := by
  intro p
  unfold Reading.tag
  split
  · exact hR.refl p
  · next handler _ =>
      have hrun := Within.run hR hscope (handler args) p
      rcases h : Reading.run frame scope (handler args) p with ⟨e | ⟨_ | statement⟩, q⟩
      · rwa [h] at hrun
      · rwa [h] at hrun
      · rw [h] at hrun
        exact hR.trans hrun (hR.emit statement q)

theorem Within.handle (hR : frame.Keeps R)
    {scope : List String → Reading (List Statement × String)}
    (hscope : ∀ ends, Within R (scope ends)) (ends : List String) (token : Token) :
    Within R (handle frame scope ends token) := by
  unfold Reading.handle
  split
  · exact fun p => hR.emit _ p
  · exact .bind hR (fun p => hR.refl p) fun p =>
      .bind hR (.ofResult hR _) fun e q => hR.emit _ q
  · exact .pure hR none
  · exact .bind hR (hR.load _) fun _ => .pure hR none
  · dsimp only
    split
    · exact .pure hR _
    · exact .bind hR (.tag hR hscope _ _) fun _ => .pure hR none

theorem Within.atEnd (hR : frame.Keeps R) (ends : List String) : Within R (atEnd ends) := by
  intro p
  unfold Reading.atEnd
  split <;> exact hR.refl p

/-- The run: the induction is on the bound, which every nested scope lowers. -/
theorem Within.upTo (hR : frame.Keeps R) (bound : Nat) (ends : List String) :
    Within R (upTo frame bound ends) := by
  induction bound generalizing ends with
  | zero => exact .atEnd hR ends
  | succ bound ih =>
      unfold Reading.upTo
      refine .bind hR hR.token fun token => ?_
      split
      · exact .atEnd hR ends
      · refine .bind hR (.handle hR (fun ends => .inScope hR (ih ends)) ends _) fun closing => ?_
        split
        · exact .pure hR _
        · exact ih ends

end Reading

/-- What a definition takes from the progress at its end. -/
theorem related_of_define {frame : Frame} {R : Progress → Progress → Prop}
    (hR : frame.Keeps R) {library : Library} {source : String} {d : Definition}
    (h : define frame library source = .ok d) :
    ∃ p : Progress, R { tokens := tokens source, library } p ∧ d.parent = p.parent ∧
      d.methods = p.methods ∧ d.helpers = p.library.helpers := by
  unfold define at h
  have hread := Reading.Within.inScope hR
    (.upTo hR (tokens source).length []) { tokens := tokens source, library }
  dsimp only at h
  split at h
  · cases h
  · next root closing p hp =>
      cases h
      rw [hp] at hread
      exact ⟨p, hread, rfl, rfl, rfl⟩

/-- Methods with names of their own, none of them the reserved name. -/
structure WellNamed (methods : Table (List Statement)) : Prop where
  sorted : Table.Sorted methods
  unreserved : rootName ∉ Table.names methods

theorem WellNamed.insert {methods : Table (List Statement)} (h : WellNamed methods)
    {name : String} (hname : name ≠ rootName) (body : List Statement) :
    WellNamed (Table.insert name body methods) := by
  refine ⟨Table.sorted_insert name body h.sorted, fun hroot => ?_⟩
  rcases Table.mem_names_insert.mp hroot with heq | hold
  · exact hname heq.symm
  · exact h.unreserved hold

theorem Progress.ne_rootName_of_not_isTaken {p : Progress} {name : String}
    (h : p.isTaken name = false) : name ≠ rootName := by
  rintro rfl
  simp [isTaken] at h

theorem keeps_wellNamed (frame : Frame) :
    frame.Keeps fun p q => WellNamed p.methods → WellNamed q.methods where
  refl _ h := h
  trans hpq hqr h := hqr (hpq h)
  token p h := by
    unfold Reading.token?
    split <;> exact h
  emit statement p h := by
    unfold Progress.emit
    split <;> exact h
  parent t p h := by
    unfold Reading.parent
    split <;> exact h
  load path p h := by
    unfold Reading.load
    split <;> exact h
  scope hq h := hq h
  abandon _ hq h := hq h
  define body htaken hq h := (hq h).insert (Progress.ne_rootName_of_not_isTaken htaken) body

/-- No source and no handler defines a method twice or takes the reserved name. -/
theorem wellNamed_of_define {frame : Frame} {library : Library} {source : String}
    {d : Definition} (h : define frame library source = .ok d) : WellNamed d.methods := by
  obtain ⟨p, hp, -, hmethods, -⟩ := related_of_define (keeps_wellNamed frame) h
  rw [hmethods]
  exact hp ⟨List.Pairwise.nil, List.not_mem_nil⟩

end Template
end Stencil
