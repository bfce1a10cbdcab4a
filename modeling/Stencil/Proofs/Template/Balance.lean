/-
Balance: while the program of a tag handler runs there is an open scope, and when it returns
the scopes and the pending methods are those that it was called with, its own statements put
behind the others of its scope.
-/
import Stencil.Proofs.Template.Gathering
import Stencil.Proofs.Template.Tokenisation

namespace Stencil
namespace Template

variable {α : Type} {frame : Frame}

/-- The scopes that a handler can ask for. -/
abbrev Reading.nested (frame : Frame) (bound : Nat) (ends : List String) :
    Reading (List Statement × String) :=
  inScope (upTo frame bound ends)

abbrev Gathering.nested (frame : Frame) (bound : Nat) (ends : List String) :
    Gathering (List Statement × String) :=
  inScope (upTo frame bound ends)

/-- A point in the reading of a template. -/
inductive Point where
  /-- The reader goes on in the innermost scope. -/
  | reading (bound : Nat) (ends : List String) (p : Progress)
  /-- A handler, whose whole program was called at some progress, goes on with the rest. -/
  | handling (bound : Nat) (called : Progress) (whole rest : TagProgram (Option Statement))
      (p : Progress)

/-- The points that reading comes to. -/
inductive Visits (frame : Frame) (start : Progress) : Point → Prop where
  | start : Visits frame start (.reading start.tokens.length [] start.push)
  | next {bound : Nat} {ends : List String} {p q r : Progress} {token : Token} :
      Visits frame start (.reading (bound + 1) ends p) →
        Reading.token? p = (.ok (some token), q) →
          Reading.handle frame (Reading.nested frame bound) ends token q = (.ok none, r) →
            Visits frame start (.reading bound ends r)
  | call {bound : Nat} {ends : List String} {p q : Progress} {token : Token}
      {handler : Handler} :
      Visits frame start (.reading (bound + 1) ends p) →
        Reading.token? p = (.ok (some token), q) → token.kind = .block →
          ends.contains token.content.splitBlank.1.toString = false →
            q.library.tag? token.content.splitBlank.1.toString = some handler →
              Visits frame start
                (.handling bound q (handler token.content.splitBlank.2)
                  (handler token.content.splitBlank.2) q)
  | look {bound : Nat} {called p : Progress} {whole : TagProgram (Option Statement)}
      {resume : TagSite → TagProgram (Option Statement)} :
      Visits frame start (.handling bound called whole (.look resume) p) →
        Visits frame start (.handling bound called whole (resume (p.site frame)) p)
  | emit {bound : Nat} {called p : Progress} {whole next : TagProgram (Option Statement)}
      {statement : Statement} :
      Visits frame start (.handling bound called whole (.emit statement next) p) →
        Visits frame start (.handling bound called whole next (p.emit statement))
  | scope {bound : Nat} {called p : Progress} {whole : TagProgram (Option Statement)}
      {ends : List String} {resume} :
      Visits frame start (.handling bound called whole (.parseUntil ends resume) p) →
        Visits frame start (.reading bound ends p.push)
  | scopeRead {bound : Nat} {called p q : Progress} {whole : TagProgram (Option Statement)}
      {ends : List String} {resume answer} :
      Visits frame start (.handling bound called whole (.parseUntil ends resume) p) →
        Reading.nested frame bound ends p = (answer, q) →
          Visits frame start (.handling bound called whole (resume answer) q)
  | method {bound : Nat} {called p : Progress} {whole : TagProgram (Option Statement)}
      {name : String} {ends : List String} {resume} :
      Visits frame start (.handling bound called whole (.buildMethod name ends resume) p) →
        p.isTaken name = false →
          Visits frame start (.reading bound ends { p with pending := name :: p.pending }.push)
  | methodRead {bound : Nat} {called p q : Progress} {whole : TagProgram (Option Statement)}
      {name : String} {ends : List String} {resume answer} :
      Visits frame start (.handling bound called whole (.buildMethod name ends resume) p) →
        Reading.asMethod name (Reading.nested frame bound ends) p = (answer, q) →
          Visits frame start (.handling bound called whole (resume answer) q)
  | setParent {bound : Nat} {called p q : Progress} {whole : TagProgram (Option Statement)}
      {t : Template} {resume answer} :
      Visits frame start (.handling bound called whole (.setParent t resume) p) →
        Reading.parent t p = (answer, q) →
          Visits frame start (.handling bound called whole (resume answer) q)

/-- Inside the same scopes and methods, at least one scope. -/
structure Progress.Level (p q : Progress) : Prop where
  isOpen : q.scopes ≠ []
  outer : q.scopes.tail = p.scopes.tail
  pending : q.pending = p.pending

namespace Progress.Level

variable {p q r : Progress}

theorem refl (h : p.scopes ≠ []) : p.Level p := ⟨h, rfl, rfl⟩

theorem trans (h : p.Level q) (h' : q.Level r) : p.Level r :=
  ⟨h'.isOpen, h'.outer.trans h.outer, h'.pending.trans h.pending⟩

theorem length_scopes (h : p.Level q) (hp : p.scopes ≠ []) :
    q.scopes.length = p.scopes.length := by
  have hq := h.isOpen
  have htail := congrArg List.length h.outer
  rw [List.length_tail, List.length_tail] at htail
  have hp' := List.length_pos_iff.mpr hp
  have hq' := List.length_pos_iff.mpr hq
  omega

end Progress.Level

theorem Reading.Gathers.eq_of_scopes {read : Reading α} {gather : Gathering α}
    (h : Reading.Gathers read gather) {p : Progress} {scope : List Statement}
    {outer : List (List Statement)} (hscopes : p.scopes = scope :: outer) :
    read p = ((gather p.pending p.place).result,
      (gather p.pending p.place).place.within
        (((gather p.pending p.place).own.reverse ++ scope) :: outer) p.pending) := by
  have hread := h p.pending p.place scope outer
  rwa [← hscopes, Place.within_place] at hread

/-- Reading that gathers stays in its scope. -/
theorem Reading.Gathers.level {read : Reading α} {gather : Gathering α}
    (h : Reading.Gathers read gather) {p q : Progress} (hp : p.scopes ≠ [])
    {result : Except ParseError α} (hread : read p = (result, q)) : p.Level q := by
  obtain ⟨scope, outer, hscopes⟩ := List.exists_cons_of_ne_nil hp
  rw [h.eq_of_scopes hscopes] at hread
  cases hread
  exact ⟨List.cons_ne_nil _ _, by rw [hscopes]; rfl, rfl⟩

theorem Reading.gathers_nested (frame : Frame) (bound : Nat) (ends : List String) :
    Reading.Gathers (Reading.nested frame bound ends) (Gathering.nested frame bound ends) :=
  .inScope (.upTo bound ends)

/-- The invariant of reading: there is an open scope, and a handler that is running is on the
level that it was called on, and on the way to what its whole program comes to. -/
def Point.Sound (frame : Frame) : Point → Prop
  | .reading _ _ p => p.scopes ≠ []
  | .handling bound called whole rest p =>
      called.scopes ≠ [] ∧ called.Level p ∧
        Reading.run frame (Reading.nested frame bound) whole called =
          Reading.run frame (Reading.nested frame bound) rest p

/-- The steps of a handler keep the invariant. -/
theorem Point.Sound.step {bound : Nat} {called p q : Progress}
    {whole rest next : TagProgram (Option Statement)}
    (h : (Point.handling bound called whole rest p).Sound frame) (hlevel : p.Level q)
    (hrun : Reading.run frame (Reading.nested frame bound) rest p =
      Reading.run frame (Reading.nested frame bound) next q) :
    (Point.handling bound called whole next q).Sound frame :=
  ⟨h.1, h.2.1.trans hlevel, h.2.2.trans hrun⟩

theorem Visits.sound {start : Progress} {point : Point} (h : Visits frame start point) :
    point.Sound frame := by
  induction h with
  | start => exact List.cons_ne_nil _ _
  | next _ htoken hhandle ih =>
      have hq := (Reading.Gathers.step Reading.stackless_token?).level ih htoken
      exact ((Reading.Gathers.handle (Reading.gathers_nested frame _) _ _).level hq.isOpen
        hhandle).isOpen
  | call _ htoken _ _ _ ih =>
      have hq := (Reading.Gathers.step Reading.stackless_token?).level ih htoken
      exact ⟨hq.isOpen, .refl hq.isOpen, rfl⟩
  -- A handler goes on at the level that it was on, whether or not what it asked for failed.
  | look _ ih => exact ih.step (.refl ih.2.1.isOpen) rfl
  | emit _ ih => exact ih.step ((Reading.Gathers.emit _).level ih.2.1.isOpen rfl) rfl
  | scope _ _ => exact List.cons_ne_nil _ _
  | scopeRead _ hread ih =>
      refine ih.step ((Reading.gathers_nested frame _ _).level ih.2.1.isOpen hread) ?_
      simp only [Reading.run, hread]
  | method _ _ _ => exact List.cons_ne_nil _ _
  | @methodRead bound _ _ _ _ name ends _ _ _ hread ih =>
      have hgathers := (Reading.gathers_nested frame bound ends).asMethod name
      refine ih.step (hgathers.level ih.2.1.isOpen hread) ?_
      simp only [Reading.run, hread]
  | @setParent _ _ _ _ _ t _ _ _ hread ih =>
      have hgathers := Reading.Gathers.step (Reading.stackless_parent t)
      refine ih.step (hgathers.level ih.2.1.isOpen hread) ?_
      simp only [Reading.run, hread]

/-- A handler that returns leaves behind what its whole program gathers, on the level that it
was called on. -/
theorem Visits.returned {start : Progress} {bound : Nat} {called p : Progress}
    {whole : TagProgram (Option Statement)} {result : Except ParseError (Option Statement)}
    (h : Visits frame start (.handling bound called whole (.done result) p))
    {scope : List Statement} {outer : List (List Statement)}
    (hscopes : called.scopes = scope :: outer) :
    (result, p.scopes) =
      ((Gathering.run frame (Gathering.nested frame bound) whole called.pending
          called.place).result,
        ((Gathering.run frame (Gathering.nested frame bound) whole called.pending
          called.place).own.reverse ++ scope) :: outer) := by
  obtain ⟨-, -, hrun⟩ := h.sound
  have hgathers : Reading.Gathers (Reading.run frame (Reading.nested frame bound) whole)
      (Gathering.run frame (Gathering.nested frame bound) whole) :=
    .run (Reading.gathers_nested frame bound) whole
  rw [hgathers.eq_of_scopes hscopes] at hrun
  cases hrun
  rfl

/-- Reading is balanced, whatever the handlers do.  What a template defines is gathered from
its scopes, and so is every scope, every method and every tag at any depth: the statements of
a scope go into its answer in the order of the document, those of a handler behind the others
of the scope that its tag stands in, and an error leaves nothing else behind.  While a handler
runs a scope is open, and it returns with as many open scopes and the pending methods that it
was called with. -/
theorem reading_balanced (frame : Frame) (library : Library) (source : String) :
    define frame library source = Gathering.define frame library source ∧
      (∀ bound ends, Reading.Gathers (Reading.nested frame bound ends)
        (Gathering.nested frame bound ends)) ∧
      (∀ bound name ends, Reading.Gathers (Reading.asMethod name (Reading.nested frame bound ends))
        (Gathering.asMethod name (Gathering.nested frame bound ends))) ∧
      (∀ bound name args, Reading.Gathers (Reading.tag frame (Reading.nested frame bound) name args)
        (Gathering.tag frame (Gathering.nested frame bound) name args)) ∧
      ∀ {bound : Nat} {called p : Progress} {whole rest : TagProgram (Option Statement)},
        Visits frame { tokens := tokens source, library } (.handling bound called whole rest p) →
          p.scopes ≠ [] ∧
          ∀ result, rest = .done result →
            p.scopes.length = called.scopes.length ∧ p.pending = called.pending ∧
            ∃ scope outer, called.scopes = scope :: outer ∧
              (result, p.scopes) =
                ((Gathering.run frame (Gathering.nested frame bound) whole called.pending
                    called.place).result,
                  ((Gathering.run frame (Gathering.nested frame bound) whole called.pending
                    called.place).own.reverse ++ scope) :: outer) := by
  refine ⟨define_eq_gathering frame library source, Reading.gathers_nested frame, ?_, ?_, ?_⟩
  · exact fun bound name ends => (Reading.gathers_nested frame bound ends).asMethod name
  · exact fun bound name args => .tag (Reading.gathers_nested frame bound) name args
  · intro bound called p whole rest h
    obtain ⟨hcalled, hlevel, -⟩ := h.sound
    refine ⟨hlevel.isOpen, ?_⟩
    rintro result rfl
    obtain ⟨scope, outer, hscopes⟩ := List.exists_cons_of_ne_nil hcalled
    exact ⟨hlevel.length_scopes hcalled, hlevel.pending, scope, outer, hscopes,
      h.returned hscopes⟩

namespace RecoveryExample

/-- Reads a scope, and says so if it cannot be read. -/
def recover : Handler := fun _ => .parseUntil ["end"] fun
  | .ok _ => .done (.ok none)
  | .error _ => .done (.ok (some (.text "unread")))

/-- Nothing of a scope that could not be read is left behind. -/
example : (define ⟨"page", Resolver.ofTable [], []⟩ (Library.addTag "recover" recover {})
    "a\x7b%recover%\x7db\x7b%other%\x7dc").map (·.root) =
      .ok [.text "a", .text "unread", .text "c"] := by
  have htokens : tokens "a\x7b%recover%\x7db\x7b%other%\x7dc" = lineTokens 0
      [(.text, "a"), (.block, "recover"), (.text, "b"), (.block, "other"), (.text, "c")] := by
    decide +kernel
  rw [define_eq_defineTokens, htokens]
  rfl

end RecoveryExample

end Template
end Stencil
