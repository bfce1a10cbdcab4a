/-
Where the error of a template comes from: the reader refuses a directive, or the handler of a tag
fails by itself.
-/
import Stencil.Proofs.Template.Directive
import Stencil.Proofs.Template.Malformed

namespace Stencil

/-- The errors of a single directive: its tag is unknown, its library cannot be loaded, or its
expression cannot be read. -/
def ParseError.OfDirective : ParseError → Prop
  | .unknownTag .. | .load .. | .malformedExpression .. => True
  | _ => False

namespace Template

/-- The reader refuses the directive with an error. -/
inductive Token.Refused (resolver : Resolver) (t : Token) : ParseError → Prop where
  | unknownTag : t.kind = .block → Refused resolver t (.unknownTag t.tagName t.range)
  | load {cause : LoadError} : t.kind = .load → resolver t.content.toString = .error cause →
      Refused resolver t (.load cause t.range)
  | malformed {cause : ExprError} : t.kind = .var →
      Expression.compile? t.content.text = .error cause →
        Refused resolver t (.malformedExpression t.content.toString cause (t.rangeOf cause))

/-- From `p` on, the program of a handler comes to an error that it is not given. -/
inductive Invents {α : Type} (frame : Frame) (bound : Nat) (e : ParseError) :
    TagProgram α → Progress → Prop where
  | done {p : Progress} : Invents frame bound e (.done (.error e)) p
  | look {resume : TagSite → TagProgram α} {p : Progress} :
      Invents frame bound e (resume (p.site frame)) p → Invents frame bound e (.look resume) p
  | emit {statement : Statement} {next : TagProgram α} {p : Progress} :
      Invents frame bound e next (p.emit statement) →
        Invents frame bound e (.emit statement next) p
  | parseUntil {ends : List String} {resume : _ → TagProgram α} {answer} {p q : Progress} :
      Reading.nested frame bound ends p = (answer, q) → answer ≠ .error e →
        Invents frame bound e (resume answer) q →
          Invents frame bound e (.parseUntil ends resume) p
  | buildMethod {name : String} {ends : List String} {resume : _ → TagProgram α} {answer}
      {p q : Progress} :
      Reading.asMethod name (Reading.nested frame bound ends) p = (answer, q) →
        answer ≠ .error e → Invents frame bound e (resume answer) q →
          Invents frame bound e (.buildMethod name ends resume) p
  | setParent {t : Template} {resume : _ → TagProgram α} {answer} {p q : Progress} :
      Reading.parent t p = (answer, q) → answer ≠ .error e →
        Invents frame bound e (resume answer) q →
          Invents frame bound e (.setParent t resume) p

/-- Where an error comes from: the reader refuses one of the tokens, or a handler that it calls
invents the error. -/
inductive Origin (frame : Frame) (start : Progress) (e : ParseError) : Prop where
  | reader {t : Token} : t ∈ start.tokens → t.Refused frame.resolver e → Origin frame start e
  | handler {bound : Nat} {called : Progress} {whole : TagProgram (Option Statement)} :
      Visits frame start (.handling bound called whole whole called) →
        Invents frame bound e whole called → Origin frame start e

variable {frame : Frame} {start p q : Progress} {e : ParseError}

/-- Handlers are called for tags. -/
theorem Visits.calls_block {bound : Nat} {called : Progress}
    {whole rest : TagProgram (Option Statement)}
    (h : Visits frame start (.handling bound called whole rest p)) :
    ∃ t ∈ start.tokens, t.kind = .block := by
  generalize hpoint : Point.handling bound called whole rest p = point at h
  induction h generalizing bound called whole rest p with
  | start | next | scope | method => cases hpoint
  | @call bound ends p q token handler hvisits htoken hkind =>
      exact ⟨token, hvisits.token_mem htoken, hkind⟩
  | look _ ih | emit _ ih | scopeRead _ _ ih | methodRead _ _ ih | setParent _ _ ih => exact ih rfl

/-- An expression that cannot be read is refused where it stands. -/
theorem Token.Refused.of_expression {resolver : Resolver} {t : Token} (hkind : t.kind = .var)
    (hat : p.At t) (h : (p.site frame).expression t.content = .error e) : t.Refused resolver e := by
  unfold TagSite.expression at h
  rcases hcompile : Expression.compile? t.content.text with cause | expression
  · rw [hcompile] at h
    cases h
    rw [TagSite.malformed, Token.rangeOf_of_site hat.1 hat.2]
    exact .malformed hkind hcompile
  · rw [hcompile] at h
    cases h

theorem upTo_of_nested {bound : Nat} {ends : List String}
    (h : Reading.nested frame bound ends p = (.error e, q)) :
    ∃ r, Reading.upTo frame bound ends p.push = (.error e, r) := by
  unfold Reading.nested Reading.inScope at h
  rcases hread : Reading.upTo frame bound ends p.push with ⟨e' | closing, r⟩
  · rw [hread] at h
    cases h
    exact ⟨r, rfl⟩
  · rw [hread] at h
    cases h

theorem nested_of_asMethod (he : e.OfDirective) {bound : Nat} {name : String} {ends : List String}
    (h : Reading.asMethod name (Reading.nested frame bound ends) p = (.error e, q)) :
    p.isTaken name = false ∧ ∃ r, Reading.nested frame bound ends
      { p with pending := name :: p.pending } = (.error e, r) := by
  unfold Reading.asMethod at h
  split at h
  · cases h
    exact he.elim
  · next htaken =>
      refine ⟨Bool.eq_false_of_not_eq_true htaken, ?_⟩
      rcases hread : Reading.nested frame bound ends { p with pending := name :: p.pending } with
        ⟨e' | ⟨body, closing⟩, r⟩
      · rw [hread] at h
        cases h
        exact ⟨r, rfl⟩
      · rw [hread] at h
        cases h

/-- A handler fails with an error that it invents, or that a scope gives it. -/
theorem origin_of_run {bound : Nat} {called : Progress} {whole : TagProgram (Option Statement)}
    (hscope : ∀ {ends p q}, Visits frame start (.reading bound ends p) →
      Reading.upTo frame bound ends p = (.error e, q) → Origin frame start e)
    (he : e.OfDirective) (program : TagProgram (Option Statement))
    (hvisits : Visits frame start (.handling bound called whole program p))
    (hrun : Reading.run frame (Reading.nested frame bound) program p = (.error e, q)) :
    Origin frame start e ∨ Invents frame bound e program p := by
  induction program generalizing p with
  | done result =>
      cases hrun
      exact .inr .done
  | look resume ih =>
      rcases ih _ (.look hvisits) hrun with horigin | hinvents
      · exact .inl horigin
      · exact .inr (.look hinvents)
  | emit statement next ih =>
      rcases ih (.emit hvisits) hrun with horigin | hinvents
      · exact .inl horigin
      · exact .inr (.emit hinvents)
  | parseUntil ends resume ih =>
      rcases hread : Reading.nested frame bound ends p with ⟨answer, r⟩
      by_cases hgiven : answer = .error e
      · subst hgiven
        obtain ⟨r', hbody⟩ := upTo_of_nested hread
        exact .inl (hscope (.scope hvisits) hbody)
      · simp only [Reading.run, hread] at hrun
        rcases ih _ (.scopeRead hvisits hread) hrun with horigin | hinvents
        · exact .inl horigin
        · exact .inr (.parseUntil hread hgiven hinvents)
  | buildMethod name ends resume ih =>
      rcases hread : Reading.asMethod name (Reading.nested frame bound ends) p with ⟨answer, r⟩
      by_cases hgiven : answer = .error e
      · subst hgiven
        obtain ⟨hfree, r', hbody⟩ := nested_of_asMethod he hread
        obtain ⟨r'', hbody⟩ := upTo_of_nested hbody
        exact .inl (hscope (.method hvisits hfree) hbody)
      · simp only [Reading.run, hread] at hrun
        rcases ih _ (.methodRead hvisits hread) hrun with horigin | hinvents
        · exact .inl horigin
        · exact .inr (.buildMethod hread hgiven hinvents)
  | setParent t resume ih =>
      rcases hread : Reading.parent t p with ⟨answer, r⟩
      have hgiven : answer ≠ .error e := by
        rintro rfl
        unfold Reading.parent at hread
        split at hread
        · cases hread
          exact he.elim
        · cases hread
      simp only [Reading.run, hread] at hrun
      rcases ih _ (.setParent hvisits hread) hrun with horigin | hinvents
      · exact .inl horigin
      · exact .inr (.setParent hread hgiven hinvents)

/-- A tag is unknown, or its handler fails. -/
theorem origin_of_tag (he : e.OfDirective) {bound : Nat} {ends : List String} {t : Token}
    {r : Progress}
    (hscope : ∀ {ends p q}, Visits frame start (.reading bound ends p) →
      Reading.upTo frame bound ends p = (.error e, q) → Origin frame start e)
    (hvisits : Visits frame start (.reading (bound + 1) ends p))
    (htoken : Reading.token? p = (.ok (some t), r)) (hkind : t.kind = .block)
    (hopens : ends.contains t.tagName = false)
    (h : Reading.tag frame (Reading.nested frame bound) t.content.splitBlank.1
      t.content.splitBlank.2 r = (.error e, q)) : Origin frame start e := by
  unfold Reading.tag at h
  split at h
  · cases h
    rw [(token?_some htoken).2.1]
    exact .reader (hvisits.token_mem htoken) (.unknownTag hkind)
  · next handler hhandler =>
      have hcall := Visits.call hvisits htoken hkind hopens hhandler
      split at h
      · next hrun =>
          cases h
          rcases origin_of_run hscope he _ hcall hrun with horigin | hinvents
          · exact horigin
          · exact .handler hcall hinvents
      · cases h
      · cases h

/-- A token is refused by itself, or a handler that it calls fails. -/
theorem origin_of_handle (he : e.OfDirective) {bound : Nat} {ends : List String} {t : Token}
    {r : Progress}
    (hscope : ∀ {ends p q}, Visits frame start (.reading bound ends p) →
      Reading.upTo frame bound ends p = (.error e, q) → Origin frame start e)
    (hvisits : Visits frame start (.reading (bound + 1) ends p))
    (htoken : Reading.token? p = (.ok (some t), r))
    (h : Reading.handle frame (Reading.nested frame bound) ends t r = (.error e, q)) :
    Origin frame start e := by
  obtain ⟨-, hat⟩ := token?_some htoken
  have hmem := hvisits.token_mem htoken
  unfold Reading.handle at h
  cases hkind : t.kind with
  | text =>
      rw [hkind] at h
      cases h
  | comment =>
      rw [hkind] at h
      cases h
  | var =>
      rw [hkind] at h
      obtain ⟨_, r', hget, hread⟩ := (Reading.error_of_bind h).resolve_left nofun
      cases hget
      rcases Reading.error_of_bind hread with hexpression | ⟨_, _, -, hemit⟩
      · exact .reader hmem (.of_expression hkind hat (congrArg Prod.fst hexpression))
      · cases hemit
  | load =>
      rw [hkind] at h
      rcases Reading.error_of_bind h with hload | ⟨_, _, -, hend⟩
      · unfold Reading.load at hload
        split at hload
        · next cause hpath =>
            cases hload
            rw [hat.1]
            exact .reader hmem (.load hkind hpath)
        · cases hload
      · cases hend
  | block =>
      rw [hkind] at h
      dsimp only at h
      split at h
      · cases h
      · next hopens =>
          rcases Reading.error_of_bind h with htag | ⟨_, _, -, hend⟩
          · exact origin_of_tag he hscope hvisits htoken hkind
              (Bool.eq_false_of_not_eq_true hopens) htag
          · cases hend

/-- The induction is on the bound, which the scopes that a handler reads lower. -/
theorem origin_of_upTo (he : e.OfDirective) {bound : Nat} {ends : List String}
    (hvisits : Visits frame start (.reading bound ends p))
    (h : Reading.upTo frame bound ends p = (.error e, q)) : Origin frame start e := by
  have hend : ∀ {ends p q}, Reading.atEnd ends p ≠ (.error e, q) := by
    intro ends p q hend
    unfold Reading.atEnd at hend
    split at hend
    · cases hend
    · cases hend
      exact he.elim
  induction bound generalizing p q ends with
  | zero => exact absurd h hend
  | succ bound ih =>
      rcases Reading.error_of_bind h with htoken | ⟨token, r, htoken, hread⟩
      · unfold Reading.token? at htoken
        split at htoken <;> cases htoken
      cases token with
      | none => exact absurd hread hend
      | some t =>
          rcases Reading.error_of_bind hread with hhandle | ⟨closing, s, hhandle, hrest⟩
          · exact origin_of_handle he ih hvisits htoken hhandle
          · cases closing with
            | none => exact ih (.next hvisits htoken hhandle) hrest
            | some closing => cases hrest

/-- An error of a directive that a template fails with has an origin. -/
theorem origin_of_define {library : Library} {source : String} (he : e.OfDirective)
    (h : define frame library source = .error e) :
    Origin frame { tokens := tokens source, library } e := by
  unfold define at h
  dsimp only at h
  split at h
  · next e' p hread =>
      cases h
      obtain ⟨q, hupTo⟩ := upTo_of_nested hread
      exact origin_of_upTo he .start hupTo
  · cases h

end Template
end Stencil
