/-
Two readings side by side.  The tokens of the one are those of the other at corresponding places,
and perhaps some comments between them.  If no tag looks where it is, both readings come to the
same: the induction is on the bound of the reading with the comments, and carries that the
readings are at corresponding places after every step.
-/
import Stencil.Proofs.Tag.Relocation
import Stencil.Proofs.Template.Directive

namespace Stencil

namespace Template

theorem Place.length_behind {place : Place} {t : Token} {rest : List Token}
    (h : place.tokens = t :: rest) : (place.behind t rest).tokens.length < place.tokens.length := by
  rw [h]
  exact Nat.lt_succ_self _

theorem Gathering.length_tokens_parent (t : Template) (pending : List String)
    (place : Place) :
    (step (Reading.parent t) pending place).place.tokens.length = place.tokens.length := by
  unfold step Reading.parent
  cases (place.within [] pending).parent.isSome <;> rfl

end Template

namespace Relocation

open Template

variable {α β : Type} {rel : Relocation}

/-- The same token at corresponding places. -/
structure Counterparts (rel : Relocation) (t t' : Token) : Prop where
  kind : t'.kind = t.kind
  content : t'.content = t.content.shift rel.offset
  here : rel.here t.range t.raw t'.range t'.raw

/-- The same tokens but for some comments, which change no place that matters. -/
inductive Streams (rel : Relocation) : List Token → List Token → Prop where
  | nil : Streams rel [] []
  | cons {t t' : Token} {ts ts' : List Token} :
      rel.Counterparts t t' → Streams rel ts ts' → Streams rel (t :: ts) (t' :: ts')
  | comment {t : Token} {ts ts' : List Token} :
      t.kind = .comment →
      (∀ {r d r' d'}, rel.here r d r' d' → rel.here t.range t.raw r' d') →
      Streams rel ts ts' → Streams rel (t :: ts) ts'

/-- How far the two readings have come. -/
structure Places (rel : Relocation) (place place' : Place) : Prop where
  tokens : rel.Streams place.tokens place'.tokens
  here : rel.here place.range place.directive place'.range place'.directive
  library : place'.library = place.library
  methods : place'.methods = place.methods
  parent : place'.parent = place.parent
  relocatable : place.library.Relocatable rel

/-- What the two readings of a stretch give, and what it costs them. -/
structure Outcomes (rel : Relocation) (ends : List String) (place place' : Place)
    (gathered gathered' : Gathered α) : Prop where
  result : rel.Results gathered.result gathered'.result
  own : gathered'.own = gathered.own
  places : rel.Places gathered.place gathered'.place
  left : Costs ends gathered.result place.tokens.length gathered.place.tokens.length
  right : Costs ends gathered'.result place'.tokens.length gathered'.place.tokens.length

/-- The two ways to read come to the same as long as no more than `left` and `right` tokens are
left. -/
def Gatherings (rel : Relocation) (left right : Nat) (ends : List String)
    (gather gather' : Gathering α) : Prop :=
  ∀ pending place place', rel.Places place place' →
    place.tokens.length ≤ left → place'.tokens.length ≤ right →
      rel.Outcomes ends place place' (gather pending place) (gather' pending place')

namespace Outcomes

variable {ends pending : List String} {place place' : Place} {gather gather' : Gathering α}

/-- A step that reads no token. -/
theorem stay {result result' : Except ParseError α} (hresult : rel.Results result result')
    (own : List Statement) {next next' : Place} (hplace : rel.Places next next')
    (hleft : next.tokens = place.tokens) (hright : next'.tokens = place'.tokens) :
    rel.Outcomes [] place place' ⟨result, own, next⟩ ⟨result', own, next'⟩ where
  result := hresult
  own := rfl
  places := hplace
  left := .of_le (Nat.le_of_eq (congrArg List.length hleft))
  right := .of_le (Nat.le_of_eq (congrArg List.length hright))

/-- An error that is made where the readings stand. -/
theorem fail {e e' : ParseError} (he : e' = e.at e'.range) (hrange : rel.range e.range e'.range)
    (hplaces : rel.Places place place') :
    rel.Outcomes ends place place' (⟨.error e, [], place⟩ : Gathered α)
      ⟨.error e', [], place'⟩ where
  result := by
    rw [he]
    exact .error hrange
  own := rfl
  places := hplaces
  left := .of_error (Nat.le_refl _)
  right := .of_error (Nat.le_refl _)

theorem answer {next next' : Except ParseError α → Gathering β}
    (h : rel.Outcomes ends place place' (gather pending place) (gather' pending place'))
    (hnext : rel.Outcomes [] (gather pending place).place (gather' pending place').place
      (next (gather pending place).result pending (gather pending place).place)
      (next' (gather' pending place').result pending (gather' pending place').place)) :
    rel.Outcomes [] place place' (gather.attempt.bind next pending place)
      (gather'.attempt.bind next' pending place') where
  result := hnext.result
  own := congrArg₂ (· ++ ·) h.own hnext.own
  places := hnext.places
  left := .of_le (Nat.le_trans hnext.left.1 h.left.1)
  right := .of_le (Nat.le_trans hnext.right.1 h.right.1)

theorem bind {next next' : α → Gathering β}
    (h : rel.Outcomes [] place place' (gather pending place) (gather' pending place'))
    (hnext : ∀ a, rel.Outcomes [] (gather pending place).place (gather' pending place').place
      (next a pending (gather pending place).place)
      (next' a pending (gather' pending place').place)) :
    rel.Outcomes [] place place' (gather.bind next pending place)
      (gather'.bind next' pending place') := by
  obtain ⟨hresult, hown, hplace, hleft, hright⟩ := h
  rcases hg : gather pending place with ⟨result, own, here⟩
  rcases hg' : gather' pending place' with ⟨result', own', here'⟩
  rw [hg, hg'] at hresult hown hplace
  rw [hg] at hleft
  rw [hg'] at hright
  simp only [hg, hg'] at hnext
  obtain rfl : own' = own := hown
  cases hresult with
  | ok a =>
      obtain ⟨hresult, hown, hlast, hleft', hright'⟩ := hnext a
      rw [Gathering.bind_of_ok hg, Gathering.bind_of_ok hg', hown]
      exact ⟨hresult, rfl, hlast, .of_le (Nat.le_trans hleft'.1 hleft.1),
        .of_le (Nat.le_trans hright'.1 hright.1)⟩
  | error hrange =>
      rw [Gathering.bind_of_error hg, Gathering.bind_of_error hg']
      exact ⟨.error hrange, rfl, hplace, .of_le hleft.1, .of_le hright.1⟩

/-- A step behind a token that was read first. -/
theorem behind {t t' : Token} {rest rest' : List Token} {gathered gathered' : Gathered α}
    (ht : place.tokens = t :: rest) (ht' : place'.tokens = t' :: rest')
    (h : rel.Outcomes [] (place.behind t rest) (place'.behind t' rest') gathered gathered') :
    rel.Outcomes ends place place' gathered gathered' :=
  { h with
    left := .of_lt (Nat.lt_of_le_of_lt h.left.1 (Place.length_behind ht))
    right := .of_lt (Nat.lt_of_le_of_lt h.right.1 (Place.length_behind ht')) }

theorem free {gathered gathered' : Gathered α}
    (h : rel.Outcomes ends place place' gathered gathered') :
    rel.Outcomes [] place place' gathered gathered' :=
  { h with left := .of_le h.left.1, right := .of_le h.right.1 }

end Outcomes

namespace Places

variable {place place' : Place}

theorem sites (h : rel.Places place place') (frame : Frame) :
    rel.Sites (place.site frame) (place'.site frame) where
  same := by
    change TagSite.mk _ _ _ _ _ _ _ _ = TagSite.mk _ _ _ _ _ _ _ _
    simp only [Place.within, h.library, h.parent]
    rfl
  here := h.here

end Places

namespace Gatherings

variable {frame : Frame} {left right : Nat} {ends : List String}
  {scope scope' : List String → Gathering (List Statement × String)}

theorem ofResult {result result' : Except ParseError α} (h : rel.Results result result') :
    rel.Gatherings left right [] (Gathering.ofResult result) (Gathering.ofResult result') :=
  fun _ _ _ hplaces _ _ => .stay h [] hplaces rfl rfl

theorem emit (statement : Statement) :
    rel.Gatherings left right [] (Gathering.emit statement) (Gathering.emit statement) :=
  fun _ _ _ hplaces _ _ => .stay (.ok ()) [statement] hplaces rfl rfl

theorem bind {gather gather' : Gathering α} {next next' : α → Gathering β}
    (h : rel.Gatherings left right [] gather gather')
    (hnext : ∀ a, rel.Gatherings left right [] (next a) (next' a)) :
    rel.Gatherings left right [] (gather.bind next) (gather'.bind next') := by
  intro pending place place' hplaces hleft hright
  have hfirst := h pending place place' hplaces hleft hright
  exact hfirst.bind fun a => hnext a _ _ _ hfirst.places (Nat.le_trans hfirst.left.1 hleft)
    (Nat.le_trans hfirst.right.1 hright)

theorem look {next next' : TagSite → Gathering α}
    (hnext : ∀ site site', rel.Sites site site' →
      rel.Gatherings left right [] (next site) (next' site')) :
    rel.Gatherings left right [] ((Gathering.look frame).bind next)
      ((Gathering.look frame).bind next') :=
  fun _ _ _ hplaces hleft hright =>
    hnext _ _ (hplaces.sites frame) _ _ _ hplaces hleft hright

theorem load (hresolver : frame.resolver.Relocatable rel) (path : String) :
    rel.Gatherings left right [] (Gathering.step (Reading.load frame path))
      (Gathering.step (Reading.load frame path)) := by
  intro pending place place' hplaces hleft hright
  unfold Gathering.step Reading.load
  cases hpath : frame.resolver path with
  | error cause =>
      exact .fail (e := .load cause place.range) rfl (rel.range_of_here hplaces.here) hplaces
  | ok library =>
      refine .stay (.ok ()) [] ?_ rfl rfl
      exact
        { hplaces with
          library := congrArg (Library.merge · library) hplaces.library
          relocatable := hplaces.relocatable.merge (hresolver path library hpath) }

theorem parent (t : Template) :
    rel.Gatherings left right [] (Gathering.step (Reading.parent t))
      (Gathering.step (Reading.parent t)) := by
  intro pending place place' hplaces hleft hright
  have hparent : (place'.within [] pending).parent = (place.within [] pending).parent :=
    hplaces.parent
  unfold Gathering.step Reading.parent
  rw [hparent]
  cases (place.within [] pending).parent.isSome with
  | true =>
      exact .fail (e := .parentAlreadySet place.range) rfl (rel.range_of_here hplaces.here) hplaces
  | false => exact .stay (.ok ()) [] { hplaces with parent := rfl } rfl rfl

theorem atEnd (ends : List String) :
    rel.Gatherings left right ends (Gathering.step (Reading.atEnd ends))
      (Gathering.step (Reading.atEnd ends)) := by
  intro pending place place' hplaces hleft hright
  cases ends with
  | nil => exact .stay (.ok "") [] hplaces rfl rfl
  | cons closing more =>
      exact .fail (e := .unterminatedBlock (closing :: more) ⟨place.range.stop, place.range.stop⟩)
        rfl (rel.stop_of_here hplaces.here) hplaces

theorem free {gather gather' : Gathering α} (h : rel.Gatherings left right ends gather gather') :
    rel.Gatherings left right [] gather gather' :=
  fun pending place place' hplaces hleft hright =>
    (h pending place place' hplaces hleft hright).free

theorem inScope {gather gather' : Gathering α} (h : rel.Gatherings left right ends gather gather') :
    rel.Gatherings left right ends gather.inScope gather'.inScope := by
  intro pending place place' hplaces hleft hright
  obtain ⟨hresult, hown, hplace, hcost, hcost'⟩ := h pending place place' hplaces hleft hright
  unfold Gathering.inScope
  dsimp only
  rw [hown]
  exact ⟨hresult.map _, rfl, hplace, hcost.map _, hcost'.map _⟩

theorem asMethod {gather gather' : Gathering (List Statement × String)}
    (h : rel.Gatherings left right ends gather gather') (name : String) :
    rel.Gatherings left right ends (Gathering.asMethod name gather)
      (Gathering.asMethod name gather') := by
  intro pending place place' hplaces hleft hright
  have htaken : (place'.within [] pending).isTaken name =
      (place.within [] pending).isTaken name := by
    simp only [Progress.isTaken, Place.within, hplaces.methods]
  have hbody := h (name :: pending) place place' hplaces hleft hright
  unfold Gathering.asMethod
  rw [htaken]
  by_cases hname : (place.within [] pending).isTaken name
  · rw [if_pos hname, if_pos hname]
    exact .fail (e := .duplicateMethod name place.range) rfl (rel.range_of_here hplaces.here)
      hplaces
  · rw [if_neg hname, if_neg hname]
    rcases hread : gather (name :: pending) place with ⟨result, own, last⟩
    rcases hread' : gather' (name :: pending) place' with ⟨result', own', last'⟩
    rw [hread, hread'] at hbody
    obtain ⟨hresult, hown, hplace, hcost, hcost'⟩ := hbody
    obtain rfl : own' = own := hown
    cases hresult with
    | error hrange => exact ⟨.error hrange, rfl, hplace, .of_error hcost.1, .of_error hcost'.1⟩
    | ok answer =>
        obtain ⟨body, closing⟩ := answer
        have hmethods : Table.insert name body last'.methods =
            Table.insert name body last.methods := congrArg _ hplace.methods
        exact ⟨.ok closing, rfl, { hplace with methods := hmethods },
          hcost.of_ok fun _ _ => ⟨_, rfl⟩, hcost'.of_ok fun _ _ => ⟨_, rfl⟩⟩

end Gatherings

section Run

variable {frame : Frame} {left right : Nat}
  {scope scope' : List String → Gathering (List Statement × String)}

/-- The program of a handler: the induction is on the pair of programs. -/
theorem Outcomes.run
    (hscope : ∀ ends, rel.Gatherings left right ends (scope ends) (scope' ends))
    {before before' : Nat} {program program' : TagProgram α}
    (h : rel.Programs before before' program program') {pending : List String}
    {place place' : Place} (hplaces : rel.Places place place')
    (hbefore : place.tokens.length = before) (hbefore' : place'.tokens.length = before')
    (hleft : before ≤ left) (hright : before' ≤ right) :
    rel.Outcomes [] place place' (Gathering.run frame scope program pending place)
      (Gathering.run frame scope' program' pending place') := by
  induction h generalizing place place' with
  | done hresult => exact .stay hresult [] hplaces rfl rfl
  | look _ ih =>
      exact ih _ _ (hplaces.sites frame) hbefore hbefore' hplaces hbefore hbefore' hleft hright
  | emit statement _ ih =>
      have hemit : rel.Outcomes [] place place' (Gathering.emit statement pending place)
          (Gathering.emit statement pending place') :=
        .stay (.ok ()) [statement] hplaces rfl rfl
      exact hemit.bind fun _ => ih hplaces hbefore hbefore' hleft hright
  | parseUntil ends _ ih =>
      subst hbefore hbefore'
      have hanswer := hscope ends pending place place' hplaces hleft hright
      exact hanswer.answer (ih _ _ _ _ hanswer.result hanswer.left hanswer.right hanswer.places rfl
        rfl (Nat.le_trans hanswer.left.1 hleft) (Nat.le_trans hanswer.right.1 hright))
  | buildMethod name ends _ ih =>
      subst hbefore hbefore'
      have hanswer := (hscope ends).asMethod name pending place place' hplaces hleft hright
      exact hanswer.answer (ih _ _ _ _ hanswer.result hanswer.left hanswer.right hanswer.places rfl
        rfl (Nat.le_trans hanswer.left.1 hleft) (Nat.le_trans hanswer.right.1 hright))
  | setParent parent _ ih =>
      have hanswer := Gatherings.parent parent pending place place' hplaces
        (hbefore.trans_le hleft) (hbefore'.trans_le hright)
      exact hanswer.answer (ih _ _ hanswer.result hanswer.places
        ((Gathering.length_tokens_parent parent pending place).trans hbefore)
        ((Gathering.length_tokens_parent parent pending place').trans hbefore') hleft hright)

end Run

namespace Gatherings

variable {frame : Frame} {left right : Nat} {ends : List String}
  {scope scope' : List String → Gathering (List Statement × String)}

theorem tag (hscope : ∀ ends, rel.Gatherings left right ends (scope ends) (scope' ends))
    (name args : Excerpt) :
    rel.Gatherings left right [] (Gathering.tag frame scope name args)
      (Gathering.tag frame scope' (name.shift rel.offset) (args.shift rel.offset)) := by
  intro pending place place' hplaces hleft hright
  unfold Gathering.tag
  rw [hplaces.library, Excerpt.toString_shift]
  cases htag : place.library.tag? name.toString with
  | none =>
      exact .fail (e := .unknownTag name.toString place.range) rfl
        (rel.range_of_here hplaces.here) hplaces
  | some handler =>
      have hrun : rel.Outcomes [] place place'
          (Gathering.run frame scope (handler args) pending place)
          (Gathering.run frame scope' (handler (args.shift rel.offset)) pending place') :=
        .run hscope (hplaces.relocatable.tag htag args _ _) hplaces rfl rfl hleft hright
      refine hrun.bind fun statement => ?_
      cases statement with
      | none => exact .stay (.ok ()) [] hrun.places rfl rfl
      | some statement => exact .stay (.ok ()) [statement] hrun.places rfl rfl

theorem handle (hresolver : frame.resolver.Relocatable rel)
    (hscope : ∀ ends, rel.Gatherings left right ends (scope ends) (scope' ends))
    {t t' : Token} (ht : rel.Counterparts t t') :
    rel.Gatherings left right [] (Gathering.handle frame scope ends t)
      (Gathering.handle frame scope' ends t') := by
  unfold Gathering.handle
  rw [ht.kind, ht.content]
  cases t.kind with
  | text => exact .bind (.emit _) fun _ => .ofResult (.ok none)
  | var =>
      exact .look fun site site' hsite => .bind (.ofResult (hsite.expression _)) fun e =>
        .bind (.emit _) fun _ => .ofResult (.ok none)
  | comment => exact .ofResult (.ok none)
  | load => exact .bind (.load hresolver _) fun _ => .ofResult (.ok none)
  | block =>
      dsimp only
      rw [Excerpt.splitBlank_shift]
      dsimp only
      rw [Excerpt.toString_shift]
      by_cases hends : ends.contains t.content.splitBlank.1.toString
      · rw [if_pos hends, if_pos hends]
        exact .ofResult (.ok _)
      · rw [if_neg hends, if_neg hends]
        exact .bind (.tag hscope _ _) fun _ => .ofResult (.ok none)

end Gatherings

theorem Streams.nil_left {ts : List Token} (h : rel.Streams [] ts) : ts = [] := by
  cases h
  rfl

section UpTo

variable {frame : Frame} {left right : Nat} {ends pending : List String} {place place' : Place}

theorem Outcomes.upTo_nil (hplaces : rel.Places place place') (htokens : place.tokens = []) :
    rel.Outcomes ends place place' (Gathering.upTo frame left ends pending place)
      (Gathering.upTo frame right ends pending place') := by
  have htokens' := (htokens ▸ hplaces.tokens : rel.Streams [] _).nil_left
  rw [Gathering.upTo_of_nil _ htokens, Gathering.upTo_of_nil _ htokens']
  exact Gatherings.atEnd ends pending place place' hplaces (Nat.le_refl _) (Nat.le_refl _)

/-- A token that both readings come to. -/
theorem Outcomes.upTo_cons (hresolver : frame.resolver.Relocatable rel)
    (hupTo : ∀ ends, rel.Gatherings left right ends (Gathering.upTo frame left ends)
      (Gathering.upTo frame right ends))
    {t t' : Token} {rest rest' : List Token} (hplaces : rel.Places place place')
    (htokens : place.tokens = t :: rest) (htokens' : place'.tokens = t' :: rest')
    (ht : rel.Counterparts t t') (hrest : rel.Streams rest rest') (hleft : rest.length ≤ left)
    (hright : rest'.length ≤ right) :
    rel.Outcomes ends place place' (Gathering.upTo frame (left + 1) ends pending place)
      (Gathering.upTo frame (right + 1) ends pending place') := by
  have hbehind : rel.Places (place.behind t rest) (place'.behind t' rest') :=
    { hplaces with tokens := hrest, here := ht.here }
  have hhandle : rel.Gatherings left right []
      (Gathering.handle frame (fun ends => (Gathering.upTo frame left ends).inScope) ends t)
      (Gathering.handle frame (fun ends => (Gathering.upTo frame right ends).inScope) ends t') :=
    .handle hresolver (fun ends => (hupTo ends).inScope) ht
  rw [Gathering.upTo_of_cons _ htokens, Gathering.upTo_of_cons _ htokens']
  refine .behind htokens htokens' ?_
  refine hhandle.bind (fun closing => ?_) pending _ _ hbehind hleft hright
  cases closing with
  | none => exact (hupTo ends).free
  | some closing => exact .ofResult (.ok closing)

/-- The run: the induction is on the bound of the reading with the comments. -/
theorem Gatherings.upTo (hresolver : frame.resolver.Relocatable rel) (left right : Nat)
    (ends : List String) :
    rel.Gatherings left right ends (Gathering.upTo frame left ends)
      (Gathering.upTo frame right ends) := by
  induction left generalizing right ends with
  | zero =>
      intro pending place place' hplaces hleft _
      exact .upTo_nil hplaces (List.eq_nil_of_length_eq_zero (Nat.le_zero.mp hleft))
  | succ left ih =>
      intro pending place place' hplaces hleft hright
      have hstreams := hplaces.tokens
      generalize htokens : place.tokens = ts at hstreams
      generalize htokens' : place'.tokens = ts' at hstreams
      rw [htokens] at hleft
      rw [htokens'] at hright
      cases hstreams with
      | nil => exact .upTo_nil hplaces htokens
      | cons ht hrest =>
          have hleft := Nat.le_of_succ_le_succ hleft
          cases right with
          | zero => cases hright
          | succ right =>
              have hright := Nat.le_of_succ_le_succ hright
              exact .upTo_cons hresolver (ih right) hplaces htokens htokens' ht hrest hleft hright
      | comment hkind hhere hrest =>
          -- The other reading stays where it is, which is still the corresponding place.
          have hbehind : rel.Places (place.behind _ _) place' :=
            { hplaces with tokens := htokens' ▸ hrest, here := hhere hplaces.here }
          have hout := ih right ends pending _ _ hbehind (Nat.le_of_succ_le_succ hleft)
            (htokens' ▸ hright)
          have hle := Nat.le_of_lt (Place.length_behind htokens)
          rw [Gathering.upTo_of_comment htokens hkind]
          exact { hout with left := hout.left.trans hle }

end UpTo

/-- What two templates define that have been read side by side. -/
theorem Outcomes.definition {ends : List String} {place place' : Place}
    {whole whole' : Gathered α} (h : rel.Outcomes ends place place' whole whole') (frame : Frame) :
    rel.Results (whole.definition frame) (whole'.definition frame) := by
  unfold Gathered.definition
  rw [h.own, h.places.library, h.places.methods, h.places.parent]
  exact h.result.map _

end Relocation
end Stencil
