/-
What the grammar derives, the parser accepts, unless it runs out of levels: each parser reads
all texts of its level, if nothing that would go on with them comes after.
-/
import Mathlib.Tactic.ByContra
import Stencil.Proofs.Expr.Loops

namespace Stencil
namespace Expr

/-- The parsers that are called back into cover their levels. -/
structure Descent.Complete (d : Descent) (bound : Nat) : Prop where
  expr : Covers .expr bound d.expr
  notOperand : Covers .negation bound d.notOperand
  unaryOperand : Covers .unary bound d.unaryOperand
  disjunction : Covers .disjunction bound d.disjunction

section Leaves

variable {rest : List Token}

theorem reads_parameters (hrest : ¬ FrontIs .comma rest) (names : List String) (hne : names ≠ [])
    (hnodup : names.Nodup) (seen : List String) (hfresh : ∀ name ∈ names, name ∉ seen)
    (fuel : Nat) (s : Stream) (hfuel : s.tokens.length < fuel)
    (h : Spells (nameList names) s.tokens rest) :
    Reads (parameters seen fuel) s rest (· = names) := by
  induction names generalizing seen fuel s with
  | nil => exact absurd rfl hne
  | cons name names ih =>
      obtain ⟨fuel, rfl⟩ := Nat.exists_eq_succ_of_ne_zero (Nat.ne_zero_of_lt hfuel)
      obtain ⟨hseen, hnodup, hfresh⟩ := fresh_cons_iff.mp ⟨hnodup, hfresh⟩
      by_cases hnil : names = []
      · subst hnil
        refine Reads.expectIdent h fun s₁ hs₁ => ?_
        refine Runs.ite (fun hmem => absurd hmem hseen) fun _ => ?_
        rw [Spells.nil_iff] at hs₁
        exact Reads.unlessConsume (hs₁ ▸ hrest) (Runs.pure ⟨hs₁, rfl⟩)
      · rw [nameList_cons name hnil] at h
        refine Reads.expectIdent h fun s₁ hs₁ => ?_
        refine Runs.ite (fun hmem => absurd hmem hseen) fun _ => ?_
        refine Reads.ifConsume hs₁ fun s₂ hs₂ => ?_
        have hlt := Nat.lt_trans (hs₁.length_lt_of_cons hs₂) (h.length_lt_of_cons hs₁)
        apply Reads.bind (ih hnil hnodup (name :: seen) hfresh fuel s₂ (by omega) hs₂)
        rintro _ s₃ hs₃ rfl
        exact Runs.pure ⟨hs₃, rfl⟩

theorem reads_targets (hrest : ¬ FrontIs .comma rest) (names : List String) (hne : names ≠ [])
    (fuel : Nat) (s : Stream) (hfuel : s.tokens.length < fuel)
    (h : Spells (nameList names) s.tokens rest) : Reads (targets fuel) s rest (· = names) := by
  induction names generalizing fuel s with
  | nil => exact absurd rfl hne
  | cons name names ih =>
      obtain ⟨fuel, rfl⟩ := Nat.exists_eq_succ_of_ne_zero (Nat.ne_zero_of_lt hfuel)
      by_cases hnil : names = []
      · subst hnil
        refine Reads.expectIdent h fun s₁ hs₁ => ?_
        rw [Spells.nil_iff] at hs₁
        exact Reads.unlessConsume (hs₁ ▸ hrest) (Runs.pure ⟨hs₁, rfl⟩)
      · rw [nameList_cons name hnil] at h
        refine Reads.expectIdent h fun s₁ hs₁ => ?_
        refine Reads.ifConsume hs₁ fun s₂ hs₂ => ?_
        have hlt := Nat.lt_trans (hs₁.length_lt_of_cons hs₂) (h.length_lt_of_cons hs₁)
        apply Reads.bind (ih hnil fuel s₂ (by omega) hs₂)
        rintro _ s₃ hs₃ rfl
        exact Runs.pure ⟨hs₃, rfl⟩

end Leaves

section Lists

variable {item : Parse Expr} {bound : Nat}

theorem reads_sequence (hitem : Covers .expr bound item) {close : Mark} (hclose : close.Closes)
    (trailing : Bool) (ps : List Phrase) (hps : ∀ p ∈ ps, Derives .expr p.text p.tree)
    (fuel : Nat) (s : Stream) (rest : List Token) (hfuel : s.tokens.length < fuel)
    (hbound : s.tokens.length < bound)
    (h : Spells (separated trailing (ps.map (·.text)) ++ [.mark close]) s.tokens rest) :
    Reads (sequence item close fuel) s rest fun items => bareAll items = ps.map (·.tree) := by
  rw [sequence_eq]
  refine Reads.imp (reads_listOf hitem.readable (fun _ hp => Derives.begins hp) hclose trailing ps
    hps fuel s rest hfuel hbound h) ?_
  exact fun items hitems => (bareAll_eq_map items).trans hitems

theorem readable_entry (hitem : Covers .expr bound item) :
    entryPhrases.Readable .expr bound (entry item) := by
  rintro ⟨key, value⟩ ⟨hkey, hvalue⟩ s rest hbound h hstop
  obtain ⟨mid, hfirst, hmid⟩ := Spells.append_iff.mp h
  have hcolon : Stops .expr mid := .of_spells hmid nofun
  apply Reads.bind (hitem hkey hbound hfirst hcolon)
  rintro k s₁ rfl hk
  have hle := hfirst.length_le
  refine Reads.expect hmid fun s₂ hs₂ => ?_
  have hlt := hmid.length_lt_of_cons hs₂
  apply Reads.bind (hitem hvalue (by omega) hs₂ hstop)
  rintro v s₃ hs₃ hv
  exact Runs.pure ⟨hs₃, congrArg₂ Prod.mk hk hv⟩

theorem readable_clause (hitem : Covers .disjunction bound item) :
    clausePhrases.Readable .expr bound (clause item) := by
  rintro ⟨names, source, tests⟩ ⟨hne, hphrases⟩ s rest hbound h hstop
  obtain ⟨hsource, htests⟩ := List.forall_mem_cons.mp hphrases
  obtain ⟨tail, hhead, htail⟩ := Spells.append_iff.mp h
  obtain ⟨mid, hnames, hmid⟩ := Spells.append_iff.mp hhead
  have hle := hnames.length_le
  have hcomma : ¬ FrontIs .comma mid := not_frontIs_of_spells hmid nofun
  refine Runs.rounds (Reads.bind (reads_targets hcomma names hne _ s (Nat.lt_succ_self _) hnames)
    ?_)
  rintro _ s₁ rfl rfl
  refine Reads.expect hmid fun s₂ hs₂ => ?_
  have hlt := hmid.length_lt_of_cons hs₂
  have hif : Level.disjunction.Ends (.mark .ifWord) := Level.ends_of_continues rfl (by decide)
  have hrest : Stops .disjunction rest := hstop.mono (by decide)
  apply Reads.bind (hitem hsource (by omega) hs₂ (hrest.of_repeated hif htail))
  rintro e s₃ rfl he
  have hle' := hs₂.length_le
  apply Runs.rounds
  rw [conditions_eq]
  refine Reads.bind (reads_collect hitem.readable hif tests htests _ s₃ rest (Nat.lt_succ_self _)
    (by omega) hrest (hstop.not_frontIs rfl (by decide)) htail) ?_
  rintro es s₄ hs₄ hes
  refine Runs.pure ⟨hs₄, ?_⟩
  change Clause.mk _ e.bare (bareAll es) = Clause.mk _ source.tree _
  rw [he, bareAll_eq_map]
  exact congrArg _ hes

end Lists

namespace Descent.Complete

variable {d : Descent} {bound : Nat}

theorem list (hd : d.Complete bound) (trailing : Bool) (ps : List Phrase)
    (hps : ∀ p ∈ ps, Derives .expr p.text p.tree) (start : Position) (s : Stream)
    (rest : List Token) (hbound : s.tokens.length < bound)
    (h : Spells (separated trailing (ps.map (·.text)) ++ [.mark .rightBracket]) s.tokens rest) :
    Reads (d.list start) s rest fun e => e.bare = .list (ps.map (·.tree)) {} := by
  have hclose : Mark.rightBracket.Closes := .inr (.inl rfl)
  cases ps with
  | nil =>
      refine Reads.ifConsume h fun s₁ hs₁ => Runs.rangeFrom fun _ => ?_
      exact Runs.pure ⟨Spells.nil_iff.mp hs₁, rfl⟩
  | cons p ps =>
      obtain ⟨hp, hps⟩ := List.forall_mem_cons.mp hps
      obtain ⟨kind, more, htext, hkind⟩ := hp.begins
      obtain ⟨tail, heq, htail⟩ :=
        separated_cons_append trailing p.text (ps.map (·.text)) [.mark .rightBracket]
      rw [List.map_cons, heq] at h
      obtain ⟨mid, hfirst, hmid⟩ := Spells.append_iff.mp h
      have hstop : Stops .expr mid ∧ ¬ FrontIs .forWord mid := by
        rcases htail with ⟨-, rfl⟩ | rfl
        · exact ⟨.of_spells hmid hclose.ends, not_frontIs_of_spells hmid nofun⟩
        · exact ⟨.of_spells hmid ends_comma, not_frontIs_of_spells hmid nofun⟩
      rw [htext, List.cons_append] at h
      apply Reads.unlessConsume (not_frontIs_of_spells h (hclose.ne_of_begins hkind))
      apply Reads.bind (hd.expr hp hbound hfirst hstop.1)
      rintro e s₁ rfl he
      have hle := hfirst.length_le
      apply Reads.unlessPeek hstop.2
      rcases htail with ⟨hnil, rfl⟩ | rfl
      · rw [List.map_eq_nil_iff.mp hnil]
        refine Reads.unlessConsume (not_frontIs_of_spells hmid nofun) ?_
        refine Reads.expect hmid fun s₂ hs₂ => Runs.rangeFrom fun _ => ?_
        exact Runs.pure ⟨Spells.nil_iff.mp hs₂, congrArg (fun e => Expr.list [e] {}) he⟩
      · refine Reads.ifConsume hmid fun s₂ hs₂ => Runs.rounds ?_
        have hlt := hmid.length_lt_of_cons hs₂
        refine Reads.bind (reads_sequence hd.expr hclose trailing ps hps _ s₂ rest
          (Nat.lt_succ_self _) (by omega) hs₂) ?_
        rintro es s₃ hs₃ hes
        refine Runs.rangeFrom fun _ => Runs.pure ⟨hs₃, ?_⟩
        exact congrArg₂ (fun e es => Expr.list (e :: es) {}) he hes

theorem comprehension (hd : d.Complete bound) {element : Phrase}
    (helement : Derives .expr element.text element.tree) {cs : List ClausePhrase} (hne : cs ≠ [])
    (hcs : ∀ c ∈ cs, clausePhrases.Derived c) (start : Position) (s : Stream) (rest : List Token)
    (hbound : s.tokens.length < bound)
    (h : Spells (element.text ++ (cs.flatMap (fun c => .mark .forWord :: c.body)
      ++ [.mark .rightBracket])) s.tokens rest) :
    Reads (d.list start) s rest fun e =>
      e.bare = .comprehension element.tree (cs.map ClausePhrase.tree) {} := by
  have hclose : Mark.rightBracket.Closes := .inr (.inl rfl)
  obtain ⟨kind, more, htext, hkind⟩ := helement.begins
  obtain ⟨mid, hfirst, hmid⟩ := Spells.append_iff.mp h
  have hfor : FrontIs .forWord mid ∧ Stops .expr mid := by
    obtain ⟨c, cs, rfl⟩ := List.exists_cons_of_ne_nil hne
    exact ⟨.of_spells hmid, .of_spells hmid nofun⟩
  obtain ⟨last, hclauses, hlast⟩ := Spells.append_iff.mp hmid
  rw [htext, List.cons_append] at h
  apply Reads.unlessConsume (not_frontIs_of_spells h (hclose.ne_of_begins hkind))
  apply Reads.bind (hd.expr helement hbound hfirst hfor.2)
  rintro e s₁ rfl he
  have hle := hfirst.length_le
  refine Reads.ifPeek hfor.1 (Runs.rounds ?_)
  rw [clauses_eq]
  have hends : Level.expr.Ends (.mark .forWord) := nofun
  refine Reads.bind (reads_collect (readable_clause hd.disjunction) hends cs hcs _ s₁ last
    (Nat.lt_succ_self _) (by omega) (.of_spells hlast hclose.ends)
    (not_frontIs_of_spells hlast nofun) hclauses) ?_
  rintro parts s₂ rfl hparts
  refine Reads.expect hlast fun s₃ hs₃ => Runs.rangeFrom fun _ => ?_
  refine Runs.pure ⟨Spells.nil_iff.mp hs₃, ?_⟩
  change Expr.comprehension e.bare (bareClauses parts) {} = _
  rw [he, bareClauses_eq_map]
  exact congrArg (Expr.comprehension element.tree · {}) hparts

theorem primary (hd : d.Complete bound) : Covers .primary (bound + 1) d.primary := by
  intro text tree h s rest hbound hspells hstop
  cases h with
  | @literal kind value hkind =>
      refine Reads.next hspells fun token s₁ htoken hs₁ => ?_
      dsimp only
      rw [htoken]
      unfold TokenKind.literal? at hkind
      split at hkind <;> cases hkind
      all_goals
        exact Runs.rangeFrom fun _ => Runs.pure ⟨Spells.nil_iff.mp hs₁, rfl⟩
  | name name =>
      refine Reads.next hspells fun token s₁ htoken hs₁ => ?_
      dsimp only
      rw [htoken]
      exact Runs.rangeFrom fun _ => Runs.pure ⟨Spells.nil_iff.mp hs₁, rfl⟩
  | @paren text tree htree =>
      refine Reads.next hspells fun token s₁ htoken hs₁ => ?_
      have hlt := hspells.length_lt_of_cons hs₁
      obtain ⟨mid, hinner, hclose⟩ := Spells.append_iff.mp hs₁
      dsimp only
      rw [htoken]
      refine Reads.bind (hd.expr htree (by omega) hinner (.of_spells hclose nofun)) ?_
      rintro e s₂ rfl he
      refine Reads.expect hclose fun s₃ hs₃ => Runs.rangeFrom fun range => ?_
      exact Runs.pure ⟨Spells.nil_iff.mp hs₃, (e.bare_withRange range).trans he⟩
  | @list items trailing hitems =>
      refine Reads.next hspells fun token s₁ htoken hs₁ => ?_
      have hlt := hspells.length_lt_of_cons hs₁
      dsimp only
      rw [htoken]
      exact hd.list trailing items hitems _ s₁ rest (by omega) hs₁
  | @comprehension element clauses helement hne htargets hphrases =>
      rw [List.append_assoc, List.cons_append] at hspells
      refine Reads.next hspells fun token s₁ htoken hs₁ => ?_
      have hlt := hspells.length_lt_of_cons hs₁
      dsimp only
      rw [htoken]
      exact hd.comprehension helement hne (fun c hc => ⟨htargets c hc, hphrases c hc⟩) _ s₁ rest
        (by omega) hs₁
  | @dict entries trailing hkeys hvalues =>
      refine Reads.next hspells fun token s₁ htoken hs₁ => ?_
      have hlt := hspells.length_lt_of_cons hs₁
      dsimp only
      rw [htoken]
      apply Runs.rounds
      rw [entries_eq]
      refine Reads.bind (reads_listOf (readable_entry hd.expr) ?_ (.inr (.inr rfl)) trailing entries
        (fun entry hentry => ⟨hkeys entry hentry, hvalues entry hentry⟩) _ s₁ rest
        (Nat.lt_succ_self _) (by omega) hs₁) ?_
      · rintro entry ⟨hkey, -⟩
        obtain ⟨kind, more, htext, hkind⟩ := hkey.begins
        exact ⟨kind, _, congrArg (· ++ _) htext, hkind⟩
      · rintro pairs s₂ hs₂ hpairs
        refine Runs.rangeFrom fun _ => Runs.pure ⟨hs₂, ?_⟩
        change Expr.dict (bareEntries pairs) {} = _
        rw [bareEntries_eq_map]
        exact congrArg (Expr.dict · {}) hpairs

theorem suffixes (hd : d.Complete bound) (start : Position) (xs : List Suffix)
    (hxs : ∀ x ∈ xs, ∀ p ∈ x.phrases, Derives .expr p.text p.tree) (value : Expr) (fuel : Nat)
    (s : Stream) (rest : List Token) (hfuel : s.tokens.length < fuel)
    (hbound : s.tokens.length ≤ bound) (hstop : Stops .suffixed rest)
    (h : Spells (xs.flatMap Suffix.text) s.tokens rest) :
    Reads (d.suffixes start value fuel) s rest fun e =>
      e.bare = xs.foldl Suffix.apply value.bare := by
  induction xs generalizing value fuel s with
  | nil =>
      obtain ⟨fuel, rfl⟩ := Nat.exists_eq_succ_of_ne_zero (Nat.ne_zero_of_lt hfuel)
      obtain rfl := Spells.nil_iff.mp h
      have hnone : ∀ {m : Mark}, TokenKind.continues? (.mark m) = some .suffixed →
          ¬ FrontIs m s.tokens := fun hm => hstop.not_frontIs hm (by decide)
      refine Reads.unlessConsume (hnone rfl) (Reads.unlessConsume (hnone rfl) ?_)
      exact Reads.unlessConsume (hnone rfl) (Runs.pure ⟨rfl, rfl⟩)
  | cons x xs ih =>
      obtain ⟨fuel, rfl⟩ := Nat.exists_eq_succ_of_ne_zero (Nat.ne_zero_of_lt hfuel)
      obtain ⟨hx, hxs⟩ := List.forall_mem_cons.mp hxs
      have hgo : ∀ (value' : Expr) (s' : Stream), value'.bare = x.apply value.bare →
          s'.tokens.length < s.tokens.length → Spells (xs.flatMap Suffix.text) s'.tokens rest →
            Reads (d.suffixes start value' fuel) s' rest fun e =>
              e.bare = (x :: xs).foldl Suffix.apply value.bare := by
        intro value' s' hvalue hlt hs'
        apply Reads.imp (ih hxs value' fuel s' (by omega) (by omega) hs')
        intro e he
        rw [he, hvalue, List.foldl_cons]
      rw [List.flatMap_cons] at h
      cases x with
      | member name =>
          refine Reads.ifConsume h fun s₁ hs₁ => Reads.enter fun s₂ hs₂ => ?_
          have hlt := h.length_lt_of_cons hs₁
          rw [← hs₂] at hs₁ hlt
          refine Reads.expectIdent hs₁ fun s₃ hs₃ => Runs.rangeFrom fun _ => ?_
          exact hgo _ s₃ rfl (Nat.lt_trans (hs₁.length_lt_of_cons hs₃) hlt) hs₃
      | index position =>
          rw [Suffix.text, List.append_assoc] at h
          refine Reads.unlessConsume (not_frontIs_of_spells h nofun) ?_
          refine Reads.ifConsume h fun s₁ hs₁ => Reads.enter fun s₂ hs₂ => ?_
          have hlt := h.length_lt_of_cons hs₁
          rw [← hs₂] at hs₁ hlt
          obtain ⟨mid, hposition, hmid⟩ := Spells.append_iff.mp hs₁
          have hle := hposition.length_le
          refine Reads.bind (hd.expr (hx position List.mem_cons_self) (by omega) hposition
            (.of_spells hmid nofun)) ?_
          rintro e s₃ rfl he
          refine Reads.expect hmid fun s₄ hs₄ => Runs.rangeFrom fun _ => ?_
          have hlt' := hmid.length_lt_of_cons hs₄
          exact hgo _ s₄ (congrArg (Expr.index value.bare · {}) he) (by omega) hs₄
      | call args trailing =>
          rw [Suffix.text, List.cons_append, List.cons_append] at h
          refine Reads.unlessConsume (not_frontIs_of_spells h nofun) ?_
          refine Reads.unlessConsume (not_frontIs_of_spells h nofun) ?_
          refine Reads.ifConsume h fun s₁ hs₁ => Reads.enter fun s₂ hs₂ => Runs.rounds ?_
          have hlt := h.length_lt_of_cons hs₁
          rw [← hs₂] at hs₁ hlt
          obtain ⟨mid, hargs, hmid⟩ := Spells.append_iff.mp hs₁
          have hle := hargs.length_le
          refine Reads.bind (reads_sequence hd.expr (.inl rfl) trailing args hx _ s₂ mid
            (Nat.lt_succ_self _) (by omega) hargs) ?_
          rintro es s₃ rfl hes
          refine Runs.rangeFrom fun _ => ?_
          exact hgo _ s₃ (congrArg (Expr.call value.bare · {}) hes) (by omega) hmid

theorem suffixed (hd : d.Complete bound) : Covers .suffixed (bound + 1) d.suffixed := by
  intro text tree h s rest hbound hspells hstop
  cases h with
  | @suffixed value xs hvalue hxs =>
      obtain ⟨mid, hfirst, hmid⟩ := Spells.append_iff.mp hspells
      have hle := hfirst.length_le
      have hnext : Stops .primary mid := by
        cases xs with
        | nil => exact Spells.nil_iff.mp hmid ▸ hstop.mono (by decide)
        | cons x xs =>
            cases x with
            | _ => exact .of_spells hmid (Level.ends_of_continues rfl (by decide))
      refine Runs.restoringDepth (Runs.peekStart fun start => ?_)
      apply Reads.bind (hd.primary hvalue hbound hfirst hnext)
      rintro e s₁ rfl he
      apply Runs.rounds
      rw [← he]
      exact hd.suffixes start xs hxs e _ s₁ rest (Nat.lt_succ_self _) (by omega) hstop hmid

theorem power (hd : d.Complete bound) : Covers .power (bound + 1) d.power := by
  intro text tree h s rest hbound hspells hstop
  cases h with
  | @pow base exponent hbase hexponent =>
      obtain ⟨mid, hfirst, hmid⟩ := Spells.append_iff.mp hspells
      have hle := hfirst.length_le
      have hnext : Stops .suffixed mid :=
        .of_spells hmid (Level.ends_of_continues rfl (by decide))
      apply Reads.bind (hd.suffixed hbase hbound hfirst hnext)
      rintro e s₁ rfl he
      refine Reads.ifConsume hmid fun s₂ hs₂ => ?_
      have hlt := hmid.length_lt_of_cons hs₂
      apply Reads.bind (hd.unaryOperand hexponent (by omega) hs₂ hstop.unary)
      rintro e' s₃ hs₃ he'
      exact Runs.pure ⟨hs₃, congrArg₂ (Expr.binary .pow · · {}) he he'⟩
  | power htree =>
      apply Reads.bind (hd.suffixed htree hbound hspells (hstop.mono (by decide)))
      rintro e s₁ rfl he
      have hnot : ¬ FrontIs .doubleStar s₁.tokens := hstop.not_frontIs rfl (by decide)
      exact Reads.unlessConsume hnot (Runs.pure ⟨rfl, he⟩)

theorem unary (hd : d.Complete bound) : Covers .unary (bound + 1) d.unary := by
  intro text tree h s rest hbound hspells hstop
  refine Runs.peekStart fun start => ?_
  cases h with
  | minus htree =>
      refine Reads.ifConsume hspells fun s₁ hs₁ => ?_
      have hlt := hspells.length_lt_of_cons hs₁
      apply Reads.bind (hd.unaryOperand htree (by omega) hs₁ hstop)
      rintro e s₂ hs₂ he
      exact Runs.rangeFrom fun _ => Runs.pure ⟨hs₂, congrArg (Expr.unary .neg · {}) he⟩
  | plus htree =>
      refine Reads.unlessConsume (not_frontIs_of_spells hspells nofun) ?_
      refine Reads.ifConsume hspells fun s₁ hs₁ => ?_
      have hlt := hspells.length_lt_of_cons hs₁
      apply Reads.bind (hd.unaryOperand htree (by omega) hs₁ hstop)
      rintro e s₂ hs₂ he
      exact Runs.rangeFrom fun _ => Runs.pure ⟨hs₂, congrArg (Expr.unary .pos · {}) he⟩
  | unary htree =>
      apply Reads.unlessConsume (htree.not_frontIs rfl (by decide) hspells)
      apply Reads.unlessConsume (htree.not_frontIs rfl (by decide) hspells)
      exact hd.power htree hbound hspells (hstop.mono (by decide))

end Descent.Complete

theorem reads_operator {α : Type} {op : BinaryOp} (hop : op.level ≠ .power) {s : Stream}
    {text : List TokenKind} {rest : List Token} (h : Spells (op.spelling ++ text) s.tokens rest)
    {f : BinaryOp → Parse α} {Q : α → Stream → Prop}
    (hf : ∀ s', Spells text s'.tokens rest → Runs (f op) s' Q TooDeep) :
    Runs (operator >>= f) s Q TooDeep := by
  refine Runs.bind (Q := fun o s' => o = op ∧ Spells text s'.tokens rest) ?_ ?_
  · cases op with
    | pow => exact absurd rfl hop
    | notIn =>
        refine Reads.next h fun token s₁ hkind hs₁ => ?_
        rw [hkind]
        exact Reads.expect hs₁ fun s₂ hs₂ => Runs.pure ⟨rfl, hs₂⟩
    | _ =>
        refine Reads.next h fun token s₁ hkind hs₁ => ?_
        rw [hkind]
        exact Runs.pure ⟨rfl, hs₁⟩
  · rintro o s' ⟨rfl, hs'⟩
    exact hf s' hs'

/-- One round of a loop over operators: an operator and its operand. -/
theorem reads_operand {level : Level} {bound : Nat} {operand : Parse Expr}
    (hoperand : Covers level (bound + 1) operand) {op : BinaryOp} (hop : op.level ≠ .power)
    {text : List TokenKind} {tree : Expr} (htree : Derives level text tree) {s : Stream}
    {more : List TokenKind} {rest : List Token} (hbound : s.tokens.length ≤ bound)
    (h : Spells ((op.spelling ++ text) ++ more) s.tokens rest)
    (hnext : ∀ mid, Spells more mid rest → Stops level mid)
    {f : BinaryOp → Expr → Parse Expr} {Q : Expr → Stream → Prop}
    (hf : ∀ rhs s', rhs.bare = tree → s'.tokens.length < s.tokens.length →
      Spells more s'.tokens rest → Runs (f op rhs) s' Q TooDeep) :
    Runs (do
      enter
      let op ← operator
      let rhs ← operand
      f op rhs) s Q TooDeep := by
  refine Reads.enter fun s₁ hs₁ => ?_
  rw [List.append_assoc, ← hs₁] at h
  refine reads_operator hop h fun s₂ hs₂ => ?_
  obtain ⟨mid, hfirst, hmid⟩ := Spells.append_iff.mp hs₂
  have hlength := h.length_eq
  have hlength' := hs₂.length_eq
  have hpos := List.length_pos_iff.mpr op.spelling_ne_nil
  rw [List.length_append, hs₁] at hlength
  have hle := hfirst.length_le
  apply Reads.bind (hoperand htree (by omega) hfirst (hnext mid hmid))
  rintro rhs s₃ rfl hrhs
  exact hf rhs s₃ hrhs (by omega) hmid

/-- What follows an operand, in front of factors and terms. -/
theorem stops_of_spells_operands {factors terms : Operands}
    (hfactors : factors.Derived .product .unary) (hterms : terms.Derived .sum .product)
    {tokens rest : List Token} (hstop : Stops .product rest)
    (h : Spells (factors.text ++ terms.text) tokens rest) : Stops .unary tokens := by
  obtain ⟨mid, hfirst, hmid⟩ := Spells.append_iff.mp h
  have hunary : Stops .unary rest := hstop.mono (by decide)
  exact hfactors.stops (by decide) hfirst (hterms.stops (by decide) hmid hunary)

theorem frontPrecedence_lt_three {terms : Operands} (hterms : terms.Derived .sum .product)
    {tokens rest : List Token} (hfront : frontPrecedence rest < 3)
    (h : Spells terms.text tokens rest) : frontPrecedence tokens < 3 := by
  by_cases hnil : terms = []
  · subst hnil
    exact Spells.nil_iff.mp h ▸ hfront
  · rw [hterms.frontPrecedence_eq hnil h]
    decide

/-- With `fuel` rounds left, the operators of a sum are read from a precedence on: factors that
go on with the product that `lhs` ends, and then the terms. -/
def Descent.ReadsOperators (d : Descent) (bound fuel : Nat) : Prop :=
  ∀ {least : Nat} {factors terms : Operands} {lhs : Expr} {s : Stream} {rest : List Token},
    2 ≤ least → least ≤ 3 → (least = 3 → terms = []) →
      factors.Derived .product .unary → terms.Derived .sum .product →
        s.tokens.length < fuel → s.tokens.length ≤ bound → Stops .product rest →
          frontPrecedence rest < least → Spells (factors.text ++ terms.text) s.tokens rest →
            Reads (d.operators least lhs fuel) s rest fun e =>
              e.bare = terms.leftmost (factors.leftmost lhs.bare)

namespace Descent.Complete

variable {d : Descent} {bound : Nat}

section Operators

variable {least fuel : Nat} {op : BinaryOp} {p : Phrase} {factors terms : Operands} {lhs : Expr}
  {s : Stream} {rest : List Token}

theorem factor (hd : d.Complete bound) (ih : d.ReadsOperators bound fuel) (hleast : 2 ≤ least)
    (hmost : least ≤ 3) (hnone : least = 3 → terms = [])
    (hfactors : Operands.Derived .product .unary ((op, p) :: factors))
    (hterms : terms.Derived .sum .product) (hfuel : s.tokens.length < fuel + 1)
    (hbound : s.tokens.length ≤ bound) (hstop : Stops .product rest)
    (hfront : frontPrecedence rest < least)
    (h : Spells (Operands.text ((op, p) :: factors) ++ terms.text) s.tokens rest) :
    Reads (d.operators least lhs (fuel + 1)) s rest fun e =>
      e.bare = terms.leftmost (Operands.leftmost ((op, p) :: factors) lhs.bare) := by
  obtain ⟨mid, hfirst, -⟩ := Spells.append_iff.mp h
  have hthree : frontPrecedence s.tokens = 3 := hfactors.frontPrecedence_eq nofun hfirst
  obtain ⟨⟨hlevel, hp⟩, hfactors⟩ := List.forall_mem_cons.mp hfactors
  have hpower : op.level ≠ .power := fun heq => nomatch hlevel.symm.trans heq
  refine Runs.peekPrecedence (Runs.ite (fun hend => ?_) fun _ => ?_)
  · simp only [Bool.or_eq_true, decide_eq_true_eq] at hend
    omega
  rw [Operands.text_cons, List.append_assoc] at h
  refine reads_operand hd.unary hpower hp hbound h
    (fun _ => stops_of_spells_operands hfactors hterms hstop) ?_
  intro operand s₁ hoperand hlt hs₁
  have hle := frontPrecedence_le s₁.tokens
  refine Runs.peekPrecedence (Runs.ite (fun _ => by omega) fun _ => ?_)
  apply Reads.imp (ih hleast hmost hnone hfactors hterms (by omega) (by omega) hstop hfront hs₁)
  intro e he
  rw [he, Expr.bare, hoperand]
  rfl

/-- The factors of a term are read before the next term. -/
theorem term (hd : d.Complete bound) (ih : d.ReadsOperators bound fuel) (hleast : least = 2)
    (hterms : Operands.Derived .sum .product ((op, p) :: terms))
    (hfuel : s.tokens.length < fuel + 1) (hbound : s.tokens.length ≤ bound)
    (hstop : Stops .product rest) (hfront : frontPrecedence rest < least)
    (h : Spells (Operands.text ((op, p) :: terms)) s.tokens rest) :
    Reads (d.operators least lhs (fuel + 1)) s rest fun e =>
      e.bare = Operands.leftmost ((op, p) :: terms) lhs.bare := by
  have htwo : frontPrecedence s.tokens = 2 := hterms.frontPrecedence_eq nofun h
  obtain ⟨⟨hlevel, hp⟩, hterms⟩ := List.forall_mem_cons.mp hterms
  have hpower : op.level ≠ .power := fun heq => nomatch hlevel.symm.trans heq
  refine Runs.peekPrecedence (Runs.ite (fun hend => ?_) fun _ => ?_)
  · simp only [Bool.or_eq_true, decide_eq_true_eq] at hend
    omega
  obtain ⟨first, factors, hfirst, hfactors, htext, htree⟩ := Derives.eq_factors hp
  rw [Operands.text_cons, htext, ← List.append_assoc, List.append_assoc] at h
  refine reads_operand hd.unary hpower hfirst hbound h
    (fun _ => stops_of_spells_operands hfactors hterms hstop) ?_
  intro operand s₁ hoperand hlt hs₁
  obtain ⟨mid, hmore, hmid⟩ := Spells.append_iff.mp hs₁
  have hle := hmore.length_le
  have hmost := frontPrecedence_le s₁.tokens
  have hgo : ∀ (rhs : Expr) (s₂ : Stream), s₂.tokens = mid → rhs.bare = p.tree →
      Reads (d.operators least (.binary op lhs rhs (lhs.span rhs)) fuel) s₂ rest fun e =>
        e.bare = Operands.leftmost ((op, p) :: terms) lhs.bare := by
    rintro rhs s₂ rfl hrhs
    have hmid : Spells (Operands.text [] ++ terms.text) s₂.tokens rest := hmid
    refine Reads.imp (ih (by omega) (by omega) (fun heq => by omega) .nil hterms (by omega)
      (by omega) hstop hfront hmid) ?_
    intro e he
    rw [he, Expr.bare, hrhs]
    rfl
  refine Runs.peekPrecedence (Runs.ite (fun hfollowing => ?_) fun hfollowing => ?_)
  · -- The operand is the first factor of the term.
    have hmidFront := frontPrecedence_lt_three hterms (by omega) hmid
    refine Runs.bind (Q := fun rhs s₂ => s₂.tokens = mid ∧
      rhs.bare = factors.leftmost operand.bare) (Runs.restoringDepth ?_) ?_
    · exact ih (by omega) (by omega) (fun _ => rfl) hfactors .nil (by omega) (by omega)
        (Operands.Derived.stops hterms (by decide) hmid hstop) (by omega)
        (hmore.append (Spells.nil_iff.mpr rfl))
    · rintro rhs s₂ ⟨hs₂, hrhs⟩
      exact hgo rhs s₂ hs₂ (by rw [hrhs, hoperand, htree])
  · have hnil : factors = [] := by
      by_contra hne
      have hfront : frontPrecedence s₁.tokens = 3 := hfactors.frontPrecedence_eq hne hmore
      omega
    subst hnil
    exact hgo operand s₁ (Spells.nil_iff.mp hmore) (hoperand.trans htree.symm)

/-- The induction is on the rounds that are left; the factors of a term are read by fewer. -/
theorem operators (hd : d.Complete bound) (fuel : Nat) : d.ReadsOperators bound fuel := by
  induction fuel with
  | zero =>
      intro least factors terms lhs s rest _ _ _ _ _ hfuel
      exact absurd hfuel (Nat.not_lt_zero _)
  | succ fuel ih =>
      intro least factors terms lhs s rest hleast hmost hnone hfactors hterms hfuel hbound hstop
        hfront h
      rcases factors with _ | ⟨⟨op, p⟩, factors⟩
      · rcases terms with _ | ⟨⟨op, p⟩, terms⟩
        · obtain rfl := Spells.nil_iff.mp h
          refine Runs.peekPrecedence (Runs.ite (fun _ => Runs.pure ⟨rfl, rfl⟩) fun hgo => ?_)
          simp only [Bool.or_eq_true, decide_eq_true_eq, not_or] at hgo
          omega
        · have hne : least ≠ 3 := fun heq => nomatch hnone heq
          exact hd.term ih (by omega) hterms hfuel hbound hstop hfront h
      · exact hd.factor ih hleast hmost hnone hfactors hterms hfuel hbound hstop hfront h

end Operators

theorem arithmetic (hd : d.Complete bound) : Covers .sum (bound + 1) d.arithmetic := by
  intro text tree h s rest hbound hspells hstop
  cases h with
  | @sum product terms hproduct hlevels hterms =>
      have hterms : terms.Derived .sum .product := fun p hp => ⟨hlevels p hp, hterms p hp⟩
      obtain ⟨first, factors, hfirst, hfactors, htext, htree⟩ := hproduct.eq_factors
      have hstop' : Stops .product rest := hstop.mono (by decide)
      rw [htext, List.append_assoc] at hspells
      obtain ⟨mid, hhead, hmid⟩ := Spells.append_iff.mp hspells
      have hle := hhead.length_le
      refine Reads.bind (hd.unary hfirst hbound hhead
        (stops_of_spells_operands hfactors hterms hstop' hmid)) ?_
      rintro lhs s₁ rfl hlhs
      refine Reads.restoringDepth (Runs.rounds ?_)
      rw [htree, ← hlhs]
      exact hd.operators _ (by decide) (by decide) nofun hfactors hterms (Nat.lt_succ_self _)
        (by omega) hstop' (hstop.frontPrecedence_lt (by decide)) hmid

/-- The comparisons read so far are `chain`, and `lhs` is the last operand. -/
theorem comparisons (hd : d.Complete bound) (more : Operands)
    (hmore : more.Derived .comparison .sum) (chain : Option Expr) (lhs : Expr) (fuel : Nat)
    (s : Stream) (rest : List Token) (hfuel : s.tokens.length < fuel)
    (hbound : s.tokens.length ≤ bound) (hstop : Stops .comparison rest)
    (h : Spells more.text s.tokens rest) :
    Reads (d.comparisons chain lhs fuel) s rest fun e =>
      e.bare = conjoined lhs.bare ((chain.map Expr.bare).toList ++ more.pairs lhs.bare) := by
  induction more generalizing chain lhs fuel s with
  | nil =>
      obtain ⟨fuel, rfl⟩ := Nat.exists_eq_succ_of_ne_zero (Nat.ne_zero_of_lt hfuel)
      obtain rfl := Spells.nil_iff.mp h
      have hfront : frontPrecedence s.tokens < 1 := hstop.frontPrecedence_lt (by decide)
      refine Runs.peekPrecedence (Runs.ite (fun _ => Runs.pure ⟨rfl, ?_⟩) fun hone => ?_)
      · cases chain <;> rfl
      · omega
  | cons entry more ih =>
      obtain ⟨fuel, rfl⟩ := Nat.exists_eq_succ_of_ne_zero (Nat.ne_zero_of_lt hfuel)
      have hfront : frontPrecedence s.tokens = 1 := hmore.frontPrecedence_eq nofun h
      obtain ⟨⟨hlevel, hp⟩, hrest⟩ := List.forall_mem_cons.mp hmore
      obtain ⟨op, p⟩ := entry
      have hpower : op.level ≠ .power := fun heq => nomatch hlevel.symm.trans heq
      rw [Operands.text_cons] at h
      refine Runs.peekPrecedence (Runs.ite (fun hne => absurd hfront hne) fun _ => ?_)
      refine reads_operand hd.arithmetic hpower hp hbound h (fun mid hmid => ?_) ?_
      · exact Operands.Derived.stops hrest (by decide) hmid (hstop.mono (by decide))
      intro rhs s₁ hrhs hlt hs₁
      cases chain with
      | _ =>
          apply Reads.imp (ih hrest (some _) rhs fuel s₁ (by omega) (by omega) hs₁)
          intro e he
          rw [hrhs] at he
          simp only [he, Option.map_some, Expr.bare, hrhs]
          rfl

theorem comparison (hd : d.Complete bound) : Covers .comparison (bound + 1) d.comparison := by
  intro text tree h s rest hbound hspells hstop
  cases h with
  | @comparison first more hfirst hlevels hmore =>
      have hmore : more.Derived .comparison .sum := fun p hp => ⟨hlevels p hp, hmore p hp⟩
      obtain ⟨mid, hhead, hmid⟩ := Spells.append_iff.mp hspells
      have hle := hhead.length_le
      have hnext : Stops .sum mid := hmore.stops (by decide) hmid (hstop.mono (by decide))
      refine Reads.restoringDepth (Reads.bind (hd.arithmetic hfirst hbound hhead hnext) ?_)
      rintro lhs s₁ rfl hlhs
      apply Runs.rounds
      rw [← hlhs]
      exact hd.comparisons more hmore none lhs _ s₁ rest (Nat.lt_succ_self _) (by omega) hstop hmid

theorem negation (hd : d.Complete bound) : Covers .negation (bound + 1) d.negation := by
  intro text tree h s rest hbound hspells hstop
  refine Runs.peekStart fun start => ?_
  cases h with
  | not htree =>
      refine Reads.ifConsume hspells fun s₁ hs₁ => ?_
      have hlt := hspells.length_lt_of_cons hs₁
      apply Reads.bind (hd.notOperand htree (by omega) hs₁ hstop)
      rintro e s₂ hs₂ he
      exact Runs.rangeFrom fun _ => Runs.pure ⟨hs₂, congrArg (Expr.unary .not · {}) he⟩
  | negation htree =>
      apply Reads.unlessConsume (htree.not_frontIs rfl (by decide) hspells)
      exact hd.comparison htree hbound hspells (hstop.mono (by decide))

theorem conjunction (hd : d.Complete bound) : Covers .conjunction (bound + 1) d.conjunction := by
  intro text tree h s rest hbound hspells hstop
  cases h with
  | @conjunction first more hfirst hmore =>
      have hand : Level.negation.Ends (.mark .andWord) :=
        Level.ends_of_continues rfl (by decide)
      have hrest : Stops .negation rest := hstop.mono (by decide)
      have hfront : ¬ FrontIs .andWord rest := hstop.not_frontIs rfl (by decide)
      obtain ⟨mid, hhead, hmid⟩ := Spells.append_iff.mp hspells
      have hle := hhead.length_le
      refine Reads.restoringDepth
        (Reads.bind (hd.negation hfirst hbound hhead (hrest.of_repeated hand hmid)) ?_)
      rintro lhs s₁ rfl hlhs
      apply Runs.rounds
      rw [conjuncts_eq, ← hlhs]
      exact reads_joins hd.negation hand _ (.and · · {}) (fun _ _ => rfl) more hmore _ lhs s₁ rest
        (Nat.lt_succ_self _) (by omega) hrest hfront hmid

theorem disjunctionOf (hd : d.Complete bound) :
    Covers .disjunction (bound + 1) d.disjunctionOf := by
  intro text tree h s rest hbound hspells hstop
  cases h with
  | @disjunction first more hfirst hmore =>
      have hor : Level.conjunction.Ends (.mark .orWord) :=
        Level.ends_of_continues rfl (by decide)
      have hrest : Stops .conjunction rest := hstop.mono (by decide)
      have hfront : ¬ FrontIs .orWord rest := hstop.not_frontIs rfl (by decide)
      obtain ⟨mid, hhead, hmid⟩ := Spells.append_iff.mp hspells
      have hle := hhead.length_le
      refine Reads.restoringDepth
        (Reads.bind (hd.conjunction hfirst hbound hhead (hrest.of_repeated hor hmid)) ?_)
      rintro lhs s₁ rfl hlhs
      apply Runs.rounds
      rw [disjuncts_eq, ← hlhs]
      exact reads_joins hd.conjunction hor _ (.or · · {}) (fun _ _ => rfl) more hmore _ lhs s₁ rest
        (Nat.lt_succ_self _) (by omega) hrest hfront hmid

theorem lambda (hd : d.Complete bound) {params : List String} (hnodup : params.Nodup)
    {text : List TokenKind} {body : Expr} (hbody : Derives .expr text body) (start : Position)
    {s : Stream} {rest : List Token} (hbound : s.tokens.length ≤ bound) (hstop : Stops .expr rest)
    (h : Spells (nameList params ++ .mark .colon :: text) s.tokens rest) :
    Reads (d.lambda start) s rest fun e => e.bare = .lambda params body {} := by
  have hgo : ∀ s' : Stream, s'.tokens.length ≤ s.tokens.length →
      Spells (.mark .colon :: text) s'.tokens rest →
        Reads (do
            expect .colon
            let e ← d.expr
            return Expr.lambda params e (← rangeFrom start)) s' rest
          fun e => e.bare = .lambda params body {} := by
    intro s₁ hle hs₁
    refine Reads.expect hs₁ fun s₂ hs₂ => ?_
    have hlt := hs₁.length_lt_of_cons hs₂
    apply Reads.bind (hd.expr hbody (by omega) hs₂ hstop)
    rintro e s₃ hs₃ he
    exact Runs.rangeFrom fun _ => Runs.pure ⟨hs₃, congrArg (Expr.lambda params · {}) he⟩
  obtain ⟨mid, hnames, hmid⟩ := Spells.append_iff.mp h
  cases params with
  | nil =>
      obtain rfl := Spells.nil_iff.mp hnames
      exact Reads.ifPeek (.of_spells hmid) (hgo s (Nat.le_refl _) hmid)
  | cons name names =>
      have hfront : ¬ FrontIs .colon s.tokens := by
        cases names with
        | nil => exact not_frontIs_of_spells hnames nofun
        | cons _ _ => exact not_frontIs_of_spells hnames nofun
      have hcomma : ¬ FrontIs .comma mid := not_frontIs_of_spells hmid nofun
      refine Reads.unlessPeek hfront (Runs.rounds ?_)
      refine Reads.bind (reads_parameters hcomma (name :: names) nofun hnodup []
        (fun _ _ => List.not_mem_nil) _ s (Nat.lt_succ_self _) hnames) ?_
      rintro _ s₁ rfl rfl
      exact hgo s₁ hnames.length_le hmid

theorem conditional (hd : d.Complete bound) : Covers .expr (bound + 1) d.conditional := by
  intro text tree h s rest hbound hspells hstop
  refine Runs.peekStart fun start => ?_
  cases h with
  | lambda hnodup hbody =>
      refine Reads.ifConsume hspells fun s₁ hs₁ => ?_
      have hlt := hspells.length_lt_of_cons hs₁
      exact hd.lambda hnodup hbody start (by omega) hstop hs₁
  | @conditional yes cond no hyes hcond hno =>
      rw [List.append_assoc] at hspells
      obtain ⟨mid, hfirst, hmid⟩ := Spells.append_iff.mp hspells
      apply Reads.unlessConsume (hyes.not_frontIs rfl (by decide) hfirst)
      have hif : Stops .disjunction mid :=
        .of_spells hmid (Level.ends_of_continues rfl (by decide))
      apply Reads.bind (hd.disjunctionOf hyes hbound hfirst hif)
      rintro e s₁ rfl he
      have hle := hfirst.length_le
      refine Reads.ifConsume hmid fun s₂ hs₂ => ?_
      have hlt := hmid.length_lt_of_cons hs₂
      obtain ⟨last, hsecond, hlast⟩ := Spells.append_iff.mp hs₂
      have hle' := hsecond.length_le
      refine Reads.bind (hd.disjunctionOf hcond (by omega) hsecond (.of_spells hlast nofun)) ?_
      rintro e' s₃ rfl he'
      refine Reads.expect hlast fun s₄ hs₄ => ?_
      have hlt' := hlast.length_lt_of_cons hs₄
      apply Reads.bind (hd.expr hno (by omega) hs₄ hstop)
      rintro e'' s₅ hs₅ he''
      refine Runs.rangeFrom fun _ => Runs.pure ⟨hs₅, ?_⟩
      change Expr.conditional e.bare e'.bare e''.bare {} = _
      rw [he, he', he'']
  | expr htree =>
      apply Reads.unlessConsume (htree.not_frontIs rfl (by decide) hspells)
      apply Reads.bind (hd.disjunctionOf htree hbound hspells (hstop.mono (by decide)))
      rintro e s₁ rfl he
      have hif : ¬ FrontIs .ifWord s₁.tokens := hstop.not_frontIs rfl (by decide)
      exact Reads.unlessConsume hif (Runs.pure ⟨rfl, he⟩)

/-- A descent covers the streams that it is built for. -/
theorem ofLength (bound : Nat) : (Descent.ofLength bound).Complete bound := by
  induction bound with
  | zero =>
      refine ⟨?_, ?_, ?_, ?_⟩
      all_goals
        intro text tree h s rest hbound
        exact absurd hbound (Nat.not_lt_zero _)
  | succ bound ih =>
      have hdeeper : ∀ {level p}, Covers level (bound + 1) p →
          Covers level (bound + 1) (nested p) := by
        intro level p hp text tree h s rest hbound hspells hstop
        exact Reads.nested fun s' hs' => hp h (hs' ▸ hbound) (hs' ▸ hspells) hstop
      exact ⟨hdeeper ih.conditional, hdeeper ih.negation, hdeeper ih.unary, ih.disjunctionOf⟩

end Descent.Complete

/-- The whole parser reads an expression that the end follows. -/
theorem reads_whole {text : List TokenKind} {tree : Expr} (h : Derives .expr text tree)
    {s : Stream} {eof : Token} {rest : List Token} (heof : eof.isEof = true)
    (hspells : Spells text s.tokens (eof :: rest)) :
    Reads whole s rest fun e => e.bare = tree := by
  have hend : Spells [.eof] (eof :: rest) rest :=
    Spells.cons_iff.mpr ⟨eof, rest, rfl, Token.isEof_iff.mp heof, Spells.nil_iff.mpr rfl⟩
  have hpeek : peekEof s = .ok (false, s) := by
    obtain ⟨kind, more, rfl, hbegins⟩ := h.begins
    obtain ⟨token, mid, htokens, rfl, -⟩ := Spells.cons_iff.mp hspells
    rw [peekEof_of_cons htokens, Token.not_isEof_of_begins hbegins]
  have hread : Reads expression s (eof :: rest) fun e => e.bare = tree :=
    Runs.rounds ((Descent.Complete.ofLength _).expr h (Nat.lt_succ_self _) hspells
      (.of_spells hend nofun))
  refine Runs.look hpeek (Reads.bind hread fun e s₁ hs₁ he => ?_)
  exact Reads.expectEof heof hs₁ fun s₂ hs₂ => Runs.pure ⟨hs₂, he⟩

end Expr
end Stencil
