/-
What is read from some tokens, the parser finds there: each parser comes to the tree that is read
from the tokens in front of it, with its ranges, if nothing that would go on with it comes after.
-/
import Stencil.Proofs.Expr.Finding

namespace Stencil
namespace Expr

/-- The parser finds what the layer reads `extra` levels deeper, in streams of fewer than `bound`
tokens. -/
def Rereads (bound : Nat) (layer : Layer) (extra : Nat) (p : Parse Expr) : Prop :=
  ∀ ⦃depth chain : Nat⦄ ⦃taken : List Token⦄ ⦃e : Expr⦄,
    Parses layer (depth + extra) chain taken e → ∀ ⦃s : Stream⦄ ⦃rest : List Token⦄,
      s.tokens = taken ++ rest → Room bound depth s → Stops layer.level rest →
        Finds p s taken e

/-- The parsers that are called back into find what their layers read. -/
structure Descent.Rereading (bound : Nat) (d : Descent) : Prop where
  expr : Rereads bound .expr 1 d.expr
  notOperand : Rereads bound .negation 1 d.notOperand
  unaryOperand : Rereads bound .unary 1 d.unaryOperand
  disjunction : Rereads bound .disjunction 0 d.disjunction

section Items

variable {bound depth : Nat} {item : Parse Expr}

theorem Rereads.findable {layer : Layer} {extra : Nat} (h : Rereads bound layer extra item)
    (depth : Nat) :
    Findable bound depth layer.level item Stretch.tree Stretch.tokens
      (Stretch.Reads layer extra depth) :=
  fun _ hp _ _ hs hroom hstop => h hp hs hroom hstop

theorem Rereads.nested {layer : Layer} (h : Rereads bound layer 0 item) :
    Rereads bound layer 1 (nested item) := by
  intro depth chain taken e htree s rest hs hroom hstop
  have hmax := htree.depth_le
  have hdepth := hroom.depth
  refine Finds.restoringDepth (Finds.enter (by omega) fun s₁ hs₁ henter => ?_)
  rw [← hs₁] at hs
  exact (h htree hs (hroom.behind henter) hstop).imp fun a s₂ ⟨ha, hmoves⟩ =>
    ⟨ha, 1, henter.trans hmoves⟩

theorem findable_entry (hitem : Rereads bound .expr 1 item) (depth : Nat) :
    Findable bound depth .expr (entry item) EntryStretch.tree EntryStretch.tokens
      fun entry => ∀ p ∈ entry.parts, p.Reads .expr 1 depth := by
  rintro ⟨key, colon, value⟩ hparts s rest hs hroom hstop
  obtain ⟨hkey, hvalue⟩ := List.forall_mem_cons.mp hparts
  have hvalue := List.forall_mem_singleton.mp hvalue
  rw [EntryStretch.tokens, List.append_assoc, List.cons_append] at hs
  have hcolon : Stops .expr (colon.1 :: (value.tokens ++ rest)) := colon.stops nofun _
  refine (hitem hkey hs hroom hcolon).bind hs fun s₁ hs₁ hfirst => ?_
  refine Finds.expect colon hs₁ fun s₂ hs₂ hmark => ?_
  have hroom₂ := (hroom.behind hfirst).behind hmark
  refine (hitem hvalue hs₂ hroom₂ hstop).bind hs₂ fun s₃ _ hsecond => ?_
  exact Runs.pure ⟨rfl, hfirst.trans (hmark.trans hsecond)⟩

theorem findable_clause (hitem : Rereads bound .disjunction 0 item) (depth : Nat) :
    Findable bound depth .expr (clause item) ClauseStretch.tree ClauseStretch.tokens
      fun c => ∀ p ∈ c.parts, p.Reads .disjunction 0 depth := by
  rintro ⟨names, hne, inWord, source, conditions⟩ hparts s rest hs hroom hstop
  obtain ⟨hsource, hconditions⟩ := List.forall_mem_cons.mp hparts
  have hconditions := List.forall_mem_map.mp hconditions
  rw [ClauseStretch.tokens, List.append_assoc, List.cons_append, List.append_assoc] at hs
  have hif : Level.disjunction.Ends (.mark .ifWord) := Level.ends_of_continues rfl (by decide)
  have hrest : Stops .disjunction rest := hstop.mono (by decide)
  have hcomma : ¬ FrontIs .comma
      (inWord.1 :: (source.tokens ++ (headed Stretch.tokens conditions ++ rest))) :=
    not_frontIs_of_marked inWord rfl (by decide)
  refine Runs.rounds ?_
  refine (finds_targets hcomma hne names.spells _ hs (Nat.lt_succ_self _)).bind hs
    fun s₁ hs₁ hnames => ?_
  refine Finds.expect inWord hs₁ fun s₂ hs₂ hin => ?_
  have hroom₂ := (hroom.behind hnames).behind hin
  have hnext : Stops .disjunction (headed Stretch.tokens conditions ++ rest) := by
    cases conditions with
    | nil => exact hrest
    | cons c conditions => exact c.1.stops hif _
  refine (hitem hsource hs₂ hroom₂ hnext).bind hs₂ fun s₃ hs₃ hfirst => ?_
  apply Runs.rounds
  rw [conditions_eq]
  refine (finds_collect (hitem.findable depth) hif hconditions _ hs₃ (Nat.lt_succ_self _)
    (hroom₂.behind hfirst) hrest (hstop.not_frontIs rfl (by decide))).bind hs₃ fun s₄ _ hmore => ?_
  exact Runs.pure ⟨rfl, hnames.trans (hin.trans (hfirst.trans hmore))⟩

end Items

/-- The range up to the last token taken, of tokens that start where those before them do. -/
theorem Moves.rangeBehind {α : Type} {f : Range → Parse α} {R : α → Stream → Prop}
    {E : ExprError → Prop} {s s₁ : Stream} {taken more : List Token} {opened : Nat}
    (h : Moves s more opened s₁) (htaken : taken ≠ []) (hmore : more ≠ [])
    (hf : Runs (f (hull (taken ++ more))) s₁ R E) :
    Runs (Expr.rangeFrom (hull (taken ++ more)).start >>= f) s₁ R E := by
  have hrange : (⟨(hull (taken ++ more)).start, s₁.lastEnd⟩ : Range) = hull (taken ++ more) := by
    rw [hull_append htaken hmore, h.lastEnd, endBehind_of_ne_nil hmore _ {}]
    rfl
  exact Runs.look rfl (hrange ▸ hf)

/-- In front of what stops a level, `taken` stops it too. -/
def Keeps (level : Level) (taken : List Token) : Prop :=
  ∀ rest, Stops level rest → Stops level (taken ++ rest)

theorem Keeps.nil {level : Level} : Keeps level [] := fun _ h => h

theorem Keeps.append {level : Level} {taken more : List Token} (h : Keeps level taken)
    (hmore : ∀ rest, Stops level (more ++ rest)) : Keeps level (taken ++ more) := by
  intro rest _
  rw [List.append_assoc]
  exact h _ (hmore rest)

/-- From the state `a` in front of `taken` the loop comes to the state `b` behind it, with `chain`
more levels open. -/
def Reaches {σ : Type} (bound depth : Nat) (level : Level) (loop : σ → Nat → Parse Expr) (a : σ)
    (taken : List Token) (chain : Nat) (b : σ) : Prop :=
  ∀ ⦃s : Stream⦄ ⦃rest : List Token⦄ ⦃fuel : Nat⦄ ⦃Q : Expr → Stream → Prop⦄,
    s.tokens = taken ++ rest → s.tokens.length < fuel → Room bound depth s →
      Stops level rest →
        (∀ s' fuel', s'.tokens = rest → rest.length < fuel' → Moves s taken chain s' →
          Succeeds (loop b fuel') s' Q) → Succeeds (loop a fuel) s Q

/-- One round of the loop. -/
def Round {σ : Type} (bound depth : Nat) (level : Level) (loop : σ → Nat → Parse Expr) (a : σ)
    (taken : List Token) (b : σ) : Prop :=
  ∀ ⦃s : Stream⦄ ⦃rest : List Token⦄ ⦃fuel : Nat⦄ ⦃Q : Expr → Stream → Prop⦄,
    s.tokens = taken ++ rest → s.tokens.length ≤ fuel → Room bound depth s →
      Stops level rest →
        (∀ s', s'.tokens = rest → Moves s taken 1 s' → Succeeds (loop b fuel) s' Q) →
          Succeeds (loop a (fuel + 1)) s Q

namespace Reaches

variable {σ : Type} {bound depth chain : Nat} {level : Level} {loop : σ → Nat → Parse Expr}
  {a b c : σ} {taken more : List Token}

theorem refl (a : σ) : Reaches bound depth level loop a [] 0 a := by
  intro s rest fuel Q hs hfuel _ _ hgo
  rw [hs] at hfuel
  exact hgo s fuel hs hfuel (.refl s)

theorem mono {looser : Level} (h : Reaches bound depth level loop a taken chain b)
    (hrank : looser.rank ≤ level.rank) : Reaches bound depth looser loop a taken chain b :=
  fun _ _ _ _ hs hfuel hroom hstop => h hs hfuel hroom (hstop.mono hrank)

theorem step (h : Reaches bound depth level loop a taken chain b) (hne : more ≠ [])
    (hstops : ∀ rest, Stops level (more ++ rest))
    (hround : Round bound (depth + chain) level loop b more c) :
    Reaches bound depth level loop a (taken ++ more) (chain + 1) c := by
  intro s rest fuel Q hs hfuel hroom hstop hgo
  rw [List.append_assoc] at hs
  refine h hs hfuel hroom (hstops rest) fun s₁ fuel₁ hs₁ hfuel₁ hmoves => ?_
  obtain ⟨fuel₁, rfl⟩ := Nat.exists_eq_succ_of_ne_zero (Nat.ne_zero_of_lt hfuel₁)
  rw [← hs₁] at hfuel₁
  refine hround hs₁ (Nat.le_of_lt_succ hfuel₁) (hroom.behind hmoves) hstop fun s₂ hs₂ hmore => ?_
  have hlength' := hmore.length_eq
  have hpositive := List.length_pos_iff.mpr hne
  rw [hs₂] at hlength'
  exact hgo s₂ fuel₁ hs₂ (by omega) (hmoves.trans hmore)

/-- The loop comes to an end where nothing goes on with it. -/
theorem ends (h : Reaches bound depth level loop a taken chain b) {s : Stream} {rest : List Token}
    {fuel : Nat} {Q : Expr → Stream → Prop} (hs : s.tokens = taken ++ rest)
    (hfuel : s.tokens.length < fuel) (hroom : Room bound depth s) (hstop : Stops level rest)
    (hend : ∀ s' fuel', s'.tokens = rest → Moves s taken chain s' →
      Succeeds (loop b (fuel' + 1)) s' Q) : Succeeds (loop a fuel) s Q := by
  refine h hs hfuel hroom hstop fun s' fuel' hs' hfuel' hmoves => ?_
  obtain ⟨fuel', rfl⟩ := Nat.exists_eq_succ_of_ne_zero (Nat.ne_zero_of_lt hfuel')
  exact hend s' fuel' hs' hmoves

end Reaches

namespace Descent.Rereading

variable {bound : Nat} {d : Descent}

theorem list (hd : d.Rereading bound) (l : Marked .leftBracket) {depth : Nat}
    {taken rest : List Token} {items : List Stretch}
    (h : Listing Stretch.tokens .rightBracket taken items)
    (hitems : ∀ p ∈ items, p.Reads .expr 1 depth) {s s₁ : Stream} (hopen : Moves s [l.1] 0 s₁)
    (hs : s₁.tokens = taken ++ rest) (hroom : Room bound depth s₁) :
    Succeeds (d.list l.1.range.start) s₁ fun e s' =>
      e = .list (items.map (·.tree)) (hull (l.1 :: taken)) ∧ Moves s (l.1 :: taken) 0 s' := by
  have hclose : Mark.rightBracket.Closes := .inr (.inl rfl)
  have hstart : s.StartsAt l.1.range.start := .of_cons hopen.tokens
  have hfirst : ∀ {p : Stretch} {mid : List Token}, p.Reads .expr 1 depth →
      s₁.tokens = p.tokens ++ mid → ¬ FrontIs .rightBracket s₁.tokens :=
    fun hp => not_frontIs_of_begins hclose hp.begins
  cases h with
  | nil r =>
      refine Finds.ifConsume r hs fun s₂ _ hclosed => ?_
      have hdone := hopen.trans hclosed
      exact hdone.rangeFrom (List.cons_ne_nil _ _) hstart (Runs.pure ⟨rfl, hdone⟩)
  | single p r =>
      have hp := hitems p List.mem_cons_self
      rw [List.append_assoc] at hs
      apply Reads.unlessConsume (hfirst hp hs)
      refine (hd.expr hp hs hroom (r.stops hclose.ends _)).bind hs fun s₂ hs₂ hmoves => ?_
      apply Reads.unlessPeek (not_frontIs_of_marked r hs₂ (by decide))
      apply Reads.unlessConsume (not_frontIs_of_marked r hs₂ (by decide))
      refine Finds.expect r hs₂ fun s₃ _ hclosed => ?_
      have hdone := hopen.trans (hmoves.trans hclosed)
      exact hdone.rangeFrom (List.cons_ne_nil _ _) hstart (Runs.pure ⟨rfl, hdone⟩)
  | cons p w hmore =>
      obtain ⟨hp, hps⟩ := List.forall_mem_cons.mp hitems
      rw [List.append_assoc] at hs
      apply Reads.unlessConsume (hfirst hp hs)
      refine (hd.expr hp hs hroom (w.stops ends_comma _)).bind hs fun s₂ hs₂ hmoves => ?_
      apply Reads.unlessPeek (not_frontIs_of_marked w hs₂ (by decide))
      refine Finds.ifConsume w hs₂ fun s₃ hs₃ hcomma => ?_
      apply Runs.rounds
      rw [sequence_eq]
      refine (finds_listOf (hd.expr.findable depth) (fun p hp => hp.begins) hclose hmore hps _ hs₃
        (Nat.lt_succ_self _) ((hroom.behind hmoves).behind hcomma)).bind hs₃ fun s₄ _ hrest => ?_
      have hdone := hopen.trans (hmoves.trans (hcomma.trans hrest))
      exact hdone.rangeFrom (List.cons_ne_nil _ _) hstart (Runs.pure ⟨rfl, hdone⟩)

theorem comprehension (hd : d.Rereading bound) (l : Marked .leftBracket) {depth : Nat}
    {element : Stretch} {clauses : List (Marked .forWord × ClauseStretch)}
    (r : Marked .rightBracket) (helement : element.Reads .expr 1 depth) (hne : clauses ≠ [])
    (hclauses : ∀ c ∈ clauses, ∀ p ∈ c.2.parts, p.Reads .disjunction 0 depth)
    {s s₁ : Stream} {taken rest : List Token}
    (htaken : taken = element.tokens ++ (headed ClauseStretch.tokens clauses ++ [r.1]))
    (hopen : Moves s [l.1] 0 s₁) (hs : s₁.tokens = taken ++ rest) (hroom : Room bound depth s₁) :
    Succeeds (d.list l.1.range.start) s₁ fun e s' =>
      e = .comprehension element.tree (clauses.map (·.2.tree)) (hull (l.1 :: taken)) ∧
        Moves s (l.1 :: taken) 0 s' := by
  subst htaken
  have hclose : Mark.rightBracket.Closes := .inr (.inl rfl)
  have hstart : s.StartsAt l.1.range.start := .of_cons hopen.tokens
  have hfor : Level.expr.Ends (.mark .forWord) := nofun
  obtain ⟨first, others, rfl⟩ := List.exists_cons_of_ne_nil hne
  rw [List.append_assoc, List.append_assoc] at hs
  apply Reads.unlessConsume (not_frontIs_of_begins hclose helement.begins hs)
  refine (hd.expr helement hs hroom (first.1.stops hfor _)).bind hs
    fun s₂ hs₂ hmoves => ?_
  have hpeek : FrontIs .forWord s₂.tokens := by
    rw [hs₂]
    exact frontIs_cons.mpr (Token.isMark_iff.mpr first.1.2)
  refine Reads.ifPeek hpeek (Runs.rounds ?_)
  rw [clauses_eq]
  refine (finds_collect (findable_clause hd.disjunction depth) hfor hclauses _ hs₂
    (Nat.lt_succ_self _) (hroom.behind hmoves) (r.stops hclose.ends _)
    (not_frontIs_of_marked r rfl (by decide))).bind hs₂ fun s₃ hs₃ hmore => ?_
  refine Finds.expect r hs₃ fun s₄ _ hclosed => ?_
  have hdone := hopen.trans (hmoves.trans (hmore.trans hclosed))
  exact hdone.rangeFrom (List.cons_ne_nil _ _) hstart (Runs.pure ⟨rfl, hdone⟩)

theorem primary (hd : d.Rereading bound) : Rereads (bound + 1) .primary 0 d.primary := by
  intro depth chain taken e h s rest hs hroom _
  cases h with
  | @literal _ t value _ hkind =>
      refine Finds.next hs fun s₁ _ hmoves => ?_
      have hstart : s.StartsAt t.range.start := .of_cons hs
      dsimp only
      unfold TokenKind.literal? at hkind
      split at hkind <;> rename_i heq <;> cases hkind
      all_goals
        rw [heq]
        exact hmoves.rangeFrom (List.cons_ne_nil _ _) hstart (Runs.pure ⟨rfl, hmoves⟩)
  | name _ hkind =>
      refine Finds.next hs fun s₁ _ hmoves => ?_
      dsimp only
      rw [hkind]
      exact hmoves.rangeFrom (List.cons_ne_nil _ _) (.of_cons hs) (Runs.pure ⟨rfl, hmoves⟩)
  | paren l r htree =>
      rw [List.cons_append, List.append_assoc] at hs
      refine Finds.next hs fun s₁ hs₁ hopen => ?_
      dsimp only
      rw [l.2]
      refine (hd.expr htree hs₁ (hroom.behind_cons hopen) (r.stops nofun _)).bind hs₁
        fun s₂ hs₂ hinner => ?_
      refine Finds.expect r hs₂ fun s₃ _ hclosed => ?_
      have hdone := hopen.trans (hinner.trans hclosed)
      exact hdone.rangeFrom (List.cons_ne_nil _ _) (.of_cons hs) (Runs.pure ⟨rfl, hdone⟩)
  | list l _ hlisting hitems =>
      refine Finds.next hs fun s₁ hs₁ hopen => ?_
      dsimp only
      rw [l.2]
      exact hd.list l hlisting hitems hopen hs₁ (hroom.behind_cons hopen)
  | comprehension l r helement hne hclauses =>
      refine Finds.next hs fun s₁ hs₁ hopen => ?_
      dsimp only
      rw [l.2]
      exact hd.comprehension l r helement hne hclauses rfl hopen hs₁ (hroom.behind_cons hopen)
  | dict l _ hlisting hentries =>
      refine Finds.next hs fun s₁ hs₁ hopen => ?_
      dsimp only
      rw [l.2]
      apply Runs.rounds
      rw [entries_eq]
      refine (finds_listOf (findable_entry hd.expr depth) ?_ (.inr (.inr rfl)) hlisting hentries _
        hs₁ (Nat.lt_succ_self _) (hroom.behind_cons hopen)).bind hs₁ fun s₂ _ hmore => ?_
      · rintro entry hparts
        obtain ⟨t, more, htokens, hbegins⟩ := (hparts _ List.mem_cons_self).begins
        exact ⟨t, _, by rw [EntryStretch.tokens, htokens]; rfl, hbegins⟩
      · have hdone := hopen.trans hmore
        exact hdone.rangeFrom (List.cons_ne_nil _ _) (.of_cons hs) (Runs.pure ⟨rfl, hdone⟩)

end Descent.Rereading

/-- Nothing goes on with a primary. -/
theorem stops_primary (tokens : List Token) : Stops .primary tokens := by
  intro t _ tightest hkind
  unfold TokenKind.continues? at hkind
  split at hkind <;> cases hkind <;> decide

/-- The tokens begin with a primary, and the suffixes behind it lead to `e`. -/
def Descent.Suffixing (d : Descent) (bound depth : Nat) (tokens : List Token) (chain : Nat)
    (e : Expr) : Prop :=
  ∃ first value more, tokens = first ++ more ∧ Parses .primary depth 0 first value ∧
    ∀ start, start = (hull tokens).start →
      Reaches bound depth .primary (d.suffixes start) value more chain e

theorem Descent.Suffixing.step {d : Descent} {bound depth chain : Nat} {tokens text : List Token}
    {e e' : Expr} (h : d.Suffixing bound depth tokens chain e) (hne : tokens ≠ [])
    (htext : text ≠ [])
    (hround : Round bound (depth + chain) .primary
      (d.suffixes (hull (tokens ++ text)).start) e text e') :
    d.Suffixing bound depth (tokens ++ text) (chain + 1) e' := by
  obtain ⟨first, value, more, rfl, hvalue, hreach⟩ := h
  refine ⟨first, value, more ++ text, List.append_assoc .., hvalue, ?_⟩
  rintro start rfl
  have hstart := congrArg Range.start (hull_append hne htext)
  exact (hreach _ hstart).step htext (fun _ => stops_primary _) hround

namespace Descent.Rereading

variable {bound : Nat} {d : Descent}

section Suffixes

variable {depth chain : Nat} {tokens : List Token} {value : Expr}

theorem member (dot : Marked .dot) {t : Token} {name : String} (hne : tokens ≠ [])
    (hdepth : depth < maxDepth) (hkind : t.kind = .ident name) :
    Round bound depth .primary (d.suffixes (hull (tokens ++ [dot.1, t])).start) value [dot.1, t]
      (.member value name (hull (tokens ++ [dot.1, t]))) := by
  intro s rest fuel Q hs _ hroom _ hgo
  have hle := hroom.depth
  refine Finds.ifConsume dot hs fun s₁ hs₁ hdot => ?_
  refine Finds.enter (by rw [hdot.depth]; omega) fun s₂ hs₂ henter => ?_
  rw [← hs₂] at hs₁
  refine Finds.expectIdent hkind hs₁ fun s₃ hs₃ hname => ?_
  have hdone := hdot.trans (henter.trans hname)
  exact hdone.rangeBehind hne (List.cons_ne_nil _ _) (hgo s₃ hs₃ hdone)

theorem index (hd : d.Rereading bound) (l : Marked .leftBracket) (r : Marked .rightBracket)
    {inside : List Token} {position : Expr} (hne : tokens ≠ [])
    (hposition : Parses .expr (depth + 2) 0 inside position) :
    Round bound depth .primary (d.suffixes (hull (tokens ++ l.1 :: (inside ++ [r.1]))).start) value
      (l.1 :: (inside ++ [r.1]))
      (.index value position (hull (tokens ++ l.1 :: (inside ++ [r.1])))) := by
  intro s rest fuel Q hs _ hroom _ hgo
  have hle := hroom.depth
  have hmax := hposition.depth_le
  rw [List.cons_append, List.append_assoc] at hs
  refine Reads.unlessConsume (not_frontIs_of_marked l hs (by decide)) ?_
  refine Finds.ifConsume l hs fun s₁ hs₁ hopen => ?_
  refine Finds.enter (by rw [hopen.depth]; omega) fun s₂ hs₂ henter => ?_
  rw [← hs₂] at hs₁
  refine (hd.expr hposition hs₁ ((hroom.behind hopen).behind henter) (r.stops nofun _)).bind
    hs₁ fun s₃ hs₃ hinside => ?_
  refine Finds.expect r hs₃ fun s₄ hs₄ hclosed => ?_
  have hdone := hopen.trans (henter.trans (hinside.trans hclosed))
  exact hdone.rangeBehind hne (List.cons_ne_nil _ _) (hgo s₄ hs₄ hdone)

theorem call (hd : d.Rereading bound) (l : Marked .leftParen) {inside : List Token}
    {args : List Stretch} (hne : tokens ≠ []) (hdepth : depth < maxDepth)
    (hlisting : Listing Stretch.tokens .rightParen inside args)
    (hargs : ∀ p ∈ args, p.Reads .expr 1 (depth + 1)) :
    Round bound depth .primary (d.suffixes (hull (tokens ++ l.1 :: inside)).start) value
      (l.1 :: inside) (.call value (args.map (·.tree)) (hull (tokens ++ l.1 :: inside))) := by
  intro s rest fuel Q hs _ hroom _ hgo
  have hle := hroom.depth
  refine Reads.unlessConsume (not_frontIs_of_marked l hs (by decide)) ?_
  refine Reads.unlessConsume (not_frontIs_of_marked l hs (by decide)) ?_
  refine Finds.ifConsume l hs fun s₁ hs₁ hopen => ?_
  refine Finds.enter (by rw [hopen.depth]; omega) fun s₂ hs₂ henter => ?_
  rw [← hs₂] at hs₁
  apply Runs.rounds
  rw [sequence_eq]
  refine (finds_listOf (hd.expr.findable _) (fun p hp => hp.begins) (.inl rfl) hlisting
    hargs _ hs₁ (Nat.lt_succ_self _) ((hroom.behind hopen).behind henter)).bind hs₁
    fun s₃ hs₃ hinside => ?_
  have hdone := hopen.trans (henter.trans hinside)
  exact hdone.rangeBehind hne (List.cons_ne_nil _ _) (hgo s₃ hs₃ hdone)

theorem suffixing (hd : d.Rereading bound) {e : Expr}
    (h : Parses .suffixed depth chain tokens e) : d.Suffixing bound depth tokens chain e := by
  generalize hlayer : Layer.suffixed = layer at h
  induction h with
  | suffixed h _ =>
      cases hlayer
      exact ⟨_, _, [], (List.append_nil _).symm, h, fun _ _ => .refl _⟩
  | member dot h hmax hkind ih =>
      have hne := h.range_eq.1
      exact (ih hlayer).step hne (List.cons_ne_nil _ _) (member dot hne hmax hkind)
  | index l r h hposition ih _ =>
      have hne := h.range_eq.1
      exact (ih hlayer).step hne (List.cons_ne_nil _ _) (hd.index l r hne hposition)
  | call l h hmax hlisting hargs ih _ =>
      have hne := h.range_eq.1
      exact (ih hlayer).step hne (List.cons_ne_nil _ _) (hd.call l hne hmax hlisting hargs)
  | _ => cases hlayer

/-- Where nothing goes on with a suffix, the loop over them stops. -/
theorem suffixes_stop {start : Position} {fuel : Nat} {s : Stream} {Q : Expr → Stream → Prop}
    (hstop : Stops .suffixed s.tokens) (h : Q value s) :
    Succeeds (d.suffixes start value (fuel + 1)) s Q := by
  have hnone : ∀ {m : Mark}, TokenKind.continues? (.mark m) = some .suffixed →
      ¬ FrontIs m s.tokens := fun hm => hstop.not_frontIs hm (by decide)
  refine Reads.unlessConsume (hnone rfl) (Reads.unlessConsume (hnone rfl) ?_)
  exact Reads.unlessConsume (hnone rfl) (Runs.pure h)

end Suffixes

theorem suffixed (hd : d.Rereading bound) : Rereads (bound + 1) .suffixed 0 d.suffixed := by
  intro depth chain taken e h s rest hs hroom hstop
  obtain ⟨first, value, more, rfl, hvalue, hreach⟩ := hd.suffixing h
  obtain ⟨t, others, rfl, -⟩ := hvalue.begins
  apply Finds.restoringDepth
  apply Finds.peekStart hs
  rw [List.append_assoc] at hs
  refine (hd.primary hvalue hs hroom (stops_primary _)).bind hs fun s₁ hs₁ hfirst => ?_
  refine Runs.rounds ((hreach _ rfl).ends hs₁ (Nat.lt_succ_self _) (hroom.behind_cons hfirst)
    (stops_primary _) fun s₂ fuel hs₂ hmore => ?_)
  rw [← hs₂] at hstop
  exact suffixes_stop hstop ⟨rfl, _, hfirst.trans hmore⟩

theorem power (hd : d.Rereading bound) : Rereads (bound + 1) .power 0 d.power := by
  intro depth chain taken e h s rest hs hroom hstop
  cases h with
  | power h =>
      refine (hd.suffixed h hs hroom (hstop.mono (by decide))).bind hs fun s₁ hs₁ hmoves => ?_
      have hnot : ¬ FrontIs .doubleStar s₁.tokens := by
        rw [hs₁]
        exact hstop.not_frontIs rfl (by decide)
      exact Reads.unlessConsume hnot (Runs.pure ⟨rfl, hmoves⟩)
  | pow w hbase hexponent =>
      rw [List.append_assoc, List.cons_append] at hs
      have hends : Level.suffixed.Ends (.mark .doubleStar) :=
        Level.ends_of_continues rfl (by decide)
      refine (hd.suffixed hbase hs hroom (w.stops hends _)).bind hs fun s₁ hs₁ hfirst => ?_
      refine Finds.ifConsume w hs₁ fun s₂ hs₂ hpow => ?_
      have hroom₂ := (hroom.behind hfirst).behind_cons hpow
      refine (hd.unaryOperand hexponent hs₂ hroom₂ hstop.unary).bind hs₂ fun s₃ _ hmore => ?_
      refine Runs.pure ⟨?_, hfirst.trans (hpow.trans hmore)⟩
      exact congrArg _ (hbase.span_eq hexponent [w.1])

theorem unary (hd : d.Rereading bound) : Rereads (bound + 1) .unary 0 d.unary := by
  intro depth chain taken e h s rest hs hroom hstop
  cases h with
  | unary h =>
      refine Runs.peekStart fun start => ?_
      apply Reads.unlessConsume (h.not_frontIs rfl (by decide) hs)
      apply Reads.unlessConsume (h.not_frontIs rfl (by decide) hs)
      exact hd.power h hs hroom (hstop.mono (by decide))
  | @sign _ tokens operand op m w hop h =>
      have hsign : ∀ {s₁ : Stream}, s₁.tokens = tokens ++ rest → Moves s [w.1] 0 s₁ →
          Succeeds (do
            let operand ← d.unaryOperand
            return Expr.unary op operand (← Expr.rangeFrom w.1.range.start)) s₁
          fun e s' => e = .unary op operand (hull (w.1 :: tokens)) ∧
            Moves s (w.1 :: tokens) 0 s' := by
        intro s₁ hs₁ hmark
        refine (hd.unaryOperand h hs₁ (hroom.behind_cons hmark) hstop).bind hs₁
          fun s₂ _ hmore => ?_
        have hdone := hmark.trans hmore
        exact hdone.rangeFrom (List.cons_ne_nil _ _) (.of_cons hs) (Runs.pure ⟨rfl, hdone⟩)
      apply Finds.peekStart hs
      cases op with
      | neg =>
          cases hop
          exact Finds.ifConsume w hs fun s₁ hs₁ hmark => hsign hs₁ hmark
      | pos =>
          cases hop
          refine Reads.unlessConsume (not_frontIs_of_marked w hs (by decide)) ?_
          exact Finds.ifConsume w hs fun s₁ hs₁ hmark => hsign hs₁ hmark
      | not => cases hop

section Operators

variable {least depth chain : Nat} {tokens more : List Token} {lhs rhs e : Expr} {op : BinaryOp}

/-- Where nothing binds tightly enough, the loop over operators stops. -/
theorem operators_stop {fuel : Nat} {s : Stream} (h : frontPrecedence s.tokens < least) :
    d.operators least e (fuel + 1) s = .ok (e, s) := by
  have hstop : (decide (frontPrecedence s.tokens = 0) ||
      decide (frontPrecedence s.tokens < least)) = true := by
    rw [decide_eq_true h, Bool.or_true]
  unfold operators
  rw [bind_of_ok (peekPrecedence_eq s), if_pos hstop]
  rfl

/-- A round of the loop, up to what follows its operand. -/
theorem operand {fuel : Nat} {s : Stream} {Q : Expr → Stream → Prop} {first rest : List Token}
    {operand : Expr} (hd : d.Rereading bound) (w : Spelled op)
    (hleast : least ≤ op.level.precedence) (hpositive : 0 < op.level.precedence)
    (hoperand : Parses .unary (depth + 1) 0 first operand)
    (hs : s.tokens = w.tokens ++ (first ++ rest)) (hroom : Room (bound + 1) depth s)
    (hstop : Stops .unary rest)
    (hgo : ∀ s', s'.tokens = rest → Moves s (w.tokens ++ first) 1 s' →
      Succeeds (do
        let following ← peekPrecedence
        let rhs ← if op.level.precedence < following
          then restoringDepth (d.operators following operand fuel)
          else Pure.pure operand
        d.operators least (.binary op lhs rhs (lhs.span rhs)) fuel) s' Q) :
    Succeeds (d.operators least lhs (fuel + 1)) s Q := by
  have hfront : frontPrecedence s.tokens = op.level.precedence := by
    rw [hs]
    exact w.frontPrecedence_eq _
  have hpower : op.level ≠ .power := by
    intro heq
    rw [heq] at hpositive
    exact absurd hpositive (Nat.lt_irrefl 0)
  have hmax := hoperand.depth_le
  have hdepth := hroom.depth
  refine Runs.peekPrecedence (Runs.ite (fun hend => ?_) fun _ => ?_)
  · simp only [Bool.or_eq_true, decide_eq_true_eq] at hend
    omega
  rw [hfront]
  refine Finds.enter (by omega) fun s₁ hs₁ henter => ?_
  rw [← hs₁] at hs
  refine Finds.operator w hpower hs fun s₂ hs₂ hop => ?_
  have hroom₂ := (hroom.behind henter).behind hop
  refine (hd.unary hoperand hs₂ hroom₂ hstop).bind hs₂ fun s₃ hs₃ hfirst => ?_
  exact hgo s₃ hs₃ (henter.trans (hop.trans hfirst))

theorem factor (hd : d.Rereading bound) (w : Spelled op)
    (hlhs : Parses .product depth chain tokens lhs) (hop : op.level = .product)
    (hrhs : Parses .unary (depth + chain + 1) 0 more rhs) (hleast : least ≤ 3) :
    Round (bound + 1) (depth + chain) .unary (d.operators least) lhs (w.tokens ++ more)
      (.binary op lhs rhs (hull (tokens ++ (w.tokens ++ more)))) := by
  intro s rest fuel Q hs _ hroom hstop hgo
  have hprecedence : op.level.precedence = 3 := by rw [hop]; rfl
  rw [List.append_assoc] at hs
  refine hd.operand w (by omega) (by omega) hrhs hs hroom hstop fun s₁ hs₁ hmoves => ?_
  have hle := frontPrecedence_le s₁.tokens
  refine Runs.peekPrecedence (Runs.ite (fun hlt => by omega) fun _ => ?_)
  rw [← hlhs.span_eq hrhs w.tokens] at hgo
  exact hgo s₁ hs₁ hmoves

/-- A product is an operand, and factors that go on with it. -/
theorem factors (hd : d.Rereading bound) (h : Parses .product depth chain tokens e) :
    ∃ first operand more, tokens = first ++ more ∧ Parses .unary depth 0 first operand ∧
      Keeps .unary more ∧
        ∀ least ≤ 3, Reaches (bound + 1) depth .unary (d.operators least) operand more chain e := by
  generalize hlayer : Layer.product = layer at h
  induction h with
  | product h _ =>
      cases hlayer
      exact ⟨_, _, [], (List.append_nil _).symm, h, .nil, fun _ _ => .refl _⟩
  | @factor _ _ _ last _ _ _ w hlhs hop hrhs ih _ =>
      obtain ⟨first, operand, more, rfl, hoperand, hkeeps, hreach⟩ := ih hlayer
      have hstops : ∀ rest, Stops .unary (w.tokens ++ last ++ rest) :=
        w.stops_around hop (by decide) last
      refine ⟨first, operand, _, List.append_assoc .., hoperand, hkeeps.append hstops, ?_⟩
      intro least hleast
      exact (hreach least hleast).step (List.append_ne_nil_of_left_ne_nil w.tokens_ne_nil _) hstops
        (hd.factor w hlhs hop hrhs hleast)
  | _ => cases hlayer

/-- The factors of a term are read before the next term. -/
theorem term (hd : d.Rereading bound) (w : Spelled op) (hlhs : Parses .sum depth chain tokens lhs)
    (hop : op.level = .sum) {deeper : Nat}
    (hrhs : Parses .product (depth + chain + 1) deeper more rhs) :
    Round (bound + 1) (depth + chain) .product (d.operators 2) lhs (w.tokens ++ more)
      (.binary op lhs rhs (hull (tokens ++ (w.tokens ++ more)))) := by
  intro s rest fuel Q hs hfuel hroom hstop hgo
  have hprecedence : op.level.precedence = 2 := by rw [hop]; rfl
  rw [← hlhs.span_eq hrhs w.tokens] at hgo
  obtain ⟨first, operand, others, rfl, hoperand, hkeeps, hreach⟩ := hd.factors hrhs
  rw [List.append_assoc, List.append_assoc] at hs
  have hrest : frontPrecedence rest < 3 := hstop.frontPrecedence_lt (by decide)
  have hunary : Stops .unary rest := hstop.mono (by decide)
  refine hd.operand w (by omega) (by omega) hoperand hs hroom (hkeeps rest hunary)
    fun s₁ hs₁ hmoves => ?_
  have hlength := hmoves.length_eq
  have hpositive := List.length_pos_iff.mpr w.tokens_ne_nil
  rw [List.length_append] at hlength
  obtain ⟨fuel, rfl⟩ : ∃ n, fuel = n + 1 := Nat.exists_eq_succ_of_ne_zero (by omega)
  -- However tightly the next token binds, the operand and its factors are found.
  have hfound : Finds (restoringDepth (d.operators 3 operand (fuel + 1))) s₁ others rhs := by
    refine Finds.restoringDepth ((hreach 3 (Nat.le_refl 3)).ends hs₁ (by omega)
      (hroom.behind hmoves) hunary fun s₂ _ hs₂ hmore => ?_)
    rw [← hs₂] at hrest
    exact Runs.of_ok (operators_stop hrest) ⟨rfl, _, hmore⟩
  have hnext : ∀ s₂, s₂.tokens = rest → Moves s₁ others 0 s₂ →
      Succeeds (d.operators 2 (.binary op lhs rhs (lhs.span rhs)) (fuel + 1)) s₂ Q := by
    intro s₂ hs₂ hmore
    have hdone := hmoves.trans hmore
    rw [List.append_assoc] at hdone
    exact hgo s₂ hs₂ hdone
  have hle := frontPrecedence_le s₁.tokens
  refine Runs.peekPrecedence (Runs.ite (fun hlt => ?_) fun hnot => ?_)
  · rw [show frontPrecedence s₁.tokens = 3 by omega]
    exact hfound.bind hs₁ hnext
  · have hthree : frontPrecedence s₁.tokens < 3 := by omega
    have hequal : restoringDepth (d.operators 3 operand (fuel + 1)) s₁ = .ok (operand, s₁) := by
      rw [restoringDepth_eq, bind_of_ok (operators_stop hthree)]
    unfold Finds Succeeds Runs at hfound
    rw [hequal] at hfound
    exact Finds.bind hfound hs₁ hnext

/-- A sum is the operand that it starts with, the factors behind it, and terms. -/
theorem terms (hd : d.Rereading bound) (h : Parses .sum depth chain tokens e) :
    ∃ first operand more, tokens = first ++ more ∧ Parses .unary depth 0 first operand ∧
      Keeps .unary more ∧
        Reaches (bound + 1) depth .product (d.operators 2) operand more chain e := by
  generalize hlayer : Layer.sum = layer at h
  induction h with
  | sum h _ =>
      obtain ⟨first, operand, more, rfl, hoperand, hkeeps, hreach⟩ := hd.factors h
      exact ⟨first, operand, more, rfl, hoperand, hkeeps, (hreach 2 (by decide)).mono (by decide)⟩
  | @term _ _ _ _ last _ _ _ w hlhs hop hrhs ih _ =>
      obtain ⟨first, operand, more, rfl, hoperand, hkeeps, hreach⟩ := ih hlayer
      have hunary : ∀ rest, Stops .unary (w.tokens ++ last ++ rest) :=
        w.stops_around hop (by decide) last
      have hproduct : ∀ rest, Stops .product (w.tokens ++ last ++ rest) :=
        w.stops_around hop (by decide) last
      refine ⟨first, operand, _, List.append_assoc .., hoperand, hkeeps.append hunary, ?_⟩
      exact hreach.step (List.append_ne_nil_of_left_ne_nil w.tokens_ne_nil _) hproduct
        (hd.term w hlhs hop hrhs)
  | _ => cases hlayer

end Operators

theorem arithmetic (hd : d.Rereading bound) : Rereads (bound + 1) .sum 0 d.arithmetic := by
  intro depth chain taken e h s rest hs hroom hstop
  obtain ⟨first, operand, more, rfl, hoperand, hkeeps, hreach⟩ := hd.terms h
  have hproduct : Stops .product rest := hstop.mono (by decide)
  rw [List.append_assoc] at hs
  refine (hd.unary hoperand hs hroom (hkeeps rest (hstop.mono (by decide)))).bind hs
    fun s₁ hs₁ hfirst => ?_
  refine Runs.imp (P := fun e' s' => e' = e ∧ Moves s₁ more 0 s') (Finds.restoringDepth ?_) ?_
  · refine Runs.rounds (hreach.ends hs₁ (Nat.lt_succ_self _) (hroom.behind hfirst) hproduct
      fun s₂ _ hs₂ hmore => ?_)
    have hfront : frontPrecedence rest < 2 := hstop.frontPrecedence_lt (by decide)
    rw [← hs₂] at hfront
    exact Runs.of_ok (operators_stop hfront) ⟨rfl, _, hmore⟩
  · rintro _ s₂ ⟨rfl, hmore⟩
    exact ⟨rfl, hfirst.trans hmore⟩

section Comparisons

variable {depth chain : Nat} {tokens more : List Token} {lhs rhs e : Expr} {op : BinaryOp}
  {last : Stretch}

/-- Where no comparison follows, the loop over them stops. -/
theorem comparisons_stop {before : Option Expr} {fuel : Nat} {s : Stream}
    (h : frontPrecedence s.tokens < 1) :
    d.comparisons before e (fuel + 1) s = .ok (before.getD e, s) := by
  unfold comparisons
  rw [bind_of_ok (peekPrecedence_eq s), if_pos (Nat.ne_of_lt h)]
  rfl

/-- The comparisons read so far, and the last operand. -/
abbrev comparing (d : Descent) (state : Option Expr × Expr) (fuel : Nat) : Parse Expr :=
  d.comparisons state.1 state.2 fuel

/-- One more comparison. -/
theorem pair (hd : d.Rereading bound) (w : Spelled op) (hop : op.level = .comparison) {deeper : Nat}
    (hrhs : Parses .sum (depth + 1) deeper more rhs) (before : Option Expr) (lhs : Expr) :
    Round (bound + 1) depth .sum (comparing d) (before, lhs) (w.tokens ++ more)
      (some (before.elim (.binary op lhs rhs (lhs.span rhs)) fun e =>
        .and e (.binary op lhs rhs (lhs.span rhs)) (e.span (.binary op lhs rhs (lhs.span rhs)))),
        rhs) := by
  intro s rest fuel Q hs _ hroom hstop hgo
  rw [List.append_assoc] at hs
  have hfront : frontPrecedence s.tokens = 1 := by
    rw [hs, w.frontPrecedence_eq, hop]
    rfl
  have hpower : op.level ≠ .power := by
    rw [hop]
    decide
  have hmax := hrhs.depth_le
  have hdepth := hroom.depth
  cases before with
  | _ =>
      refine Runs.peekPrecedence (Runs.ite (fun hne => absurd hfront hne) fun _ => ?_)
      refine Finds.enter (by omega) fun s₁ hs₁ henter => ?_
      rw [← hs₁] at hs
      refine Finds.operator w hpower hs fun s₂ hs₂ hop => ?_
      have hroom₂ := (hroom.behind henter).behind hop
      refine (hd.arithmetic hrhs hs₂ hroom₂ hstop).bind hs₂ fun s₃ hs₃ hmore => ?_
      exact hgo s₃ hs₃ (henter.trans (hop.trans hmore))

theorem compared (hd : d.Rereading bound) (h : Parses (.comparison last) depth chain tokens e) :
    ∃ (first : Stretch) (more : List Token), tokens = first.tokens ++ more ∧
      Chained .sum depth first.tokens first.tree ∧ Keeps .sum more ∧
        Reaches (bound + 1) depth .sum (comparing d) (none, first.tree) more chain
          (some e, last.tree) := by
  generalize hlayer : Layer.comparison last = layer at h
  induction h generalizing last with
  | @pair depth _ _ tokens last' lhs _ _ w hlhs hop hrhs _ _ =>
      cases hlayer
      have hstops : ∀ rest, Stops .sum (w.tokens ++ last' ++ rest) :=
        w.stops_around hop (by decide) last'
      refine ⟨⟨tokens, lhs⟩, w.tokens ++ last', rfl, ⟨_, hlhs⟩, fun rest _ => hstops rest, ?_⟩
      have hround := hd.pair w hop hrhs none lhs
      rw [hlhs.span_eq hrhs w.tokens] at hround
      have hstart : Reaches (bound + 1) depth .sum (comparing d) (none, lhs) [] 0 (none, lhs) :=
        .refl _
      exact hstart.step (List.append_ne_nil_of_left_ne_nil w.tokens_ne_nil _) hstops hround
  | @link _ _ _ _ last' e rhs last op w h hop hrhs ih _ =>
      cases hlayer
      obtain ⟨first, more, rfl, hfirst, hkeeps, hreach⟩ := ih rfl
      have hstops : ∀ rest, Stops .sum (w.tokens ++ last' ++ rest) :=
        w.stops_around hop (by decide) last'
      refine ⟨first, _, List.append_assoc .., hfirst, hkeeps.append hstops, ?_⟩
      obtain ⟨_, _, _, _, _, -, hlast, -⟩ := h.of_comparison
      have hround := hd.pair w hop hrhs (some e) last.tree
      have hspan : e.span (.binary op last.tree rhs (last.tree.span rhs)) = _ :=
        h.span_eq hrhs w.tokens
      rw [Option.elim_some, hspan, hlast.span_eq hrhs w.tokens] at hround
      exact hreach.step (List.append_ne_nil_of_left_ne_nil w.tokens_ne_nil _) hstops hround
  | _ => cases hlayer

end Comparisons

theorem negation (hd : d.Rereading bound) : Rereads (bound + 1) .negation 0 d.negation := by
  intro depth chain taken e h s rest hs hroom hstop
  have hsum : Stops .sum rest := hstop.mono (by decide)
  have hcomparison : Stops .comparison rest := hstop.mono (by decide)
  have hfront : frontPrecedence rest < 1 := hcomparison.frontPrecedence_lt (by decide)
  cases h with
  | not w h =>
      apply Finds.peekStart hs
      refine Finds.ifConsume w hs fun s₁ hs₁ hmark => ?_
      refine (hd.notOperand h hs₁ (hroom.behind_cons hmark) hstop).bind hs₁ fun s₂ _ hmore => ?_
      have hdone := hmark.trans hmore
      exact hdone.rangeFrom (List.cons_ne_nil _ _) (.of_cons hs) (Runs.pure ⟨rfl, hdone⟩)
  | operand h =>
      refine Runs.peekStart fun start => ?_
      apply Reads.unlessConsume (h.not_frontIs rfl (by decide) hs)
      apply Finds.restoringDepth
      refine (hd.arithmetic h hs hroom hsum).bind hs fun s₁ hs₁ hfirst => ?_
      rw [← hs₁] at hfront
      exact Runs.rounds (Runs.of_ok (comparisons_stop hfront) ⟨rfl, _, hfirst⟩)
  | compared h =>
      refine Runs.peekStart fun start => ?_
      have hrank : Level.negation.rank < Level.comparison.rank := by decide
      apply Reads.unlessConsume (h.not_frontIs rfl hrank hs)
      obtain ⟨first, more, rfl, ⟨_, hfirst⟩, hkeeps, hreach⟩ := hd.compared h
      rw [List.append_assoc] at hs
      apply Finds.restoringDepth
      refine (hd.arithmetic hfirst hs hroom (hkeeps rest hsum)).bind hs fun s₁ hs₁ hfirst => ?_
      refine Runs.rounds (hreach.ends hs₁ (Nat.lt_succ_self _) (hroom.behind hfirst) hsum
        fun s₂ _ hs₂ hmore => ?_)
      rw [← hs₂] at hfront
      exact Runs.of_ok (comparisons_stop hfront) ⟨rfl, _, hfirst.trans hmore⟩

section Joins

variable {depth chain : Nat} {tokens more : List Token} {lhs rhs e : Expr} {word : Mark}
  {operand : Parse Expr} {join : Expr → Expr → Expr} {level : Level}

/-- One more operand with the word in front of it. -/
theorem joining (w : Marked word) (hdepth : depth < maxDepth)
    (hoperand : ∀ {s : Stream} {rest : List Token}, s.tokens = more ++ rest →
      Room bound (depth + 1) s → Stops level rest → Finds operand s more rhs)
    (hjoin : join lhs rhs = e) :
    Round bound depth level (joins word operand join) lhs (w.1 :: more) e := by
  subst hjoin
  intro s rest fuel Q hs _ hroom hstop hgo
  have hle := hroom.depth
  refine Finds.ifConsume w hs fun s₁ hs₁ hword => ?_
  refine Finds.enter (by rw [hword.depth]; omega) fun s₂ hs₂ henter => ?_
  rw [← hs₂] at hs₁
  have hroom₂ := (hroom.behind hword).behind henter
  refine (hoperand hs₁ hroom₂ hstop).bind hs₁ fun s₃ hs₃ hmore => ?_
  exact hgo s₃ hs₃ (hword.trans (henter.trans hmore))

/-- A conjunction is an operand, and operands behind the word `and`. -/
theorem conjuncts (hd : d.Rereading bound) (h : Parses .conjunction depth chain tokens e) :
    ∃ first operand more, tokens = first ++ more ∧ Parses .negation depth 0 first operand ∧
      Keeps .negation more ∧
        Reaches (bound + 1) depth .negation
          (joins .andWord d.negation fun lhs rhs => .and lhs rhs (lhs.span rhs)) operand more
          chain e := by
  generalize hlayer : Layer.conjunction = layer at h
  induction h with
  | conjunction h _ =>
      cases hlayer
      exact ⟨_, _, [], (List.append_nil _).symm, h, .nil, .refl _⟩
  | @and _ _ _ last lhs rhs w hlhs hrhs ih _ =>
      obtain ⟨first, operand, more, rfl, hoperand, hkeeps, hreach⟩ := ih hlayer
      have hends : Level.negation.Ends (.mark .andWord) := Level.ends_of_continues rfl (by decide)
      have hstops : ∀ rest, Stops .negation (w.1 :: last ++ rest) := fun _ => w.stops hends _
      have hmax := hrhs.depth_le
      have hspan := hlhs.span_eq hrhs [w.1]
      refine ⟨first, operand, _, List.append_assoc .., hoperand, hkeeps.append hstops, ?_⟩
      exact hreach.step (List.cons_ne_nil _ _) hstops (joining w (by omega)
        (fun hs hroom hstop => hd.negation hrhs hs hroom hstop) (congrArg (Expr.and lhs rhs) hspan))
  | _ => cases hlayer

end Joins

theorem conjunction (hd : d.Rereading bound) :
    Rereads (bound + 1) .conjunction 0 d.conjunction := by
  intro depth chain taken e h s rest hs hroom hstop
  obtain ⟨first, operand, more, rfl, hoperand, hkeeps, hreach⟩ := hd.conjuncts h
  have hrest : Stops .negation rest := hstop.mono (by decide)
  rw [List.append_assoc] at hs
  apply Finds.restoringDepth
  refine (hd.negation hoperand hs hroom (hkeeps rest hrest)).bind hs fun s₁ hs₁ hfirst => ?_
  apply Runs.rounds
  rw [conjuncts_eq]
  refine hreach.ends hs₁ (Nat.lt_succ_self _) (hroom.behind hfirst) hrest
    fun s₂ _ hs₂ hmore => ?_
  refine Reads.unlessConsume ?_ (Runs.pure ⟨rfl, _, hfirst.trans hmore⟩)
  rw [hs₂]
  exact hstop.not_frontIs rfl (by decide)

/-- A disjunction is a conjunction, and conjunctions behind the word `or`. -/
theorem disjuncts (hd : d.Rereading bound) {depth chain : Nat} {tokens : List Token} {e : Expr}
    (h : Parses .disjuncts depth chain tokens e) :
    ∃ first operand more, tokens = first ++ more ∧ Chained .conjunction depth first operand ∧
      Keeps .conjunction more ∧
        Reaches (bound + 1) depth .conjunction
          (joins .orWord d.conjunction fun lhs rhs => .or lhs rhs (lhs.span rhs)) operand more
          chain e := by
  generalize hlayer : Layer.disjuncts = layer at h
  induction h with
  | disjuncts h _ =>
      cases hlayer
      exact ⟨_, _, [], (List.append_nil _).symm, ⟨_, h⟩, .nil, .refl _⟩
  | @or _ _ _ _ last lhs rhs w hlhs hrhs ih _ =>
      obtain ⟨first, operand, more, rfl, hoperand, hkeeps, hreach⟩ := ih hlayer
      have hends : Level.conjunction.Ends (.mark .orWord) :=
        Level.ends_of_continues rfl (by decide)
      have hstops : ∀ rest, Stops .conjunction (w.1 :: last ++ rest) := fun _ => w.stops hends _
      have hmax := hrhs.depth_le
      have hspan := hlhs.span_eq hrhs [w.1]
      refine ⟨first, operand, _, List.append_assoc .., hoperand, hkeeps.append hstops, ?_⟩
      exact hreach.step (List.cons_ne_nil _ _) hstops (joining w (by omega)
        (fun hs hroom hstop => hd.conjunction hrhs hs hroom hstop)
        (congrArg (Expr.or lhs rhs) hspan))
  | _ => cases hlayer

theorem disjunctionOf (hd : d.Rereading bound) :
    Rereads (bound + 1) .disjunction 0 d.disjunctionOf := by
  intro depth chain taken e h s rest hs hroom hstop
  cases h with
  | disjunction h =>
      obtain ⟨first, operand, more, rfl, ⟨_, hoperand⟩, hkeeps, hreach⟩ := hd.disjuncts h
      have hrest : Stops .conjunction rest := hstop.mono (by decide)
      rw [List.append_assoc] at hs
      apply Finds.restoringDepth
      refine (hd.conjunction hoperand hs hroom (hkeeps rest hrest)).bind hs
        fun s₁ hs₁ hfirst => ?_
      apply Runs.rounds
      rw [disjuncts_eq]
      refine hreach.ends hs₁ (Nat.lt_succ_self _) (hroom.behind hfirst) hrest
        fun s₂ _ hs₂ hmore => ?_
      refine Reads.unlessConsume ?_ (Runs.pure ⟨rfl, _, hfirst.trans hmore⟩)
      rw [hs₂]
      exact hstop.not_frontIs rfl (by decide)

theorem lambda (hd : d.Rereading bound) (w : Marked .lambdaWord) (params : NameStretch)
    (colon : Marked .colon) (hnodup : params.names.Nodup) {depth : Nat} {body rest : List Token}
    {e : Expr} (hbody : Parses .expr (depth + 1) 0 body e) {s s₁ : Stream}
    (hword : Moves s [w.1] 0 s₁) (hs : s₁.tokens = params.tokens ++ colon.1 :: (body ++ rest))
    (hroom : Room bound depth s₁) (hstop : Stops .expr rest) :
    Succeeds (d.lambda w.1.range.start) s₁ fun e' s' =>
      e' = .lambda params.names e (hull (w.1 :: (params.tokens ++ colon.1 :: body))) ∧
        Moves s (w.1 :: (params.tokens ++ colon.1 :: body)) 0 s' := by
  have hgo : ∀ {s₂ : Stream}, s₂.tokens = colon.1 :: (body ++ rest) →
      Moves s₁ params.tokens 0 s₂ → Succeeds (do
          expect .colon
          let body ← d.expr
          return Expr.lambda params.names body (← Expr.rangeFrom w.1.range.start)) s₂
        fun e' s' =>
          e' = .lambda params.names e (hull (w.1 :: (params.tokens ++ colon.1 :: body))) ∧
            Moves s (w.1 :: (params.tokens ++ colon.1 :: body)) 0 s' := by
    intro s₂ hs₂ hparams
    refine Finds.expect colon hs₂ fun s₃ hs₃ hcolon => ?_
    have hroom₃ := (hroom.behind hparams).behind hcolon
    refine (hd.expr hbody hs₃ hroom₃ hstop).bind hs₃ fun s₄ _ hmore => ?_
    have hdone := hword.trans (hparams.trans (hcolon.trans hmore))
    exact hdone.rangeFrom (List.cons_ne_nil _ _) (.of_cons hword.tokens)
      (Runs.pure ⟨rfl, hdone⟩)
  obtain ⟨names, params, hspells⟩ := params
  cases params with
  | nil =>
      obtain rfl := List.map_eq_nil_iff.mp hspells
      have hcolon : FrontIs .colon s₁.tokens := by
        rw [hs]
        exact frontIs_cons.mpr (Token.isMark_iff.mpr colon.2)
      exact Reads.ifPeek hcolon (hgo hs (.refl s₁))
  | cons name names =>
      obtain ⟨t, more, hkind, rfl, -⟩ := exists_of_nameList hspells
      have hcolon : ¬ FrontIs .colon s₁.tokens := by
        apply not_frontIs_of_cons hs
        rw [hkind]
        nofun
      have hcomma : ¬ FrontIs .comma (colon.1 :: (body ++ rest)) :=
        not_frontIs_of_marked colon rfl (by decide)
      refine Reads.unlessPeek hcolon (Runs.rounds ?_)
      exact (finds_parameters hcomma (List.cons_ne_nil _ _) hnodup []
        (fun _ _ => List.not_mem_nil) hspells _ hs (Nat.lt_succ_self _)).bind hs
        fun s₂ hs₂ hparams => hgo hs₂ hparams

theorem conditional (hd : d.Rereading bound) : Rereads (bound + 1) .expr 0 d.conditional := by
  intro depth chain taken e h s rest hs hroom hstop
  cases h with
  | lambda w params colon hnodup hbody =>
      apply Finds.peekStart hs
      refine Finds.ifConsume w hs fun s₁ hs₁ hword => ?_
      rw [List.append_eq, List.append_assoc, List.cons_append] at hs₁
      exact hd.lambda w params colon hnodup hbody hword hs₁ (hroom.behind_cons hword) hstop
  | expr h =>
      refine Runs.peekStart fun start => ?_
      apply Reads.unlessConsume (h.not_frontIs rfl (by decide) hs)
      refine (hd.disjunctionOf h hs hroom (hstop.mono (by decide))).bind hs fun s₁ hs₁ hmoves => ?_
      refine Reads.unlessConsume ?_ (Runs.pure ⟨rfl, hmoves⟩)
      rw [hs₁]
      exact hstop.not_frontIs rfl (by decide)
  | @conditional _ yes cond no i j hyes hcond hno =>
      have hif : Level.disjunction.Ends (.mark .ifWord) :=
        Level.ends_of_continues rfl (by decide)
      obtain ⟨t, more, hfirst, -⟩ := hyes.begins
      have hpeek : s.tokens =
          t :: (more ++ (i.1 :: (cond.tokens ++ j.1 :: no.tokens)) ++ rest) := by
        rw [hs, hfirst]
        rfl
      apply Finds.peekStart hpeek
      rw [List.append_assoc, List.cons_append, List.append_assoc, List.cons_append] at hs
      apply Reads.unlessConsume (hyes.not_frontIs rfl (by decide) hs)
      refine (hd.disjunctionOf hyes hs hroom (i.stops hif _)).bind hs fun s₁ hs₁ hmoves₁ => ?_
      refine Finds.ifConsume i hs₁ fun s₂ hs₂ hmoves₂ => ?_
      have hroom₂ := (hroom.behind hmoves₁).behind hmoves₂
      refine (hd.disjunctionOf hcond hs₂ hroom₂ (j.stops nofun _)).bind hs₂
        fun s₃ hs₃ hmoves₃ => ?_
      refine Finds.expect j hs₃ fun s₄ hs₄ hmoves₄ => ?_
      have hroom₄ := (hroom.behind hmoves₁).behind_cons (hmoves₂.trans (hmoves₃.trans hmoves₄))
      refine (hd.expr hno hs₄ hroom₄ hstop).bind hs₄ fun s₅ _ hmoves₅ => ?_
      have hdone := hmoves₁.trans (hmoves₂.trans (hmoves₃.trans (hmoves₄.trans hmoves₅)))
      refine hdone.rangeFrom ?_ (.of_cons hpeek) (Runs.pure ⟨rfl, hdone⟩)
      exact List.append_ne_nil_of_right_ne_nil _ (List.cons_ne_nil _ _)

/-- However many tokens are left, what is called back into finds what it should. -/
theorem ofLength (bound : Nat) : (Descent.ofLength bound).Rereading bound := by
  induction bound with
  | zero =>
      have hnone : ∀ {layer extra p}, Rereads 0 layer extra p := by
        intro layer extra p depth chain taken e _ s rest _ hroom
        exact absurd hroom.tokens (Nat.not_lt_zero _)
      exact ⟨hnone, hnone, hnone, hnone⟩
  | succ bound ih =>
      exact ⟨ih.conditional.nested, ih.negation.nested, ih.unary.nested, ih.disjunctionOf⟩

end Descent.Rereading

section Whole

variable {depth : Nat} {tokens : List Token} {e : Expr} {eof : Token}

/-- What tokens are read as, the parser of expressions finds in front of the end. -/
theorem finds_expression (h : Parses .expr (depth + 1) 0 tokens e) (heof : eof.isEof = true)
    (rest : List Token) : Finds expression { tokens := tokens ++ eof :: rest } tokens e := by
  have hroom : Room ((tokens ++ eof :: rest).length + 1) depth
      { tokens := tokens ++ eof :: rest } := ⟨Nat.lt_succ_self _, Nat.zero_le depth⟩
  have hstop : Stops .expr (eof :: rest) := by
    apply Stops.of_cons rfl
    rw [Token.isEof_iff.mp heof]
    nofun
  exact Runs.rounds ((Descent.Rereading.ofLength _).expr h rfl hroom hstop)

/-- What tokens are read as, the whole parser gives, if the end comes after them. -/
theorem ofTokens?_of_parses (h : Parses .expr (depth + 1) 0 tokens e) (heof : eof.isEof = true)
    (rest : List Token) : ofTokens? (tokens ++ eof :: rest) = .ok e := by
  have hrun : Succeeds whole { tokens := tokens ++ eof :: rest } fun a _ => a = e := by
    have hpeek : peekEof { tokens := tokens ++ eof :: rest } =
        .ok (false, { tokens := tokens ++ eof :: rest }) := by
      obtain ⟨t, more, rfl, hbegins⟩ := h.begins
      rw [← Token.not_isEof_of_begins hbegins]
      exact peekEof_of_cons rfl
    refine Runs.look hpeek ((finds_expression h heof rest).bind rfl fun s₁ hs₁ _ => ?_)
    exact Reads.expectEof heof hs₁ fun _ _ => rfl
  obtain ⟨_, s', hok, rfl⟩ := hrun.exists_ok
  change (whole { tokens := tokens ++ eof :: rest }).map Prod.fst = .ok _
  rw [hok]
  rfl

end Whole

end Expr
end Stencil
