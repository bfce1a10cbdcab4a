/-
What the parser accepts, the grammar derives: each parser takes a text of its level and gives
the tree that the text writes.
-/
import Stencil.Proofs.Expr.Loops

namespace Stencil
namespace Expr

/-- The parsers that are called back into accept phrases of their levels. -/
structure Descent.Sound (d : Descent) : Prop where
  expr : Accepts .expr d.expr
  notOperand : Accepts .negation d.notOperand
  unaryOperand : Accepts .unary d.unaryOperand
  disjunction : Accepts .disjunction d.disjunction

section Leaves

variable (s : Stream)

theorem takes_parameters (seen : List String) (fuel : Nat) :
    Takes (parameters seen fuel) s fun text names =>
      names ≠ [] ∧ text = nameList names ∧ names.Nodup ∧ ∀ name ∈ names, name ∉ seen := by
  induction fuel generalizing seen s with
  | zero => exact Runs.throw nofun
  | succ fuel ih =>
      refine Takes.expectIdent fun name s₁ hname => ?_
      refine Runs.ite (fun _ => Runs.throw nofun) fun hseen => ?_
      refine Runs.ifConsume (fun s₂ hcomma => ?_) fun _ => ?_
      · apply Takes.bind (ih s₂ (name :: seen))
        rintro names _ s₃ hrest ⟨hne, rfl, hnodup, hfresh⟩
        obtain ⟨other, others, rfl⟩ := List.exists_cons_of_ne_nil hne
        exact Runs.pure ⟨_, hname.trans (hcomma.cons hrest), nofun, rfl,
          fresh_cons_iff.mpr ⟨hseen, hnodup, hfresh⟩⟩
      · exact Runs.pure ⟨_, hname, nofun, rfl, by simp, by simpa using hseen⟩

theorem takes_targets (fuel : Nat) :
    Takes (targets fuel) s fun text names => names ≠ [] ∧ text = nameList names := by
  induction fuel generalizing s with
  | zero => exact Runs.throw nofun
  | succ fuel ih =>
      refine Takes.expectIdent fun name s₁ hname => ?_
      refine Runs.ifConsume (fun s₂ hcomma => ?_) fun _ => ?_
      · apply Takes.bind (ih s₂)
        rintro names _ s₃ hrest ⟨hne, rfl⟩
        obtain ⟨other, others, rfl⟩ := List.exists_cons_of_ne_nil hne
        exact Runs.pure ⟨_, hname.trans (hcomma.cons hrest), nofun, rfl⟩
      · exact Runs.pure ⟨_, hname, nofun, rfl⟩

end Leaves

section Lists

variable {item : Parse Expr}

theorem takes_sequence (hitem : Accepts .expr item) (close : Mark) (fuel : Nat) (s : Stream) :
    Takes (sequence item close fuel) s fun text items =>
      ∃ (ps : List Phrase) (trailing : Bool), (∀ p ∈ ps, Derives .expr p.text p.tree) ∧
        text = separated trailing (ps.map (·.text)) ++ [.mark close] ∧
          bareAll items = ps.map (·.tree) := by
  rw [sequence_eq]
  apply (takes_listOf hitem.taken close fuel s).imp
  rintro text items ⟨ps, trailing, hps, htext, hitems⟩
  exact ⟨ps, trailing, hps, htext, (bareAll_eq_map items).trans hitems⟩

theorem taken_entry (hitem : Accepts .expr item) : entryPhrases.Taken (entry item) := by
  intro s
  apply Takes.bind (hitem s)
  intro key keyText s₁ hkey hkeyTree
  refine Takes.expect fun s₂ hcolon => ?_
  apply Takes.bind (hitem s₂)
  intro value valueText s₃ hvalue hvalueTree
  exact Runs.pure ⟨_, hkey.trans (hcolon.cons hvalue),
    ⟨⟨keyText, key.bare⟩, ⟨valueText, value.bare⟩⟩, ⟨hkeyTree, hvalueTree⟩, rfl, rfl⟩

theorem taken_clause (hitem : Accepts .disjunction item) : clausePhrases.Taken (clause item) := by
  intro s
  refine Runs.rounds (Takes.bind (takes_targets s _) ?_)
  rintro names _ s₁ hnames ⟨hne, rfl⟩
  refine Takes.expect fun s₂ hin => ?_
  apply Takes.bind (hitem s₂)
  intro source text s₃ hsource htree
  apply Runs.rounds
  rw [conditions_eq]
  apply Takes.bind (takes_collect hitem.taken .ifWord _ s₃)
  rintro tests _ s₄ htests ⟨ps, hps, rfl, htrees, -⟩
  refine Runs.pure ⟨_, (hnames.trans (hin.cons hsource)).trans htests,
    ⟨names, ⟨text, source.bare⟩, ps⟩, ⟨hne, List.forall_mem_cons.mpr ⟨htree, hps⟩⟩, rfl, ?_⟩
  change Clause.mk names source.bare (bareAll tests) = Clause.mk names source.bare _
  rw [bareAll_eq_map]
  exact congrArg (Clause.mk names source.bare) htrees

end Lists

namespace Descent.Sound

variable {d : Descent}

theorem list (h : d.Sound) (start : Position) {s s₁ : Stream}
    (hopen : Took s [.mark .leftBracket] s₁) :
    Runs (d.list start) s₁
      (fun e s' => ∃ text, Took s text s' ∧ Derives .primary text e.bare) (· ≠ .empty) := by
  refine Runs.ifConsume (fun s₂ hclose => Runs.rangeFrom fun _ => ?_) fun _ => ?_
  · exact Runs.pure ⟨_, hopen.cons hclose, @Derives.list [] false nofun⟩
  · apply Takes.bind (h.expr s₁)
    intro first text s₂ hfirst htree
    refine Runs.ifPeek (fun hfor => Runs.rounds ?_) fun _ => ?_
    · rw [clauses_eq]
      apply Takes.bind (takes_collect (taken_clause h.disjunction) .forWord _ s₂)
      rintro parts _ s₃ hparts ⟨cs, hcs, rfl, htrees, hne⟩
      refine Takes.expect fun s₄ hclose => Runs.rangeFrom fun _ => ?_
      have hderives := @Derives.comprehension ⟨text, first.bare⟩ cs htree (hne (by omega) hfor)
        (fun c hc => (hcs c hc).1) (fun c hc => (hcs c hc).2)
      rw [show cs.map ClausePhrase.tree = bareClauses parts from
        htrees.symm.trans (bareClauses_eq_map parts).symm] at hderives
      exact Runs.pure ⟨_, ((hopen.cons hfirst).trans hparts).trans hclose, hderives⟩
    · refine Runs.ifConsume (fun s₃ hcomma => Runs.rounds ?_) fun _ => ?_
      · apply Takes.bind (takes_sequence h.expr .rightBracket _ s₃)
        rintro items _ s₄ hitems ⟨ps, trailing, hps, rfl, htrees⟩
        refine Runs.rangeFrom fun _ => ?_
        obtain ⟨last, hlast⟩ := exists_separated_cons trailing text (ps.map (·.text))
        have hderives := @Derives.list (⟨text, first.bare⟩ :: ps) last
          (List.forall_mem_cons.mpr ⟨htree, hps⟩)
        rw [List.map_cons, List.map_cons, hlast, ← htrees] at hderives
        have htook := (hopen.cons hfirst).trans (hcomma.cons hitems)
        simp only [List.cons_append, List.append_assoc] at hderives htook
        exact Runs.pure ⟨_, htook, hderives⟩
      · refine Takes.expect fun s₃ hclose => Runs.rangeFrom fun _ => ?_
        exact Runs.pure ⟨_, (hopen.cons hfirst).trans hclose,
          @Derives.list [⟨text, first.bare⟩] false (by simpa using htree)⟩

theorem primary (h : d.Sound) : Accepts .primary d.primary := by
  intro s
  refine Runs.next (fun _ => nofun) fun token s₁ _ htook => ?_
  dsimp only
  split
  case h_3 name hkind =>
    rw [hkind] at htook
    exact Runs.rangeFrom fun _ => Runs.pure ⟨_, htook nofun, .name name⟩
  case h_7 hkind =>
    rw [hkind] at htook
    apply Takes.bind (h.expr s₁)
    intro inner text s₂ hinner htree
    refine Takes.expect fun s₃ hclose => Runs.rangeFrom fun range => ?_
    have hderives := Derives.paren htree
    rw [← Expr.bare_withRange inner range] at hderives
    exact Runs.pure ⟨_, ((htook nofun).cons hinner).trans hclose, hderives⟩
  case h_8 hkind =>
    rw [hkind] at htook
    exact h.list _ (htook nofun)
  case h_9 hkind =>
    rw [hkind] at htook
    apply Runs.rounds
    rw [entries_eq]
    apply Takes.bind (takes_listOf (taken_entry h.expr) .rightBrace _ s₁)
    rintro pairs _ s₂ hpairs ⟨es, trailing, hes, rfl, htrees⟩
    refine Runs.rangeFrom fun _ => ?_
    have hderives := @Derives.dict es trailing (fun entry hentry => (hes entry hentry).1)
      (fun entry hentry => (hes entry hentry).2)
    rw [show es.map EntryPhrase.tree = bareEntries pairs from
      htrees.symm.trans (bareEntries_eq_map pairs).symm] at hderives
    exact Runs.pure ⟨_, (htook nofun).cons hpairs, hderives⟩
  case h_10 => exact Runs.throw (Runs.unexpected (E := (· ≠ .empty)) ⟨nofun, nofun⟩ token)
  -- The constants are left.
  all_goals
    next hkind =>
      rw [hkind] at htook
      exact Runs.rangeFrom fun _ => Runs.pure ⟨_, htook nofun, .literal rfl⟩

theorem suffixes (h : d.Sound) (start : Position) (value : Expr) (fuel : Nat) (s : Stream) :
    Takes (d.suffixes start value fuel) s fun text e =>
      ∃ xs : List Suffix, (∀ x ∈ xs, ∀ p ∈ x.phrases, Derives .expr p.text p.tree) ∧
        text = xs.flatMap Suffix.text ∧ e.bare = xs.foldl Suffix.apply value.bare := by
  induction fuel generalizing value s with
  | zero => exact Runs.pure ⟨_, .refl s, [], nofun, rfl, rfl⟩
  | succ fuel ih =>
      have hcons : ∀ (x : Suffix) (value' : Expr) (s' : Stream),
          (∀ p ∈ x.phrases, Derives .expr p.text p.tree) → Took s x.text s' →
            value'.bare = x.apply value.bare →
              Runs (d.suffixes start value' fuel) s' (fun e s'' => ∃ text, Took s text s'' ∧
                ∃ xs : List Suffix, (∀ x ∈ xs, ∀ p ∈ x.phrases, Derives .expr p.text p.tree) ∧
                  text = xs.flatMap Suffix.text ∧ e.bare = xs.foldl Suffix.apply value.bare)
                (· ≠ .empty) := by
        intro x value' s' hx htook hvalue
        apply Runs.imp (ih value' s')
        rintro e s'' ⟨_, hrest, xs, hxs, rfl, he⟩
        refine ⟨_, htook.trans hrest, x :: xs, List.forall_mem_cons.mpr ⟨hx, hxs⟩, rfl, ?_⟩
        rw [he, hvalue, List.foldl_cons]
      refine Runs.ifConsume (fun s₁ hdot => ?_) fun _ => ?_
      · refine Takes.enter fun s₂ hs₂ => Takes.expectIdent fun name s₃ hname => ?_
        exact Runs.rangeFrom fun _ =>
          hcons (.member name) _ s₃ nofun (hdot.cons (.of_tokens_eq hs₂ hname)) rfl
      refine Runs.ifConsume (fun s₁ hopen => ?_) fun _ => ?_
      · refine Takes.enter fun s₂ hs₂ => Takes.bind (h.expr s₂) ?_
        intro position text s₃ hposition htree
        refine Takes.expect fun s₄ hclose => Runs.rangeFrom fun _ => ?_
        exact hcons (.index ⟨text, position.bare⟩) _ s₄ (by simpa [Suffix.phrases] using htree)
          ((hopen.cons (.of_tokens_eq hs₂ hposition)).trans hclose) rfl
      refine Runs.ifConsume (fun s₁ hopen => ?_) fun _ => ?_
      · refine Takes.enter fun s₂ hs₂ => Runs.rounds ?_
        apply Takes.bind (takes_sequence h.expr .rightParen _ s₂)
        rintro args _ s₃ hargs ⟨ps, trailing, hps, rfl, htrees⟩
        refine Runs.rangeFrom fun _ => ?_
        exact hcons (.call ps trailing) _ s₃ hps (hopen.cons (.of_tokens_eq hs₂ hargs))
          (congrArg (Expr.call value.bare · {}) htrees)
      · exact Runs.pure ⟨_, .refl s, [], nofun, rfl, rfl⟩

theorem suffixed (h : d.Sound) : Accepts .suffixed d.suffixed := by
  intro s
  refine Takes.restoringDepth (Runs.peekStart fun start => Takes.bind (h.primary s) ?_)
  intro value text s₁ hvalue htree
  refine Runs.rounds (Runs.imp (h.suffixes start value _ s₁) ?_)
  rintro e s₂ ⟨_, hrest, xs, hxs, rfl, he⟩
  have hderives := @Derives.suffixed ⟨text, value.bare⟩ xs htree hxs
  rw [← he] at hderives
  exact ⟨_, hvalue.trans hrest, hderives⟩

theorem power (h : d.Sound) : Accepts .power d.power := by
  intro s
  apply Takes.bind (h.suffixed s)
  intro base text s₁ hbase htree
  refine Runs.ifConsume (fun s₂ hpow => ?_) fun _ => ?_
  · apply Takes.bind (h.unaryOperand s₂)
    intro exponent more s₃ hexponent htree'
    exact Runs.pure ⟨_, hbase.trans (hpow.cons hexponent),
      @Derives.pow ⟨text, base.bare⟩ ⟨more, exponent.bare⟩ htree htree'⟩
  · exact Runs.pure ⟨_, hbase, .power htree⟩

theorem unary (h : d.Sound) : Accepts .unary d.unary := by
  intro s
  refine Runs.peekStart fun start => ?_
  refine Runs.ifConsume (fun s₁ hminus => ?_) fun _ => ?_
  · apply Takes.bind (h.unaryOperand s₁)
    intro operand text s₂ hoperand htree
    exact Runs.rangeFrom fun _ => Runs.pure ⟨_, hminus.cons hoperand, .minus htree⟩
  refine Runs.ifConsume (fun s₁ hplus => ?_) fun _ => ?_
  · apply Takes.bind (h.unaryOperand s₁)
    intro operand text s₂ hoperand htree
    exact Runs.rangeFrom fun _ => Runs.pure ⟨_, hplus.cons hoperand, .plus htree⟩
  · exact (h.power s).imp fun _ _ htree => .unary htree

end Descent.Sound

theorem takes_operator (s : Stream) :
    Runs operator s (fun op s' => Took s op.spelling s' ∧
      op.level.precedence = frontPrecedence s.tokens) (· ≠ .empty) := by
  refine Runs.next (fun _ => nofun) fun token s₁ htokens htook => ?_
  have hfront : token.kind.precedence = frontPrecedence s.tokens := by rw [htokens]; rfl
  split
  case h_8 hkind =>
    rw [hkind] at htook hfront
    exact Takes.expect fun s₂ hin => Runs.pure ⟨(htook nofun).cons hin, hfront⟩
  case h_15 => exact Runs.throw nofun
  all_goals
    next hkind =>
      rw [hkind] at htook hfront
      exact Runs.pure ⟨htook nofun, hfront⟩

/-- What operators of at least the precedence `least` after `lhs` come to: factors that go on
with the product that `lhs` ends, and then terms. -/
def Climbs (least : Nat) (lhs : Expr) (s : Stream) (e : Expr) (s' : Stream) : Prop :=
  ∃ factors terms : Operands, Took s (factors.text ++ terms.text) s' ∧
    factors.Derived .product .unary ∧ terms.Derived .sum .product ∧
      e.bare = terms.leftmost (factors.leftmost lhs.bare) ∧ (2 < least → terms = []) ∧
        frontPrecedence s'.tokens < least

section Climbing

variable {least : Nat} {lhs operand rhs e : Expr} {op : BinaryOp} {text : List TokenKind}
  {more : Operands} {range : Range} {s s₁ s₂ s₃ s₄ : Stream}

theorem Climbs.factor (hop : Took s op.spelling s₁) (hlevel : op.level = .product)
    (hoperand : Took s₁ text s₂) (htree : Derives .unary text operand.bare)
    (h : Climbs least (.binary op lhs operand range) s₂ e s₃) : Climbs least lhs s e s₃ := by
  obtain ⟨factors, terms, hrest, hfactors, hterms, he, hnone, hfront⟩ := h
  refine ⟨(op, ⟨text, operand.bare⟩) :: factors, terms, ?_, hfactors.cons hlevel htree, hterms,
    he, hnone, hfront⟩
  simpa [Operands.text] using (hop.trans hoperand).trans hrest

/-- Where no term can go on, only factors are taken. -/
theorem Climbs.factors (h : Climbs least lhs s e s₁) (hleast : 2 < least) :
    ∃ factors : Operands, Took s factors.text s₁ ∧ factors.Derived .product .unary ∧
      e.bare = factors.leftmost lhs.bare ∧ frontPrecedence s₁.tokens < least := by
  obtain ⟨factors, terms, htook, hfactors, -, he, hnone, hfront⟩ := h
  obtain rfl := hnone hleast
  rw [show Operands.text [] = [] from rfl, List.append_nil] at htook
  exact ⟨factors, htook, hfactors, he, hfront⟩

/-- A term takes the factors `more` with it, and stops before another factor. -/
theorem Climbs.term (hop : Took s op.spelling s₁) (hlevel : op.level = .sum)
    (hleast : least ≤ 2) (hoperand : Took s₁ text s₂) (htree : Derives .unary text operand.bare)
    (hmore : Took s₂ more.text s₃) (hderived : more.Derived .product .unary)
    (hrhs : rhs.bare = more.leftmost operand.bare) (hstop : frontPrecedence s₃.tokens < 3)
    (h : Climbs least (.binary op lhs rhs range) s₃ e s₄) : Climbs least lhs s e s₄ := by
  obtain ⟨factors, terms, hrest, hfactors, hterms, he, hnone, hfront⟩ := h
  by_cases hnil : factors = []
  · subst hnil
    have hproduct := htree.factors hderived
    rw [Expr.bare, hrhs] at he
    refine ⟨[], (op, ⟨text ++ more.text, more.leftmost operand.bare⟩) :: terms, ?_, .nil,
      hterms.cons hlevel hproduct, he, by omega, hfront⟩
    simpa [Operands.text] using ((hop.trans hoperand).trans hmore).trans hrest
  · obtain ⟨mid, hfirst, -⟩ := Spells.append_iff.mp hrest.spells
    rw [hfactors.frontPrecedence_eq hnil hfirst] at hstop
    exact absurd hstop (by decide)

end Climbing

namespace Descent.Sound

variable {d : Descent}

/-- Every round takes an operator and its operand; the induction is on the rounds that are
left, and the factors of a term are read by fewer. -/
theorem operators (h : d.Sound) {least : Nat} (hleast : 2 ≤ least) (lhs : Expr) (fuel : Nat)
    (s : Stream) (hfuel : s.tokens.length < fuel) :
    Runs (d.operators least lhs fuel) s (Climbs least lhs s) (· ≠ .empty) := by
  induction fuel generalizing least lhs s with
  | zero => exact absurd hfuel (Nat.not_lt_zero _)
  | succ fuel ih =>
      refine Runs.peekPrecedence (Runs.ite (fun hstop => ?_) fun hgo => ?_)
      · simp only [Bool.or_eq_true, decide_eq_true_eq] at hstop
        exact Runs.pure ⟨[], [], .refl s, .nil, .nil, rfl, fun _ => rfl, by omega⟩
      · simp only [Bool.or_eq_true, decide_eq_true_eq, not_or, Nat.not_lt] at hgo
        refine Takes.enter fun s₁ hs₁ => Runs.bind (takes_operator s₁) ?_
        rintro op s₂ ⟨hop, hprecedence⟩
        rw [hs₁] at hprecedence
        have hop := Took.of_tokens_eq hs₁ hop
        apply Takes.bind (h.unary s₂)
        intro operand text s₃ hoperand htree
        have hlt := hop.length_lt op.spelling_ne_nil
        have hle := hoperand.length_le
        have hmost := frontPrecedence_le s.tokens
        refine Runs.peekPrecedence (Runs.ite (fun hfollowing => ?_) fun hfollowing => ?_)
        · -- A factor follows the operand of a term.
          have hmost' := frontPrecedence_le s₃.tokens
          have hlevel := Level.eq_sum (hprecedence.trans (by omega))
          refine Runs.bind (Q := fun rhs s₄ => ∃ more : Operands, Took s₃ more.text s₄ ∧
            more.Derived .product .unary ∧ rhs.bare = more.leftmost operand.bare ∧
              frontPrecedence s₄.tokens < 3) ?_ ?_
          · refine Runs.restoringDepth (Runs.imp (ih (by omega) operand s₃ (by omega)) ?_)
            intro rhs s₄ hclimbs
            obtain ⟨factors, htook, hfactors, he, hfront⟩ := hclimbs.factors (by omega)
            exact ⟨factors, htook.withDepth _, hfactors, he, Nat.lt_of_lt_of_le hfront hmost'⟩
          · rintro rhs s₄ ⟨more, hmore, hderived, hrhs, hstop⟩
            have hle' := hmore.length_le
            exact Runs.imp (ih hleast _ s₄ (by omega)) fun e s₅ =>
              .term hop hlevel (by omega) hoperand htree hmore hderived hrhs hstop
        · refine Runs.imp (ih hleast _ s₃ (by omega)) fun e s₄ hclimbs => ?_
          have hwhich := Level.eq_product_or_sum (show 2 ≤ op.level.precedence by omega)
          rcases hwhich with hlevel | hlevel
          · exact .factor hop hlevel hoperand htree hclimbs
          · have htwo : op.level.precedence = 2 := congrArg Level.precedence hlevel
            have hmore : Took s₃ (Operands.text []) s₃ := .refl s₃
            exact .term hop hlevel (by omega) hoperand htree hmore .nil rfl (by omega) hclimbs

theorem arithmetic (h : d.Sound) : Accepts .sum d.arithmetic := by
  intro s
  apply Takes.bind (h.unary s)
  intro lhs text s₁ hlhs htree
  refine Runs.restoringDepth (Runs.rounds ?_)
  apply Runs.imp (h.operators (by decide) lhs _ s₁ (Nat.lt_succ_self _))
  rintro e s₂ ⟨factors, terms, hrest, hfactors, hterms, he, -, -⟩
  have hsum := (htree.factors hfactors).terms hterms
  rw [← he, List.append_assoc] at hsum
  exact ⟨_, (hlhs.trans hrest).withDepth _, hsum⟩

/-- The comparisons read so far are `chain`, and `lhs` is the last operand. -/
theorem comparisons (h : d.Sound) (chain : Option Expr) (lhs : Expr) (fuel : Nat) (s : Stream) :
    Takes (d.comparisons chain lhs fuel) s fun text e =>
      ∃ more : Operands, more.Derived .comparison .sum ∧ text = more.text ∧
        e.bare = conjoined lhs.bare ((chain.map Expr.bare).toList ++ more.pairs lhs.bare) := by
  induction fuel generalizing chain lhs s with
  | zero =>
      refine Runs.pure ⟨_, .refl s, [], .nil, rfl, ?_⟩
      cases chain <;> rfl
  | succ fuel ih =>
      refine Runs.peekPrecedence (Runs.ite (fun _ => ?_) fun hone => ?_)
      · refine Runs.pure ⟨_, .refl s, [], .nil, rfl, ?_⟩
        cases chain <;> rfl
      · refine Takes.enter fun s₁ hs₁ => Runs.bind (takes_operator s₁) ?_
        rintro op s₂ ⟨hop, hprecedence⟩
        apply Takes.bind (h.arithmetic s₂)
        intro rhs text s₃ hrhs htree
        rw [hs₁, Decidable.not_not.mp hone] at hprecedence
        have hlevel := Level.eq_comparison hprecedence
        have htook := (Took.of_tokens_eq hs₁ hop).trans hrhs
        cases chain with
        | _ =>
            apply Runs.imp (ih (some _) rhs s₃)
            rintro e s₄ ⟨_, hrest, more, hmore, rfl, he⟩
            exact ⟨_, htook.trans hrest, (op, ⟨text, rhs.bare⟩) :: more,
              hmore.cons hlevel htree, rfl, he⟩

theorem comparison (h : d.Sound) : Accepts .comparison d.comparison := by
  intro s
  refine Takes.restoringDepth (Takes.bind (h.arithmetic s) ?_)
  intro lhs text s₁ hlhs htree
  refine Runs.rounds (Runs.imp (h.comparisons none lhs _ s₁) ?_)
  rintro e s₂ ⟨_, hrest, more, hmore, rfl, he⟩
  have hderives := htree.comparisons hmore
  change e.bare = conjoined lhs.bare (more.pairs lhs.bare) at he
  rw [← he] at hderives
  exact ⟨_, hlhs.trans hrest, hderives⟩

theorem negation (h : d.Sound) : Accepts .negation d.negation := by
  intro s
  refine Runs.peekStart fun start => ?_
  refine Runs.ifConsume (fun s₁ hnot => ?_) fun _ => ?_
  · apply Takes.bind (h.notOperand s₁)
    intro operand text s₂ hoperand htree
    exact Runs.rangeFrom fun _ => Runs.pure ⟨_, hnot.cons hoperand, .not htree⟩
  · exact (h.comparison s).imp fun _ _ htree => .negation htree

theorem conjunction (h : d.Sound) : Accepts .conjunction d.conjunction := by
  intro s
  refine Takes.restoringDepth (Takes.bind (h.negation s) ?_)
  intro lhs text s₁ hlhs htree
  apply Runs.rounds
  rw [conjuncts_eq]
  refine Runs.imp (takes_joins h.negation .andWord _ (.and · · {}) (fun _ _ => rfl) _ lhs s₁) ?_
  rintro e s₂ ⟨_, hrest, ps, hps, rfl, he⟩
  have hderives := @Derives.conjunction ⟨text, lhs.bare⟩ ps htree hps
  rw [← he] at hderives
  exact ⟨_, hlhs.trans hrest, hderives⟩

theorem disjunctionOf (h : d.Sound) : Accepts .disjunction d.disjunctionOf := by
  intro s
  refine Takes.restoringDepth (Takes.bind (h.conjunction s) ?_)
  intro lhs text s₁ hlhs htree
  apply Runs.rounds
  rw [disjuncts_eq]
  refine Runs.imp (takes_joins h.conjunction .orWord _ (.or · · {}) (fun _ _ => rfl) _ lhs s₁) ?_
  rintro e s₂ ⟨_, hrest, ps, hps, rfl, he⟩
  have hderives := @Derives.disjunction ⟨text, lhs.bare⟩ ps htree hps
  rw [← he] at hderives
  exact ⟨_, hlhs.trans hrest, hderives⟩

theorem lambda (h : d.Sound) (start : Position) {s s₁ : Stream}
    (hword : Took s [.mark .lambdaWord] s₁) :
    Runs (d.lambda start) s₁
      (fun e s' => ∃ text, Took s text s' ∧ Derives .expr text e.bare) (· ≠ .empty) := by
  have hbody : ∀ (params : List String) (s₂ : Stream), Took s₁ (nameList params) s₂ →
      params.Nodup →
        Runs (do
            expect .colon
            let body ← d.expr
            return Expr.lambda params body (← rangeFrom start)) s₂
          (fun e s' => ∃ text, Took s text s' ∧ Derives .expr text e.bare) (· ≠ .empty) := by
    intro params s₂ hparams hnodup
    refine Takes.expect fun s₃ hcolon => Takes.bind (h.expr s₃) ?_
    intro body text s₄ hbody htree
    exact Runs.rangeFrom fun _ => Runs.pure
      ⟨_, (hword.cons hparams).trans (hcolon.cons hbody), .lambda hnodup htree⟩
  refine Runs.ifPeek (fun _ => ?_) fun _ => Runs.rounds ?_
  · exact hbody [] s₁ (.refl s₁) .nil
  · apply Takes.bind (takes_parameters s₁ [] _)
    rintro params _ s₂ hparams ⟨-, rfl, hnodup, -⟩
    exact hbody params s₂ hparams hnodup

theorem conditional (h : d.Sound) : Accepts .expr d.conditional := by
  intro s
  refine Runs.peekStart fun start => ?_
  refine Runs.ifConsume (fun s₁ hword => h.lambda start hword) fun _ => ?_
  apply Takes.bind (h.disjunctionOf s)
  intro yes text s₁ hyes htree
  refine Runs.ifConsume (fun s₂ hif => ?_) fun _ => ?_
  · apply Takes.bind (h.disjunctionOf s₂)
    intro cond condText s₃ hcond hcondTree
    refine Takes.expect fun s₄ helse => Takes.bind (h.expr s₄) ?_
    intro no noText s₅ hno hnoTree
    exact Runs.rangeFrom fun _ => Runs.pure
      ⟨_, (hyes.trans (hif.cons hcond)).trans (helse.cons hno),
        @Derives.conditional ⟨text, yes.bare⟩ ⟨condText, cond.bare⟩ ⟨noText, no.bare⟩
          htree hcondTree hnoTree⟩
  · exact Runs.pure ⟨_, hyes, .expr htree⟩

/-- However many tokens are left, what is called back into is sound. -/
theorem ofLength (fuel : Nat) : (Descent.ofLength fuel).Sound := by
  induction fuel with
  | zero =>
      exact ⟨fun _ => Runs.throw nofun, fun _ => Runs.throw nofun, fun _ => Runs.throw nofun,
        fun _ => Runs.throw nofun⟩
  | succ fuel ih =>
      exact ⟨fun _ => Takes.nested ih.conditional, fun _ => Takes.nested ih.negation,
        fun _ => Takes.nested ih.unary, ih.disjunctionOf⟩

end Descent.Sound

theorem accepts_expression : Accepts .expr expression :=
  fun s => Runs.rounds ((Descent.Sound.ofLength _).expr s)

/-- The whole parser takes an expression and the end that follows it. -/
theorem runs_whole (s : Stream) (hne : ∀ token ∈ s.tokens.head?, token.isEof = false) :
    Runs whole s (fun e _ => ∃ text eof rest, Spells text s.tokens (eof :: rest) ∧
      .eof ∉ text ∧ eof.isEof = true ∧ Derives .expr text e.bare) (· ≠ .empty) := by
  apply Runs.look (peekEof_of_head hne)
  refine Runs.bind (accepts_expression s) ?_
  rintro e s₁ ⟨text, htook, htree⟩
  refine Runs.expectEof (fun eof s₂ htokens heof => ?_) (fun _ => nofun) fun _ _ _ _ => nofun
  exact Runs.pure ⟨text, eof, s₂.tokens, htokens ▸ htook.spells, htook.noEof, heof, htree⟩

end Expr
end Stencil
