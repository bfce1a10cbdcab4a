/-
What the parser builds: the tree of an accepted text is read from its tokens with no more
levels open than there are, and a token that an error blames is one of the tokens.
-/
import Stencil.Proofs.Expr.Spending

namespace Stencil
namespace Expr

/-- The parsers that are called back into read what stands one level deeper, or on the same
level. -/
structure Descent.Yielding (all : List Token) (d : Descent) : Prop where
  expr : Yields all .expr 1 d.expr
  notOperand : Yields all .negation 1 d.notOperand
  unaryOperand : Yields all .unary 1 d.unaryOperand
  disjunction : Yields all .disjunction 0 d.disjunction

/-- An operator takes the tokens of its spelling, and binds as its first token says. -/
theorem runs_operator {all : List Token} {s : Stream} (hs : Underway all s)
    (hoperator : frontPrecedence s.tokens ≠ 0) :
    Runs operator s (fun op s' => (∃ w : Spelled op, Moves s w.tokens 0 s') ∧
      op.level.precedence = frontPrecedence s.tokens) (Blames all) := by
  apply hs.next
  intro token s₁ htokens hs₁ hmoves
  have hfront : token.kind.precedence = frontPrecedence s.tokens := by rw [htokens]; rfl
  split
  case h_8 hkind =>
    rw [hkind] at hfront
    apply hs₁.expect
    intro t s₂ _ hin
    exact Runs.pure ⟨⟨⟨[token, t.1], by simp [hkind, t.2, BinaryOp.spelling]⟩,
      hmoves.trans hin⟩, hfront⟩
  case h_15 =>
    refine Runs.throw ⟨hs.front_mem htokens, Bool.eq_false_iff.mpr fun heof => hoperator ?_⟩
    rw [← hfront, Token.isEof_iff.mp heof]
    rfl
  all_goals
    next hkind =>
      rw [hkind] at hfront
      exact Runs.pure ⟨⟨⟨[token], by simp [hkind, BinaryOp.spelling]⟩, hmoves⟩, hfront⟩

namespace Descent.Yielding

variable {all : List Token} {d : Descent}

theorem list (h : d.Yielding all) (l : Marked .leftBracket) {start : Position} {s s₁ : Stream}
    (hstart : s.StartsAt start) (hs : Underway all s₁) (hopen : Moves s [l.1] 0 s₁) :
    Runs (d.list start) s₁ (fun e s' => ∃ taken, Moves s taken 0 s' ∧
      Parses .primary s.depth 0 taken e) (Blames all) := by
  have hdepth := hs.depth
  rw [hopen.depth] at hdepth
  have hlist : ∀ {taken : List Token} {items : List Stretch} {s₂ : Stream},
      Moves s₁ taken 0 s₂ → Listing Stretch.tokens .rightBracket taken items →
        (∀ p ∈ items, p.Reads .expr 1 s₁.depth) →
          Runs (do return Expr.list (items.map (·.tree)) (← Expr.rangeFrom start)) s₂
            (fun e s' => ∃ taken, Moves s taken 0 s' ∧ Parses .primary s.depth 0 taken e)
            (Blames all) := by
    intro taken items s₂ hmoves hlisting hitems
    rw [hopen.depth] at hitems
    apply (hopen.trans hmoves).rangeFrom (by simp) hstart
    exact Runs.pure ⟨_, hopen.trans hmoves, .list l hdepth hlisting hitems⟩
  apply hs.ifConsume
  · intro r s₂ _ hclose
    exact hlist hclose (.nil r) (List.forall_mem_nil _)
  · apply hs.bind h.expr
    intro first taken s₂ hs₂ hfirst htree
    have hreads : Stretch.Reads .expr 1 s₁.depth ⟨taken, first⟩ := htree
    apply Runs.ifPeek
    · rintro ⟨_, hfor⟩
      apply Runs.rounds
      rw [clauses_eq]
      apply hs₂.bind (spends_collect (spends_clause h.disjunction) .forWord _)
      rintro _ _ s₃ hs₃ hclauses ⟨cs, rfl, rfl, hcs⟩
      rw [hfirst.depth, hopen.depth] at hcs
      rw [hopen.depth] at htree
      apply hs₃.expect
      intro r s₄ _ hclose
      have hne : cs ≠ [] := by
        rintro rfl
        obtain ⟨t, _, hcons, hkind, -⟩ := Spells.cons_iff.mp hfor
        have hfront := hclauses.tokens.trans hclose.tokens
        obtain ⟨rfl, -⟩ := List.cons.inj (hcons.symm.trans hfront)
        rw [r.2] at hkind
        cases hkind
      have hdone := hopen.trans (hfirst.trans (hclauses.trans hclose))
      apply hdone.rangeFrom (by simp) hstart
      exact Runs.pure ⟨_, hdone, @Parses.comprehension _ l ⟨taken, first⟩ cs r htree hne hcs⟩
    · intro _
      apply hs₂.ifConsume
      · intro w s₃ hs₃ hcomma
        apply Runs.rounds
        rw [sequence_eq]
        apply hs₃.bind (spends_listOf h.expr.shared .rightBracket _)
        rintro _ more s₄ _ hrest ⟨ps, rfl, hlisting, hps⟩
        rw [hcomma.depth, hfirst.depth] at hps
        exact hlist (hfirst.trans (hcomma.trans hrest)) (.cons ⟨taken, first⟩ w hlisting)
          (List.forall_mem_cons.mpr ⟨hreads, hps⟩)
      · apply hs₂.expect
        intro r s₃ _ hclose
        exact hlist (hfirst.trans hclose) (@Listing.single _ Stretch.tokens _ ⟨taken, first⟩ r)
          (List.forall_mem_singleton.mpr hreads)

theorem primary (h : d.Yielding all) : Yields all .primary 0 d.primary := by
  intro s hs
  apply hs.next
  intro token s₁ htokens hs₁ hmoves
  have hstart : s.StartsAt token.range.start := by
    rw [Stream.StartsAt, htokens]
    rintro t ⟨⟩
    rfl
  dsimp only
  split
  case h_3 name hkind =>
    apply hmoves.rangeFrom (by simp) hstart
    exact Runs.pure ⟨_, hmoves, .name hs.depth hkind⟩
  case h_7 hkind =>
    apply hs₁.bind h.expr
    intro inner taken s₂ hs₂ hinner htree
    rw [hmoves.depth] at htree
    apply hs₂.expect
    intro r s₃ _ hclose
    have hdone := hmoves.trans (hinner.trans hclose)
    apply hdone.rangeFrom (by simp) hstart
    exact Runs.pure ⟨_, hdone, .paren ⟨token, hkind⟩ r htree⟩
  case h_8 hkind => exact h.list ⟨token, hkind⟩ hstart hs₁ hmoves
  case h_9 hkind =>
    apply Runs.rounds
    rw [entries_eq]
    apply hs₁.bind (spends_listOf (spends_entry h.expr) .rightBrace _)
    rintro _ taken s₂ _ hrest ⟨es, rfl, hlisting, hes⟩
    rw [hmoves.depth] at hes
    apply (hmoves.trans hrest).rangeFrom (by simp) hstart
    exact Runs.pure ⟨_, hmoves.trans hrest, .dict ⟨token, hkind⟩ hs.depth hlisting hes⟩
  case h_10 => exact Runs.throw (Underway.blames_unexpected (hs.front_mem htokens))
  -- The constants are left.
  all_goals
    next hkind =>
      apply hmoves.rangeFrom (by simp) hstart
      exact Runs.pure ⟨_, hmoves, .literal hs.depth (by rw [hkind]; rfl)⟩

/-- Every suffix opens a level on top of the chain that it goes on with. -/
theorem suffixes (h : d.Yielding all) {start : Position} (fuel : Nat) {s s₁ : Stream}
    {chain : Nat} {taken : List Token} {value : Expr} (hstart : s.StartsAt start)
    (hs : Underway all s₁) (hmoves : Moves s taken chain s₁)
    (hvalue : Parses .suffixed s.depth chain taken value) :
    Runs (d.suffixes start value fuel) s₁ (Grows s (Parses .suffixed s.depth)) (Blames all) := by
  induction fuel generalizing chain taken value s₁ with
  | zero => exact Runs.pure ⟨taken, chain, hmoves, hvalue⟩
  | succ fuel ih =>
      apply hs.ifConsume
      · intro dot s₂ hs₂ hdot
        apply hs₂.enter
        intro s₃ hs₃ henter
        have hdepth := hs₃.depth
        rw [(hmoves.trans (hdot.trans henter)).depth] at hdepth
        apply hs₃.expectIdent
        intro name t s₄ hkind hs₄ hname
        have hdone := hmoves.trans (hdot.trans (henter.trans hname))
        apply hdone.rangeFrom (by simp) hstart
        exact ih hs₄ hdone (.member dot hvalue (by omega) hkind)
      apply hs.ifConsume
      · intro l s₂ hs₂ hopen
        apply hs₂.enter
        intro s₃ hs₃ henter
        apply hs₃.bind h.expr
        intro position inside s₄ hs₄ hposition htree
        rw [(hmoves.trans (hopen.trans henter)).depth] at htree
        apply hs₄.expect
        intro r s₅ hs₅ hclose
        have hdone := hmoves.trans (hopen.trans (henter.trans (hposition.trans hclose)))
        apply hdone.rangeFrom (by simp) hstart
        exact ih hs₅ hdone (.index l r hvalue htree)
      apply hs.ifConsume
      · intro l s₂ hs₂ hopen
        apply hs₂.enter
        intro s₃ hs₃ henter
        have hdepth := hs₃.depth
        rw [(hmoves.trans (hopen.trans henter)).depth] at hdepth
        apply Runs.rounds
        rw [sequence_eq]
        apply hs₃.bind (spends_listOf h.expr.shared .rightParen _)
        rintro _ inside s₄ hs₄ hargs ⟨ps, rfl, hlisting, hps⟩
        rw [(hmoves.trans (hopen.trans henter)).depth] at hps
        have hdone := hmoves.trans (hopen.trans (henter.trans hargs))
        apply hdone.rangeFrom (by simp) hstart
        exact ih hs₄ hdone (.call l hvalue (by omega) hlisting hps)
      · exact Runs.pure ⟨taken, chain, hmoves, hvalue⟩

theorem suffixed (h : d.Yielding all) : Spends all d.suffixed (Chained .suffixed) := by
  intro s hs
  apply Underway.restoringDepth
  apply Underway.peekStart
  intro start hstart
  apply hs.bind h.primary
  intro value taken s₁ hs₁ hmoves hvalue
  apply Runs.rounds
  apply Runs.imp (h.suffixes _ hstart hs₁ hmoves (.suffixed hvalue))
  rintro e s₂ ⟨taken, chain, hdone, he⟩
  exact ⟨taken, chain, hdone, chain, he⟩

theorem power (h : d.Yielding all) : Yields all .power 0 d.power := by
  intro s hs
  apply hs.bind h.suffixed
  rintro base taken s₁ hs₁ hbase ⟨chain, htree⟩
  apply hs₁.ifConsume
  · intro w s₂ hs₂ hpow
    apply hs₂.bind h.unaryOperand
    intro exponent more s₃ _ hexponent htree'
    rw [hpow.depth, hbase.depth] at htree'
    have hspan : base.span exponent = hull (taken ++ w.1 :: more) := htree.span_eq htree' [w.1]
    rw [hspan]
    exact Runs.pure ⟨_, hbase.trans (hpow.trans hexponent), .pow w htree htree'⟩
  · exact Runs.pure ⟨taken, hbase, .power htree⟩

theorem unary (h : d.Yielding all) : Yields all .unary 0 d.unary := by
  intro s hs
  have hsign : ∀ {op : UnaryOp} {m : Mark} (w : Marked m) {start : Position} {s₁ : Stream},
      signOf? op = some m → s.StartsAt start → Underway all s₁ → Moves s [w.1] 0 s₁ →
        Runs (do
          let operand ← d.unaryOperand
          return Expr.unary op operand (← Expr.rangeFrom start)) s₁
        (fun e s' => ∃ taken, Moves s taken 0 s' ∧ Parses .unary s.depth 0 taken e)
        (Blames all) := by
    intro op m w start s₁ hop hstart hs₁ hmark
    apply hs₁.bind h.unaryOperand
    intro operand taken s₂ _ hoperand htree
    rw [hmark.depth] at htree
    apply (hmark.trans hoperand).rangeFrom (by simp) hstart
    exact Runs.pure ⟨_, hmark.trans hoperand, .sign w hop htree⟩
  apply Underway.peekStart
  intro start hstart
  apply hs.ifConsume
  · intro w s₁ hs₁ hmark
    exact @hsign .neg .minus w start s₁ rfl hstart hs₁ hmark
  apply hs.ifConsume
  · intro w s₁ hs₁ hmark
    exact @hsign .pos .plus w start s₁ rfl hstart hs₁ hmark
  · apply Runs.imp (h.power s hs)
    rintro e s₁ ⟨taken, hmoves, he⟩
    exact ⟨taken, hmoves, .unary he⟩

end Descent.Yielding

/-- What operators of at least the precedence `least` come to. -/
def climbed (least : Nat) : Layer := if least ≤ 2 then .sum else .product

/-- What operators of at least the precedence `least` go on with, in front of `tokens`: a product,
or a sum behind which no factor can stand. -/
def Climbing (least depth chain : Nat) (taken : List Token) (lhs : Expr) (tokens : List Token) :
    Prop :=
  Parses .product depth chain taken lhs ∨
    least ≤ 2 ∧ Parses .sum depth chain taken lhs ∧ frontPrecedence tokens < 3

namespace Climbing

variable {least depth chain deeper : Nat} {taken more tokens rest : List Token} {lhs rhs : Expr}
  {op : BinaryOp}

theorem sum (h : Climbing least depth chain taken lhs tokens) : Parses .sum depth chain taken lhs :=
  h.elim .sum (·.2.1)

theorem parses (h : Climbing least depth chain taken lhs tokens) :
    Parses (climbed least) depth chain taken lhs := by
  unfold climbed
  split
  · exact h.sum
  · next hleast => exact h.resolve_right fun ⟨hle, _⟩ => hleast hle

theorem factor (h : Climbing least depth chain taken lhs tokens) (w : Spelled op)
    (hlevel : op.level = .product) (hfront : frontPrecedence tokens = 3)
    (hrhs : Parses .unary (depth + chain + 1) 0 more rhs) :
    Climbing least depth (chain + 1) (taken ++ (w.tokens ++ more))
      (.binary op lhs rhs (lhs.span rhs)) rest := by
  have hproduct := h.resolve_right fun ⟨_, _, hlt⟩ => absurd hfront (Nat.ne_of_lt hlt)
  rw [hproduct.span_eq hrhs w.tokens]
  exact .inl (.factor w hproduct hlevel hrhs)

theorem term (h : Climbing least depth chain taken lhs tokens) (w : Spelled op)
    (hlevel : op.level = .sum) (hleast : least ≤ 2)
    (hrhs : Parses .product (depth + chain + 1) deeper more rhs)
    (hrest : frontPrecedence rest < 3) :
    Climbing least depth (chain + 1) (taken ++ (w.tokens ++ more))
      (.binary op lhs rhs (lhs.span rhs)) rest := by
  rw [h.sum.span_eq hrhs w.tokens]
  exact .inr ⟨hleast, .term w h.sum hlevel hrhs, hrest⟩

end Climbing

namespace Descent.Yielding

variable {all : List Token} {d : Descent}

/-- The operators of a chain open one level each; what binds tighter on the right is a chain of
its own on top of these. -/
theorem operators (h : d.Yielding all) {least fuel : Nat} (hleast : 2 ≤ least) {s s₁ : Stream}
    {chain : Nat} {taken : List Token} {lhs : Expr} (hs : Underway all s₁)
    (hfuel : s₁.tokens.length < fuel) (hmoves : Moves s taken chain s₁)
    (hlhs : Climbing least s.depth chain taken lhs s₁.tokens) :
    Runs (d.operators least lhs fuel) s₁ (fun e s' => frontPrecedence s'.tokens < least ∧
      Grows s (Parses (climbed least) s.depth) e s') (Blames all) := by
  induction fuel generalizing least s chain taken lhs s₁ with
  | zero => exact absurd hfuel (Nat.not_lt_zero _)
  | succ fuel ih =>
      apply Runs.peekPrecedence
      apply Runs.ite
      · intro hstop
        simp only [Bool.or_eq_true, decide_eq_true_eq] at hstop
        exact Runs.pure ⟨by omega, taken, chain, hmoves, hlhs.parses⟩
      · intro hgo
        simp only [Bool.or_eq_true, decide_eq_true_eq, not_or, Nat.not_lt] at hgo
        apply hs.enter
        intro s₂ hs₂ henter
        have hsame : s₂.tokens = s₁.tokens := henter.tokens.symm
        apply Runs.bind (runs_operator hs₂ (hsame ▸ hgo.1))
        rintro op s₃ ⟨⟨w, hop⟩, hprecedence⟩
        have hs₃ := hop.underway hs₂
        apply hs₃.bind h.unary
        intro operand more s₄ hs₄ hoperand htree
        have hlength := hop.length_eq
        have hlength' := hoperand.length_eq
        have hopened := hmoves.trans (henter.trans hop)
        have hmost := frontPrecedence_le s₁.tokens
        have hmost' := frontPrecedence_le s₄.tokens
        have hpositive := List.length_pos_iff.mpr w.tokens_ne_nil
        rw [hsame] at hprecedence hlength
        have hdeep : s₃.depth = s.depth + chain + 1 := hopened.depth
        rw [Nat.add_zero] at htree
        -- Once the operand on the right is complete, the loop goes on with it.
        have hmore : ∀ {rhs : Expr} {right : List Token} {s₅ : Stream}, Underway all s₅ →
            s₅.tokens.length < fuel → Moves s₃ right 0 s₅ →
              Climbing least s.depth (chain + 1) (taken ++ (w.tokens ++ right))
                (.binary op lhs rhs (lhs.span rhs)) s₅.tokens →
                  Runs (d.operators least (.binary op lhs rhs (lhs.span rhs)) fuel) s₅
                    (fun e s' => frontPrecedence s'.tokens < least ∧
                      Grows s (Parses (climbed least) s.depth) e s') (Blames all) := by
          intro rhs right s₅ hs₅ hfuel' hrhs hclimbing
          have hdone := hmoves.trans (henter.trans (hop.trans hrhs))
          exact ih hleast hs₅ hfuel' hdone hclimbing
        apply Runs.peekPrecedence
        apply Runs.ite
        · intro hfollowing
          have hlevel := Level.eq_sum (show op.level.precedence = 2 by omega)
          apply Runs.bind (Q := fun rhs s₅ => frontPrecedence s₅.tokens < 3 ∧
            ∃ right, Moves s₃ right 0 s₅ ∧ Chained .product s₃.depth right rhs)
          · apply Runs.restoringDepth
            have hthree : frontPrecedence s₄.tokens = 3 := by omega
            rw [hthree]
            apply Runs.imp (ih (by decide) hs₄ (by omega) hoperand (.inl (.product htree)))
            rintro rhs s₅ ⟨hfront, right, deeper, hrhs, htree'⟩
            refine ⟨hfront, right, ?_, deeper, htree'⟩
            rw [hoperand.depth]
            exact hrhs.restored
          · rintro rhs s₅ ⟨hfront, right, hrhs, deeper, htree'⟩
            have hlength'' := hrhs.length_eq
            rw [hdeep] at htree'
            exact hmore (hrhs.underway hs₃) (by omega) hrhs
              (hlhs.term w hlevel (by omega) htree' hfront)
        · intro hfollowing
          rw [hdeep] at htree
          apply hmore hs₄ (by omega) hoperand
          have hwhich := Level.eq_product_or_sum (show 2 ≤ op.level.precedence by omega)
          rcases hwhich with hlevel | hlevel
          · have hthree : op.level.precedence = 3 := congrArg Level.precedence hlevel
            exact hlhs.factor w hlevel (by omega) htree
          · have htwo : op.level.precedence = 2 := congrArg Level.precedence hlevel
            exact hlhs.term w hlevel (by omega) (.product htree) (by omega)

theorem arithmetic (h : d.Yielding all) : Spends all d.arithmetic (Chained .sum) := by
  intro s hs
  apply hs.bind h.unary
  intro lhs taken s₁ hs₁ hlhs htree
  apply Runs.restoringDepth
  apply Runs.rounds
  apply Runs.imp (h.operators (Nat.le_refl 2) hs₁ (Nat.lt_succ_self _) hlhs (.inl (.product htree)))
  rintro e s₂ ⟨-, taken, chain, hmoves, he⟩
  rw [hlhs.depth]
  exact ⟨taken, hmoves.restored, chain, he⟩

end Descent.Yielding

/-- The comparisons read so far are `before`, of which `lhs` is the last operand; without any,
it is the first. -/
def Compared (depth : Nat) (before : Option Expr) (last : Stretch) (chain : Nat)
    (taken : List Token) : Prop :=
  match before with
  | none => chain = 0 ∧ taken = last.tokens ∧ Chained .sum depth taken last.tree
  | some e => Parses (.comparison last) depth chain taken e

namespace Compared

variable {depth chain deeper : Nat} {taken more : List Token} {before : Option Expr}
  {last : Stretch} {rhs : Expr} {op : BinaryOp}

theorem finished (h : Compared depth before last chain taken) :
    Parses .negation depth 0 taken (before.getD last.tree) := by
  cases before with
  | none =>
      obtain ⟨-, -, _, htree⟩ := h
      exact .operand htree
  | some e => exact .compared h

/-- One more comparison, of the last operand with `rhs`. -/
theorem next (h : Compared depth before last chain taken) (w : Spelled op)
    (hop : op.level = .comparison) (hrhs : Parses .sum (depth + chain + 1) deeper more rhs) :
    Compared depth
      (some <|
        let pair := .binary op last.tree rhs (last.tree.span rhs)
        match before with
        | some e => .and e pair (e.span pair)
        | none => pair)
      ⟨more, rhs⟩ (chain + 1) (taken ++ (w.tokens ++ more)) := by
  cases before with
  | none =>
      obtain ⟨rfl, rfl, _, hlhs⟩ := h
      have hspan := hlhs.span_eq hrhs w.tokens
      have hpair := Parses.pair w hlhs hop hrhs
      rwa [← hspan] at hpair
  | some e =>
      obtain ⟨_, _, _, _, _, -, hlast, -⟩ := h.of_comparison
      have hpair := hlast.span_eq hrhs w.tokens
      have hwhole : e.span (.binary op last.tree rhs (last.tree.span rhs)) =
          hull (taken ++ (w.tokens ++ more)) := h.span_eq hrhs w.tokens
      have hlink := Parses.link w h hop hrhs
      rwa [← hpair, ← hwhole] at hlink

end Compared

namespace Descent.Yielding

variable {all : List Token} {d : Descent}

theorem comparisons (h : d.Yielding all) (fuel : Nat) {s s₁ : Stream} {before : Option Expr}
    {last : Stretch} {chain : Nat} {taken : List Token} (hs : Underway all s₁)
    (hmoves : Moves s taken chain s₁) (hread : Compared s.depth before last chain taken) :
    Runs (d.comparisons before last.tree fuel) s₁
      (Grows s fun _ taken e => Parses .negation s.depth 0 taken e) (Blames all) := by
  induction fuel generalizing before last chain taken s₁ with
  | zero => exact Runs.pure ⟨taken, chain, hmoves, hread.finished⟩
  | succ fuel ih =>
      apply Runs.peekPrecedence
      apply Runs.ite
      · intro _
        exact Runs.pure ⟨taken, chain, hmoves, hread.finished⟩
      · intro hone
        apply hs.enter
        intro s₂ hs₂ henter
        have hone : frontPrecedence s₂.tokens = 1 := by
          rw [show s₂.tokens = s₁.tokens from henter.tokens.symm]
          exact Decidable.not_not.mp hone
        apply Runs.bind (runs_operator hs₂ (by rw [hone]; exact Nat.one_ne_zero))
        rintro op s₃ ⟨⟨w, hop⟩, hprecedence⟩
        apply (hop.underway hs₂).bind h.arithmetic
        rintro rhs more s₄ hs₄ hrhs ⟨deeper, htree⟩
        rw [(hmoves.trans (henter.trans hop)).depth] at htree
        have hlevel := Level.eq_comparison (hprecedence.trans hone)
        have hdone := hmoves.trans (henter.trans (hop.trans hrhs))
        exact ih hs₄ hdone (hread.next w hlevel htree)

theorem comparison (h : d.Yielding all) : Yields all .negation 0 d.comparison := by
  intro s hs
  apply Underway.restoringDepth
  apply hs.bind h.arithmetic
  intro lhs taken s₁ hs₁ hlhs htree
  apply Runs.rounds
  exact @comparisons _ _ h _ _ _ none ⟨taken, lhs⟩ _ _ hs₁ hlhs ⟨rfl, rfl, htree⟩

theorem negation (h : d.Yielding all) : Yields all .negation 0 d.negation := by
  intro s hs
  apply Underway.peekStart
  intro start hstart
  apply hs.ifConsume
  · intro w s₁ hs₁ hnot
    apply hs₁.bind h.notOperand
    intro operand taken s₂ _ hoperand htree
    rw [hnot.depth] at htree
    apply (hnot.trans hoperand).rangeFrom (by simp) hstart
    exact Runs.pure ⟨_, hnot.trans hoperand, .not w htree⟩
  · exact h.comparison s hs

theorem conjunction (h : d.Yielding all) : Spends all d.conjunction (Chained .conjunction) := by
  intro s hs
  apply Underway.restoringDepth
  apply hs.bind h.negation
  intro lhs taken s₁ hs₁ hlhs htree
  apply Runs.rounds
  rw [conjuncts_eq]
  refine Runs.imp (grows_joins (Q := Parses .conjunction s.depth) h.negation .andWord
    (fun w hlhs hrhs => ?_) _ hs₁ hlhs (.conjunction htree)) ?_
  · have hspan := hlhs.span_eq hrhs [w.1]
    have hand := Parses.and w hlhs hrhs
    rwa [← List.singleton_append, ← hspan] at hand
  · rintro e s₂ ⟨taken, chain, hmoves, he⟩
    exact ⟨taken, chain, hmoves, chain, he⟩

theorem disjunctionOf (h : d.Yielding all) : Yields all .disjunction 0 d.disjunctionOf := by
  intro s hs
  apply Underway.restoringDepth
  apply hs.bind h.conjunction
  rintro lhs taken s₁ hs₁ hlhs ⟨_, htree⟩
  apply Runs.rounds
  rw [disjuncts_eq]
  refine Runs.imp (grows_joins (Q := Parses .disjuncts s.depth) h.conjunction .orWord
    (fun w hlhs hrhs => ?_) _ hs₁ hlhs (.disjuncts htree)) ?_
  · obtain ⟨_, hrhs⟩ := hrhs
    have hspan := hlhs.span_eq hrhs [w.1]
    have hor := Parses.or w hlhs hrhs
    rwa [← List.singleton_append, ← hspan] at hor
  · rintro e s₂ ⟨taken, chain, hmoves, he⟩
    exact ⟨taken, chain, hmoves, .disjunction he⟩

theorem lambda (h : d.Yielding all) (w : Marked .lambdaWord) {start : Position} {s s₁ : Stream}
    (hstart : s.StartsAt start) (hs : Underway all s₁) (hword : Moves s [w.1] 0 s₁) :
    Runs (d.lambda start) s₁ (fun e s' => ∃ taken, Moves s taken 0 s' ∧
      Parses .expr s.depth 0 taken e) (Blames all) := by
  have hbody : ∀ (params : NameStretch) {s₂ : Stream}, params.names.Nodup → Underway all s₂ →
      Moves s₁ params.tokens 0 s₂ → Runs (do
          expect .colon
          let body ← d.expr
          return Expr.lambda params.names body (← Expr.rangeFrom start)) s₂
        (fun e s' => ∃ taken, Moves s taken 0 s' ∧ Parses .expr s.depth 0 taken e)
        (Blames all) := by
    intro params s₂ hnodup hs₂ hparams
    apply hs₂.expect
    intro colon s₃ hs₃ hcolon
    apply hs₃.bind h.expr
    intro body taken s₄ _ hmoves htree
    rw [(hword.trans (hparams.trans hcolon)).depth] at htree
    have hdone := hword.trans (hparams.trans (hcolon.trans hmoves))
    apply hdone.rangeFrom (by simp) hstart
    exact Runs.pure ⟨_, hdone, .lambda w params colon hnodup htree⟩
  apply Runs.ifPeek
  · intro _
    exact hbody ⟨[], [], rfl⟩ .nil hs (.refl s₁)
  · intro _
    apply Runs.rounds
    apply hs.bind (spends_parameters [] _)
    rintro _ _ s₂ hs₂ hparams ⟨params, rfl, rfl, -, hnodup, -⟩
    exact hbody params hnodup hs₂ hparams

theorem conditional (h : d.Yielding all) : Yields all .expr 0 d.conditional := by
  intro s hs
  apply Underway.peekStart
  intro start hstart
  apply hs.ifConsume
  · intro w s₁ hs₁ hword
    exact h.lambda w hstart hs₁ hword
  · apply hs.bind h.disjunctionOf
    intro yes taken s₁ hs₁ hyes htree
    apply hs₁.ifConsume
    · intro i s₂ hs₂ hif
      apply hs₂.bind h.disjunctionOf
      intro cond condTaken s₃ hs₃ hcond hcondTree
      apply hs₃.expect
      intro j s₄ hs₄ helse
      apply hs₄.bind h.expr
      intro no noTaken s₅ _ hno hnoTree
      rw [(hyes.trans hif).depth] at hcondTree
      rw [(hyes.trans (hif.trans (hcond.trans helse))).depth] at hnoTree
      have hdone := hyes.trans (hif.trans (hcond.trans (helse.trans hno)))
      apply hdone.rangeFrom (by simp) hstart
      exact Runs.pure ⟨_, hdone, @Parses.conditional _ ⟨taken, yes⟩ ⟨condTaken, cond⟩
        ⟨noTaken, no⟩ i j htree hcondTree hnoTree⟩
    · exact Runs.pure ⟨taken, hyes, .expr htree⟩

/-- However many tokens are left, what is called back into reads what it should. -/
theorem ofLength (fuel : Nat) : (Descent.ofLength fuel).Yielding all := by
  induction fuel with
  | zero =>
      have hthrow : ∀ {layer extra}, Yields all layer extra (throw .unexpectedEof) :=
        fun _ _ => Runs.throw (by trivial)
      exact ⟨hthrow, hthrow, hthrow, hthrow⟩
  | succ fuel ih =>
      exact ⟨ih.conditional.nested, ih.negation.nested, ih.unary.nested, ih.disjunctionOf⟩

end Descent.Yielding

section Whole

variable {α : Type} {all : List Token} {s : Stream} {E : ExprError → Prop}

theorem Runs.peekEof {f : Bool → Parse α} {Q : α → Stream → Prop}
    (h : ∀ atEnd, Runs (f atEnd) s Q E) : Runs (peekEof >>= f) s Q E := by
  obtain ⟨_ | ⟨token, rest⟩, lastEnd, lastStop, depth⟩ := s
  · exact Runs.look rfl (h false)
  · exact Runs.look rfl (h token.isEof)

theorem Runs.peekOffset {f : Nat → Parse α} {Q : α → Stream → Prop}
    (h : ∀ offset, Runs (f offset) s Q E) : Runs (peekOffset >>= f) s Q E := by
  obtain ⟨_ | ⟨token, rest⟩, lastEnd, lastStop, depth⟩ := s
  · exact Runs.look rfl (h lastStop)
  · exact Runs.look rfl (h token.start)

theorem Underway.expectEof {f : Unit → Parse α} {Q : α → Stream → Prop} (hs : Underway all s)
    (hf : ∀ (eof : Token) s', s.tokens = eof :: s'.tokens → eof.isEof = true →
      Runs (f ()) s' Q (Blames all)) : Runs (expectEof >>= f) s Q (Blames all) := by
  apply Runs.expectEof hf
  · intro _
    trivial
  · intro token _ htokens hnot
    exact ⟨hs.front_mem htokens, hnot⟩

theorem yields_expression : Yields all .expr 1 expression := by
  intro s hs
  apply Runs.rounds
  exact (Descent.Yielding.ofLength _).expr s hs

/-- An accepted text is read from tokens in front of the end. -/
theorem runs_whole_parses (hs : Underway all s) :
    Runs whole s (fun e _ => ∃ taken eof rest, s.tokens = taken ++ eof :: rest ∧
      eof.isEof = true ∧ Parses .expr (s.depth + 1) 0 taken e) (Blames all) := by
  apply Runs.peekEof
  intro atEnd
  apply Runs.ite
  · intro _
    exact Runs.throw trivial
  · intro _
    apply hs.bind yields_expression
    intro e taken s₁ hs₁ hmoves htree
    apply hs₁.expectEof
    intro eof s₂ htokens heof
    have hsplit := hmoves.tokens
    rw [htokens] at hsplit
    exact Runs.pure ⟨taken, eof, _, hsplit, heof, htree⟩

theorem underway_all (tokens : List Token) : Underway tokens { tokens } :=
  ⟨List.suffix_rfl, Nat.zero_le maxDepth⟩

/-- The value of an argument is an expression; its keyword was read as one before it. -/
theorem spends_argument :
    Spends all argument fun depth _ a => ∃ taken, Parses .expr (depth + 1) 0 taken a.value := by
  intro s hs
  apply Runs.peekOffset
  intro start
  apply hs.bind yields_expression
  intro value taken s₁ hs₁ hvalue htree
  have hplain : ∀ (value : Expr), Parses .expr (s.depth + 1) 0 taken value →
      Runs (do return (⟨none, value, start, (← get).lastStop⟩ : Argument)) s₁
        (fun a s' => ∃ text, Moves s text 0 s' ∧
          ∃ taken, Parses .expr (s.depth + 1) 0 taken a.value)
        (Blames all) := by
    intro value htree
    apply Runs.look rfl
    exact Runs.pure ⟨taken, hvalue, taken, htree⟩
  dsimp only
  split
  · apply hs₁.ifConsume
    · intro w s₂ hs₂ hequal
      apply Runs.peekOffset
      intro start'
      apply hs₂.bind yields_expression
      intro value more s₃ _ hmoves htree'
      rw [(hvalue.trans hequal).depth] at htree'
      apply Runs.look rfl
      exact Runs.pure ⟨_, (hvalue.trans hequal).trans hmoves, more, htree'⟩
    · exact hplain _ htree
  · exact hplain _ htree

theorem spends_argumentList (fuel : Nat) :
    Spends all (argumentList fuel) fun depth _ args =>
      ∀ a ∈ args, ∃ taken, Parses .expr (depth + 1) 0 taken a.value := by
  induction fuel with
  | zero =>
      intro s _
      exact Runs.throw (by trivial)
  | succ fuel ih =>
      intro s hs
      apply Runs.peekEof
      intro atEnd
      apply Runs.ite
      · intro _
        exact Runs.pure ⟨_, .refl s, List.forall_mem_nil _⟩
      · intro _
        apply hs.bind spends_argument
        intro first taken s₁ hs₁ hmoves hfirst
        apply hs₁.ifConsume
        · intro w s₂ hs₂ hcomma
          apply hs₂.bind ih
          intro rest more s₃ _ hmore hrest
          rw [hcomma.depth, hmoves.depth] at hrest
          refine Runs.pure ⟨_, (hmoves.trans hcomma).trans hmore, ?_⟩
          exact List.forall_mem_cons.mpr ⟨hfirst, hrest⟩
        · exact Runs.pure ⟨taken, hmoves, List.forall_mem_singleton.mpr hfirst⟩

/-- What a parser gives alone, without the stream that it leaves. -/
theorem Runs.map_fst {p : Parse α} {P : α → Prop} (h : Runs p s (fun a _ => P a) E) :
    (∀ a, (p.run s).map Prod.fst = .ok a → P a) ∧
      ∀ e, (p.run s).map Prod.fst = .error e → E e := by
  unfold Runs at h
  change (∀ a, (p s).map Prod.fst = .ok a → P a) ∧ ∀ e, (p s).map Prod.fst = .error e → E e
  split at h <;> rename_i heq <;> rw [heq]
  · exact ⟨by rintro _ ⟨⟩; exact h, nofun⟩
  · exact ⟨nofun, by rintro _ ⟨⟩; exact h⟩

/-- A measure of a result is one of a result that there is. -/
theorem ok_of_map_toOption {ε β : Type} {result : Except ε α} {f : α → β} {b : β}
    (h : result.toOption.map f = some b) : ∃ a, result = .ok a ∧ f a = b := by
  cases result with
  | error e => cases h
  | ok a => exact ⟨a, rfl, Option.some.inj h⟩

/-- A measure fails where the result does, and with its error. -/
theorem error_of_map {ε β : Type} {result : Except ε α} {f : α → β} {e : ε}
    (h : result.map f = .error e) : result = .error e := by
  cases result with
  | error e' => exact congrArg Except.error (Except.error.inj h)
  | ok a => cases h

variable {tokens : List Token}

/-- An accepted expression is read from its tokens with one level open. -/
theorem parses_of_ofTokens? {e : Expr} (h : ofTokens? tokens = .ok e) :
    ∃ taken eof rest, tokens = taken ++ eof :: rest ∧ eof.isEof = true ∧
      Parses .expr 1 0 taken e :=
  (runs_whole_parses (underway_all tokens)).map_fst.1 e h

/-- It is built from them. -/
theorem builds_of_ofTokens? {e : Expr} (h : ofTokens? tokens = .ok e) :
    ∃ n, n ≤ tokens.length ∧ Builds .expr 1 0 n e := by
  obtain ⟨taken, eof, rest, rfl, -, htree⟩ := parses_of_ofTokens? h
  refine ⟨_, ?_, htree.builds⟩
  rw [List.length_append]
  exact Nat.le_add_right ..

theorem blames_of_ofTokens? {e : ExprError} (h : ofTokens? tokens = .error e) :
    Blames tokens e :=
  (runs_whole_parses (underway_all tokens)).map_fst.2 e h

theorem runs_arguments_parses (tokens : List Token) :
    Runs (do
        let args ← argumentList (← rounds)
        expectEof
        return args) { tokens }
      (fun args _ => ∀ a ∈ args, ∃ taken, Parses .expr 1 0 taken a.value) (Blames tokens) := by
  have hs := underway_all tokens
  apply Runs.rounds
  apply hs.bind (spends_argumentList _)
  intro args taken s₁ hs₁ _ hargs
  apply hs₁.expectEof
  intro eof s₂ _ _
  exact Runs.pure hargs

/-- So is every value that is written as an argument. -/
theorem builds_of_argumentsOfTokens? {args : List Argument}
    (h : argumentsOfTokens? tokens = .ok args) :
    ∀ a ∈ args, ∃ n, Builds .expr 1 0 n a.value := by
  intro a ha
  obtain ⟨taken, htree⟩ := (runs_arguments_parses tokens).map_fst.1 args h a ha
  exact ⟨_, htree.builds⟩

theorem blames_of_argumentsOfTokens? {e : ExprError} (h : argumentsOfTokens? tokens = .error e) :
    Blames tokens e :=
  (runs_arguments_parses tokens).map_fst.2 e h

end Whole

/-- Tokens of one character each, the first of them in the given column. -/
def placed : Nat → List TokenKind → List Token
  | _, [] => []
  | column, kind :: rest =>
      { kind, start := column - 1, stop := column,
        range := ⟨⟨1, column⟩, ⟨1, column + 1⟩⟩ } :: placed (column + 1) rest

theorem map_kind_placed (column : Nat) (kinds : List TokenKind) :
    (placed column kinds).map (·.kind) = kinds := by
  induction kinds generalizing column with
  | nil => rfl
  | cons kind rest ih => rw [placed, List.map_cons, ih]

end Expr
end Stencil
