/-
How many levels a parser opens.  Every parser of the grammar closes what it opened, so a level is
paid for by what stands inside it and by nothing beside it; and as it never asks how many levels
are open except to open one more, it reads with fewer of them open what it reads with more.
-/
import Stencil.Proofs.Expr.Building
import Stencil.Proofs.Expr.Locality
import Stencil.Proofs.Expr.Rereading

namespace Stencil
namespace Expr

/-- The stream with so many more levels open. -/
def Stream.deeper (s : Stream) (levels : Nat) : Stream := { s with depth := s.depth + levels }

theorem Stream.deeper_sub {s : Stream} {depth : Nat} (h : depth ≤ s.depth) :
    ({ s with depth } : Stream).deeper (s.depth - depth) = s := by
  rw [deeper]
  simp only [Nat.add_sub_cancel' h]

theorem Stream.deeper_injective (levels : Nat) :
    Function.Injective fun s : Stream => s.deeper levels := by
  rintro ⟨_, _, _, depth⟩ ⟨_, _, _, depth'⟩ h
  simp only [deeper, Stream.mk.injEq, Nat.add_right_cancel_iff] at h
  obtain ⟨rfl, rfl, rfl, rfl⟩ := h
  rfl

/-- The parser opens and closes no level, and does the same however many are open. -/
def Plain {α : Type} (p : Parse α) : Prop :=
  ∀ (s : Stream) (depth : Nat),
    p { s with depth } = (p s).map fun (a, s') => (a, { s' with depth })

/-- From `s` the parser comes to `s'` with the result `a`, and it opens no level above `most` on
the way. -/
inductive RunsUpTo (most : Nat) : {α : Type} → Parse α → Stream → α → Stream → Prop where
  | plain {α : Type} {p : Parse α} {s s' : Stream} {a : α} :
      Plain p → p s = .ok (a, s') → RunsUpTo most p s a s'
  | enter {s : Stream} : s.depth < maxDepth → s.depth < most →
      RunsUpTo most enter s () { s with depth := s.depth + 1 }
  | bind {α β : Type} {p : Parse α} {f : α → Parse β} {s s₁ s₂ : Stream} {a : α} {b : β} :
      RunsUpTo most p s a s₁ → RunsUpTo most (f a) s₁ b s₂ → RunsUpTo most (p >>= f) s b s₂
  | restoringDepth {α : Type} {p : Parse α} {s s₁ : Stream} {a : α} :
      RunsUpTo most p s a s₁ → RunsUpTo most (restoringDepth p) s a { s₁ with depth := s.depth }

/-- What the parser reads with more levels open it reads with fewer, and opens that many fewer. -/
def Metered {α : Type} (p : Parse α) : Prop :=
  ∀ ⦃s s' : Stream⦄ ⦃a : α⦄ ⦃levels : Nat⦄, p (s.deeper levels) = .ok (a, s') →
    ∃ s₁ : Stream, s' = s₁.deeper levels ∧ RunsUpTo (maxDepth - levels) p s a s₁

/-- A parser that is metered and leaves as many levels open as it found. -/
structure Restoring {α : Type} (p : Parse α) : Prop where
  metered : Metered p
  depth_eq : ∀ ⦃s s' : Stream⦄ ⦃a : α⦄, p s = .ok (a, s') → s'.depth = s.depth

section Plain

variable {α β : Type} {p : Parse α}

namespace Plain

theorem of_ok (h : Plain p) {s s' : Stream} {a : α} (hrun : p s = .ok (a, s')) (depth : Nat) :
    p { s with depth } = .ok (a, { s' with depth }) := by
  rw [h s depth, hrun]
  rfl

theorem depth_eq (h : Plain p) {s s' : Stream} {a : α} (hrun : p s = .ok (a, s')) :
    s'.depth = s.depth := by
  have hsame : p s = .ok (a, { s' with depth := s.depth }) := h.of_ok hrun s.depth
  rw [hrun] at hsame
  have hstream := (Prod.mk.inj (Except.ok.inj hsame)).2
  rw [hstream]

theorem pure (a : α) : Plain (pure a) := fun _ _ => rfl

theorem throw (e : ExprError) : Plain (throw e : Parse α) := fun _ _ => rfl

theorem bind {f : α → Parse β} (hp : Plain p) (hf : ∀ a, Plain (f a)) : Plain (p >>= f) := by
  intro s depth
  rcases hrun : p s with e | ⟨a, s₁⟩
  · have hrun' := hp s depth
    rw [hrun] at hrun'
    rw [bind_of_error hrun, bind_of_error hrun']
    rfl
  · rw [bind_of_ok hrun, bind_of_ok (hp.of_ok hrun depth)]
    exact hf a s₁ depth

theorem ite {q : Parse α} {c : Prop} [Decidable c] (hp : Plain p) (hq : Plain q) :
    Plain (if c then p else q) := by
  split
  · exact hp
  · exact hq

theorem next : Plain Expr.next := by
  rintro ⟨_ | ⟨t, rest⟩, lastEnd, lastStop, _⟩ depth <;> rfl

theorem peekIs (m : Mark) : Plain (peekIs m) := by
  rintro ⟨_ | ⟨t, rest⟩, lastEnd, lastStop, _⟩ depth <;> rfl

theorem peekEof : Plain peekEof := by
  rintro ⟨_ | ⟨t, rest⟩, lastEnd, lastStop, _⟩ depth <;> rfl

theorem peekStart : Plain peekStart := by
  rintro ⟨_ | ⟨t, rest⟩, lastEnd, lastStop, _⟩ depth <;> rfl

theorem peekOffset : Plain peekOffset := by
  rintro ⟨_ | ⟨t, rest⟩, lastEnd, lastStop, _⟩ depth <;> rfl

theorem peekPrecedence : Plain peekPrecedence := by
  intro s depth
  rw [peekPrecedence_eq, peekPrecedence_eq]
  rfl

theorem rangeFrom (start : Position) : Plain (rangeFrom start) := fun _ _ => rfl

theorem rounds : Plain rounds := fun _ _ => rfl

theorem consume (m : Mark) : Plain (consume m) := by
  refine (peekIs m).bind fun front => ?_
  exact (next.bind fun _ => pure true).ite (pure false)

theorem expect (m : Mark) : Plain (expect m) :=
  next.bind fun _ => (pure ()).ite (throw _)

theorem expectIdent : Plain expectIdent := by
  refine next.bind fun token => ?_
  split
  · exact pure _
  · exact throw _

theorem expectEof : Plain expectEof :=
  next.bind fun _ => (pure ()).ite (throw _)

theorem operator : Plain operator := by
  refine next.bind fun token => ?_
  split
  case h_8 => exact (expect .inWord).bind fun _ => pure _
  all_goals first | exact pure _ | exact throw _

/-- A result that holds the end of the last token taken. -/
theorem lastStop (f : Nat → α) : Plain (do return f (← get).lastStop) := fun _ _ => rfl

end Plain

end Plain

namespace RunsUpTo

variable {α : Type} {most : Nat} {p : Parse α} {s s' : Stream} {a : α}

/-- The parser comes there. -/
theorem run (h : RunsUpTo most p s a s') : p s = .ok (a, s') := by
  induction h with
  | plain _ hrun => exact hrun
  | enter hdepth _ => exact enter_eq hdepth
  | bind _ _ ih ih' => exact (bind_of_ok ih).trans ih'
  | restoringDepth _ ih => rw [restoringDepth_eq, bind_of_ok ih]

/-- Behind more open levels it opens as many more. -/
theorem deeper (h : RunsUpTo most p s a s') {levels : Nat} (hlevels : most + levels ≤ maxDepth) :
    RunsUpTo (most + levels) p (s.deeper levels) a (s'.deeper levels) := by
  induction h with
  | @plain _ _ s s' _ hp hrun =>
      refine .plain hp ?_
      rw [Stream.deeper, hp.of_ok hrun, Stream.deeper, hp.depth_eq hrun]
  | @enter s _ hmost =>
      have hlt : (s.deeper levels).depth < most + levels := Nat.add_lt_add_right hmost levels
      have henter := RunsUpTo.enter (Nat.lt_of_lt_of_le hlt hlevels) hlt
      have heq : ({ s with depth := s.depth + 1 } : Stream).deeper levels =
          { s.deeper levels with depth := (s.deeper levels).depth + 1 } := by
        simp only [Stream.deeper, Nat.add_right_comm]
      rwa [heq]
  | bind _ _ ih ih' => exact .bind ih ih'
  | @restoringDepth _ _ s _ _ _ ih => exact ih.restoringDepth

end RunsUpTo

section Closure

variable {α β : Type} {p q : Parse α}

namespace Metered

theorem bind {f : α → Parse β} (hp : Metered p) (hf : ∀ a, Metered (f a)) :
    Metered (p >>= f) := by
  intro s s₂ b levels hrun
  obtain ⟨a, s₁, hfirst, hsecond⟩ := ok_of_bind hrun
  obtain ⟨t₁, rfl, hupTo⟩ := hp hfirst
  obtain ⟨t₂, rfl, hupTo'⟩ := hf a hsecond
  exact ⟨t₂, rfl, hupTo.bind hupTo'⟩

theorem ite {c : Prop} [Decidable c] (hp : Metered p) (hq : Metered q) :
    Metered (if c then p else q) := by
  split
  · exact hp
  · exact hq

theorem enter : Metered enter := by
  intro s s₁ a levels hrun
  by_cases hdepth : (s.deeper levels).depth < maxDepth
  · rw [enter_eq hdepth] at hrun
    cases hrun
    have hlt : s.depth + levels < maxDepth := hdepth
    refine ⟨{ s with depth := s.depth + 1 }, ?_, .enter (by omega) (by omega)⟩
    simp only [Stream.deeper, Nat.add_right_comm]
  · obtain ⟨place, henter, -⟩ := enter_error hdepth
    rw [henter] at hrun
    cases hrun

end Metered

namespace Restoring

theorem plain (h : Plain p) : Restoring p where
  metered := by
    intro s s' a levels hrun
    have hlow : p s = .ok (a, { s' with depth := s.depth }) := h.of_ok hrun s.depth
    refine ⟨_, ?_, .plain h hlow⟩
    have hdepth : s'.depth = s.depth + levels := h.depth_eq hrun
    simp only [Stream.deeper, ← hdepth]
  depth_eq _ _ _ := h.depth_eq

theorem bind {f : α → Parse β} (hp : Restoring p) (hf : ∀ a, Restoring (f a)) :
    Restoring (p >>= f) where
  metered := hp.metered.bind fun a => (hf a).metered
  depth_eq s s₂ b hrun := by
    obtain ⟨a, s₁, hfirst, hsecond⟩ := ok_of_bind hrun
    rw [(hf a).depth_eq hsecond, hp.depth_eq hfirst]

theorem pure (a : α) : Restoring (pure a) := .plain (.pure a)

theorem throw (e : ExprError) : Restoring (throw e : Parse α) := .plain (.throw e)

theorem ite {c : Prop} [Decidable c] (hp : Restoring p) (hq : Restoring q) :
    Restoring (if c then p else q) := by
  split
  · exact hp
  · exact hq

/-- Whatever levels a parser opens, they are closed behind it. -/
theorem restoringDepth (h : Metered p) : Restoring (restoringDepth p) where
  metered := by
    intro s s' a levels hrun
    rw [restoringDepth_eq] at hrun
    obtain ⟨b, s₁, hinner, hs'⟩ := ok_of_bind hrun
    cases hs'
    obtain ⟨t₁, rfl, hupTo⟩ := h hinner
    exact ⟨{ t₁ with depth := s.depth }, rfl, hupTo.restoringDepth⟩
  depth_eq s s' a hrun := by
    rw [restoringDepth_eq] at hrun
    obtain ⟨b, s₁, -, hs'⟩ := ok_of_bind hrun
    cases hs'
    rfl

theorem ifConsume {m : Mark} (hp : Restoring p) (hq : Restoring q) :
    Restoring (do if ← consume m then p else q) :=
  (plain (.consume m)).bind fun _ => hp.ite hq

theorem ifPeek {m : Mark} (hp : Restoring p) (hq : Restoring q) :
    Restoring (do if ← peekIs m then p else q) :=
  (plain (.peekIs m)).bind fun _ => hp.ite hq

/-- A result over the range from `start` to the last token taken. -/
theorem ranged (start : Position) (f : Range → α) : Restoring (do return f (← rangeFrom start)) :=
  .plain ((Plain.rangeFrom start).bind fun _ => .pure _)

theorem nested (h : Metered p) : Restoring (nested p) :=
  .restoringDepth (Metered.enter.bind fun _ => h)

end Restoring

theorem Metered.ifConsume {m : Mark} (hp : Metered p) (hq : Metered q) :
    Metered (do if ← consume m then p else q) :=
  (Restoring.plain (.consume m)).metered.bind fun _ => hp.ite hq

end Closure

section Loops

variable {α : Type} {item : Parse α}

theorem restoring_listOf (hitem : Restoring item) (close : Mark) (fuel : Nat) :
    Restoring (listOf item close fuel) := by
  induction fuel with
  | zero => exact .throw _
  | succ fuel ih =>
      refine .ifConsume (.pure []) (hitem.bind fun first => .ifConsume ?_ ?_)
      · exact ih.bind fun rest => .pure _
      · exact (Restoring.plain (.expect close)).bind fun _ => .pure _

theorem restoring_collect (hitem : Restoring item) (word : Mark) (fuel : Nat) :
    Restoring (collect item word fuel) := by
  induction fuel with
  | zero => exact .pure []
  | succ fuel ih =>
      exact .ifConsume (hitem.bind fun first => ih.bind fun rest => .pure _) (.pure [])

theorem metered_joins {operand : Parse Expr} (hoperand : Restoring operand) (word : Mark)
    (join : Expr → Expr → Expr) (lhs : Expr) (fuel : Nat) :
    Metered (joins word operand join lhs fuel) := by
  induction fuel generalizing lhs with
  | zero => exact (Restoring.pure lhs).metered
  | succ fuel ih =>
      refine .ifConsume (Metered.enter.bind fun _ => ?_) (Restoring.pure lhs).metered
      exact hoperand.metered.bind fun rhs => ih (join lhs rhs)

theorem plain_parameters (seen : List String) (fuel : Nat) : Plain (parameters seen fuel) := by
  induction fuel generalizing seen with
  | zero => exact .throw _
  | succ fuel ih =>
      refine Plain.expectIdent.bind fun name => (Plain.throw _).ite ?_
      refine (Plain.consume .comma).bind fun comma => Plain.ite ?_ (.pure [name])
      exact (ih (name :: seen)).bind fun rest => .pure _

theorem plain_targets (fuel : Nat) : Plain (targets fuel) := by
  induction fuel with
  | zero => exact .throw _
  | succ fuel ih =>
      refine Plain.expectIdent.bind fun name => ?_
      refine (Plain.consume .comma).bind fun comma => Plain.ite ?_ (.pure [name])
      exact ih.bind fun rest => .pure _

theorem restoring_entry {item : Parse Expr} (hitem : Restoring item) : Restoring (entry item) :=
  hitem.bind fun _ => (Restoring.plain (.expect .colon)).bind fun _ => hitem.bind fun _ => .pure _

theorem restoring_clause {item : Parse Expr} (hitem : Restoring item) :
    Restoring (clause item) := by
  refine (Restoring.plain .rounds).bind fun fuel => ?_
  refine (Restoring.plain (plain_targets fuel)).bind fun names => ?_
  refine (Restoring.plain (.expect .inWord)).bind fun _ => hitem.bind fun source => ?_
  refine (Restoring.plain .rounds).bind fun fuel => ?_
  rw [conditions_eq]
  exact (restoring_collect hitem .ifWord fuel).bind fun tests => .pure _

end Loops

/-- The parsers that are called back into restore the levels. -/
structure Descent.Restoring (d : Descent) : Prop where
  expr : Expr.Restoring d.expr
  notOperand : Expr.Restoring d.notOperand
  unaryOperand : Expr.Restoring d.unaryOperand
  disjunction : Expr.Restoring d.disjunction

namespace Descent.Restoring

variable {d : Descent}

theorem list (h : d.Restoring) (start : Position) : Expr.Restoring (d.list start) := by
  have hclosed : ∀ f : Range → Expr, Expr.Restoring (do
      expect .rightBracket
      return f (← rangeFrom start)) := fun f =>
    (Expr.Restoring.plain (.expect .rightBracket)).bind fun _ => .ranged start f
  refine .ifConsume (.ranged start fun _ => _) (h.expr.bind fun first => ?_)
  refine .ifPeek ?_ (.ifConsume ?_ (hclosed _))
  · refine (Expr.Restoring.plain .rounds).bind fun fuel => ?_
    rw [clauses_eq]
    exact (restoring_collect (restoring_clause h.disjunction) .forWord fuel).bind fun parts =>
      hclosed _
  · refine (Expr.Restoring.plain .rounds).bind fun fuel => ?_
    rw [sequence_eq]
    exact (restoring_listOf h.expr .rightBracket fuel).bind fun rest => .ranged start _

theorem primary (h : d.Restoring) : Expr.Restoring d.primary := by
  refine (Expr.Restoring.plain .next).bind fun token => ?_
  dsimp only
  split
  case h_7 =>
    refine h.expr.bind fun inner => (Expr.Restoring.plain (.expect .rightParen)).bind fun _ => ?_
    exact .ranged _ _
  case h_8 => exact h.list _
  case h_9 =>
    refine (Expr.Restoring.plain .rounds).bind fun fuel => ?_
    rw [entries_eq]
    exact (restoring_listOf (restoring_entry h.expr) .rightBrace fuel).bind fun pairs =>
      .ranged _ _
  all_goals first | exact .ranged _ _ | exact .throw _

theorem suffixes (h : d.Restoring) (start : Position) (value : Expr) (fuel : Nat) :
    Metered (d.suffixes start value fuel) := by
  induction fuel generalizing value with
  | zero => exact (Expr.Restoring.pure value).metered
  | succ fuel ih =>
      have hnext : ∀ f : Range → Expr, Metered (do
          d.suffixes start (f (← rangeFrom start)) fuel) := fun f =>
        (Expr.Restoring.plain (.rangeFrom start)).metered.bind fun range => ih (f range)
      have hend := (Expr.Restoring.pure value).metered
      refine .ifConsume (Metered.enter.bind fun _ => ?_)
        (.ifConsume (Metered.enter.bind fun _ => ?_)
          (.ifConsume (Metered.enter.bind fun _ => ?_) hend))
      · exact (Expr.Restoring.plain .expectIdent).metered.bind fun name => hnext _
      · refine h.expr.metered.bind fun position => ?_
        exact (Expr.Restoring.plain (.expect .rightBracket)).metered.bind fun _ => hnext _
      · refine (Expr.Restoring.plain .rounds).metered.bind fun fuel => ?_
        rw [sequence_eq]
        exact (restoring_listOf h.expr .rightParen fuel).metered.bind fun args => hnext _

theorem suffixed (h : d.Restoring) : Expr.Restoring d.suffixed := by
  refine .restoringDepth ((Expr.Restoring.plain .peekStart).metered.bind fun start => ?_)
  refine h.primary.metered.bind fun value => ?_
  exact (Expr.Restoring.plain .rounds).metered.bind fun fuel => h.suffixes start value fuel

theorem power (h : d.Restoring) : Expr.Restoring d.power :=
  h.suffixed.bind fun base =>
    .ifConsume (h.unaryOperand.bind fun _ => .pure _) (.pure base)

theorem unary (h : d.Restoring) : Expr.Restoring d.unary := by
  refine (Expr.Restoring.plain .peekStart).bind fun start => ?_
  refine .ifConsume ?_ (.ifConsume ?_ h.power)
  · exact h.unaryOperand.bind fun operand => .ranged start _
  · exact h.unaryOperand.bind fun operand => .ranged start _

theorem operators (h : d.Restoring) (least : Nat) (lhs : Expr) (fuel : Nat) :
    Metered (d.operators least lhs fuel) := by
  induction fuel generalizing least lhs with
  | zero => exact (Expr.Restoring.pure lhs).metered
  | succ fuel ih =>
      refine (Expr.Restoring.plain .peekPrecedence).metered.bind fun precedence => ?_
      refine Metered.ite (Expr.Restoring.pure lhs).metered (Metered.enter.bind fun _ => ?_)
      refine (Expr.Restoring.plain .operator).metered.bind fun op => ?_
      refine h.unary.metered.bind fun operand => ?_
      refine (Expr.Restoring.plain .peekPrecedence).metered.bind fun following => ?_
      dsimp only
      have hmore : ∀ rhs, Metered (d.operators least (.binary op lhs rhs (lhs.span rhs)) fuel) :=
        fun rhs => ih least _
      -- The level of this operator stays open; those of a tighter chain behind it are closed.
      refine Metered.ite ?_ ((Expr.Restoring.pure operand).metered.bind hmore)
      exact (Expr.Restoring.restoringDepth (ih following operand)).metered.bind hmore

theorem arithmetic (h : d.Restoring) : Expr.Restoring d.arithmetic := by
  refine h.unary.bind fun lhs => .restoringDepth ?_
  exact (Expr.Restoring.plain .rounds).metered.bind fun fuel => h.operators 2 lhs fuel

theorem comparisons (h : d.Restoring) (chain : Option Expr) (lhs : Expr) (fuel : Nat) :
    Metered (d.comparisons chain lhs fuel) := by
  induction fuel generalizing chain lhs with
  | zero => exact (Expr.Restoring.pure _).metered
  | succ fuel ih =>
      refine (Expr.Restoring.plain .peekPrecedence).metered.bind fun precedence => ?_
      refine Metered.ite (Expr.Restoring.pure _).metered (Metered.enter.bind fun _ => ?_)
      refine (Expr.Restoring.plain .operator).metered.bind fun op => ?_
      exact h.arithmetic.metered.bind fun rhs => ih _ rhs

theorem comparison (h : d.Restoring) : Expr.Restoring d.comparison := by
  refine .restoringDepth (h.arithmetic.metered.bind fun lhs => ?_)
  exact (Expr.Restoring.plain .rounds).metered.bind fun fuel => h.comparisons none lhs fuel

theorem negation (h : d.Restoring) : Expr.Restoring d.negation := by
  refine (Expr.Restoring.plain .peekStart).bind fun start => .ifConsume ?_ h.comparison
  exact h.notOperand.bind fun operand => .ranged start _

theorem conjunction (h : d.Restoring) : Expr.Restoring d.conjunction := by
  refine .restoringDepth (h.negation.metered.bind fun lhs => ?_)
  refine (Expr.Restoring.plain .rounds).metered.bind fun fuel => ?_
  rw [conjuncts_eq]
  exact metered_joins h.negation .andWord _ lhs fuel

theorem disjunctionOf (h : d.Restoring) : Expr.Restoring d.disjunctionOf := by
  refine .restoringDepth (h.conjunction.metered.bind fun lhs => ?_)
  refine (Expr.Restoring.plain .rounds).metered.bind fun fuel => ?_
  rw [disjuncts_eq]
  exact metered_joins h.conjunction .orWord _ lhs fuel

theorem lambda (h : d.Restoring) (start : Position) : Expr.Restoring (d.lambda start) := by
  have hbody : ∀ params : List String, Expr.Restoring (do
      expect .colon
      let body ← d.expr
      return Expr.lambda params body (← rangeFrom start)) := fun params =>
    (Expr.Restoring.plain (.expect .colon)).bind fun _ => h.expr.bind fun body => .ranged start _
  refine .ifPeek (hbody []) ((Expr.Restoring.plain .rounds).bind fun fuel => ?_)
  exact (Expr.Restoring.plain (plain_parameters [] fuel)).bind fun params => hbody params

theorem conditional (h : d.Restoring) : Expr.Restoring d.conditional := by
  refine (Expr.Restoring.plain .peekStart).bind fun start => .ifConsume (h.lambda start) ?_
  refine h.disjunctionOf.bind fun yes => .ifConsume ?_ (.pure yes)
  refine h.disjunctionOf.bind fun cond => ?_
  refine (Expr.Restoring.plain (.expect .elseWord)).bind fun _ => h.expr.bind fun no => ?_
  exact .ranged start _

/-- However many tokens are left, what is called back into restores the levels. -/
theorem ofLength (fuel : Nat) : (Descent.ofLength fuel).Restoring := by
  induction fuel with
  | zero => exact ⟨.throw _, .throw _, .throw _, .throw _⟩
  | succ fuel ih =>
      exact ⟨.nested ih.conditional.metered, .nested ih.negation.metered,
        .nested ih.unary.metered, ih.disjunctionOf⟩

end Descent.Restoring

/-- The parsers that read expressions: those of the grammar, for a descent of any length, the loops
that they run, and those that read a whole list of tokens. -/
inductive ParseFunction : {α : Type} → Parse α → Prop where
  | expression : ParseFunction expression
  | whole : ParseFunction whole
  | argument : ParseFunction argument
  | argumentList (fuel : Nat) : ParseFunction (argumentList fuel)
  | expr (n : Nat) : ParseFunction (Descent.ofLength n).expr
  | notOperand (n : Nat) : ParseFunction (Descent.ofLength n).notOperand
  | unaryOperand (n : Nat) : ParseFunction (Descent.ofLength n).unaryOperand
  | disjunction (n : Nat) : ParseFunction (Descent.ofLength n).disjunction
  | conditional (n : Nat) : ParseFunction (Descent.ofLength n).conditional
  | lambda (n : Nat) (start : Position) : ParseFunction ((Descent.ofLength n).lambda start)
  | parameters (seen : List String) (fuel : Nat) : ParseFunction (parameters seen fuel)
  | disjunctionOf (n : Nat) : ParseFunction (Descent.ofLength n).disjunctionOf
  | conjunction (n : Nat) : ParseFunction (Descent.ofLength n).conjunction
  | negation (n : Nat) : ParseFunction (Descent.ofLength n).negation
  | comparison (n : Nat) : ParseFunction (Descent.ofLength n).comparison
  | arithmetic (n : Nat) : ParseFunction (Descent.ofLength n).arithmetic
  | operators (n least : Nat) (lhs : Expr) (fuel : Nat) :
      ParseFunction (restoringDepth ((Descent.ofLength n).operators least lhs fuel))
  | operator : ParseFunction operator
  | unary (n : Nat) : ParseFunction (Descent.ofLength n).unary
  | power (n : Nat) : ParseFunction (Descent.ofLength n).power
  | suffixed (n : Nat) : ParseFunction (Descent.ofLength n).suffixed
  | primary (n : Nat) : ParseFunction (Descent.ofLength n).primary
  | list (n : Nat) (start : Position) : ParseFunction ((Descent.ofLength n).list start)
  | clauses (n fuel : Nat) : ParseFunction (clauses (Descent.ofLength n).disjunction fuel)
  | conditions (n fuel : Nat) : ParseFunction (conditions (Descent.ofLength n).disjunction fuel)
  | targets (fuel : Nat) : ParseFunction (targets fuel)
  | entries (n fuel : Nat) : ParseFunction (entries (Descent.ofLength n).expr fuel)
  | sequence (n : Nat) (close : Mark) (fuel : Nat) :
      ParseFunction (sequence (Descent.ofLength n).expr close fuel)

section Whole

theorem restoring_expression : Restoring expression :=
  (Restoring.plain .rounds).bind fun n => (Descent.Restoring.ofLength n).expr

theorem restoring_whole : Restoring whole :=
  (Restoring.plain .peekEof).bind fun _ => (Restoring.throw _).ite <|
    restoring_expression.bind fun _ => (Restoring.plain .expectEof).bind fun _ => .pure _

theorem restoring_argument : Restoring argument := by
  refine (Restoring.plain .peekOffset).bind fun start => restoring_expression.bind fun value => ?_
  have hplain : ∀ start value, Restoring
      (do return (⟨none, value, start, (← get).lastStop⟩ : Argument)) := fun start value =>
    .plain (.lastStop (Argument.mk none value start))
  split
  · refine .ifConsume ?_ (hplain _ _)
    refine (Restoring.plain .peekOffset).bind fun start => restoring_expression.bind fun value => ?_
    exact .plain (.lastStop (Argument.mk (some _) value start))
  · exact hplain _ _

theorem restoring_argumentList (fuel : Nat) : Restoring (argumentList fuel) := by
  induction fuel with
  | zero => exact .throw _
  | succ fuel ih =>
      refine (Restoring.plain .peekEof).bind fun _ => (Restoring.pure []).ite ?_
      refine restoring_argument.bind fun first => ?_
      exact .ifConsume (ih.bind fun rest => .pure _) (.pure [first])

end Whole

theorem ParseFunction.restoring {α : Type} {p : Parse α} (h : ParseFunction p) : Restoring p := by
  have hd := Descent.Restoring.ofLength
  cases h with
  | expression => exact restoring_expression
  | whole => exact restoring_whole
  | argument => exact restoring_argument
  | argumentList fuel => exact restoring_argumentList fuel
  | expr n => exact (hd n).expr
  | notOperand n => exact (hd n).notOperand
  | unaryOperand n => exact (hd n).unaryOperand
  | disjunction n => exact (hd n).disjunction
  | conditional n => exact (hd n).conditional
  | lambda n start => exact (hd n).lambda start
  | parameters seen fuel => exact .plain (plain_parameters seen fuel)
  | disjunctionOf n => exact (hd n).disjunctionOf
  | conjunction n => exact (hd n).conjunction
  | negation n => exact (hd n).negation
  | comparison n => exact (hd n).comparison
  | arithmetic n => exact (hd n).arithmetic
  | operators n least lhs fuel => exact .restoringDepth ((hd n).operators least lhs fuel)
  | operator => exact .plain .operator
  | unary n => exact (hd n).unary
  | power n => exact (hd n).power
  | suffixed n => exact (hd n).suffixed
  | primary n => exact (hd n).primary
  | list n start => exact (hd n).list start
  | clauses n fuel =>
      rw [clauses_eq]
      exact restoring_collect (restoring_clause (hd n).disjunction) .forWord fuel
  | conditions n fuel =>
      rw [conditions_eq]
      exact restoring_collect (hd n).disjunction .ifWord fuel
  | targets fuel => exact .plain (plain_targets fuel)
  | entries n fuel =>
      rw [entries_eq]
      exact restoring_listOf (restoring_entry (hd n).expr) .rightBrace fuel
  | sequence n close fuel =>
      rw [sequence_eq]
      exact restoring_listOf (hd n).expr close fuel

/-- What a parser reads somewhere it reads where fewer levels are open. -/
theorem Restoring.shallower {α : Type} {p : Parse α} (h : Restoring p) {s s' : Stream} {a : α}
    (hrun : p s = .ok (a, s')) {depth : Nat} (hdepth : depth ≤ s.depth) :
    p { s with depth } = .ok (a, { s' with depth }) := by
  rw [← Stream.deeper_sub hdepth] at hrun
  obtain ⟨s₁, rfl, hupTo⟩ := h.metered hrun
  have hlow := hupTo.run
  have hdepth₁ : s₁.depth = depth := h.depth_eq hlow
  rw [hlow, ← hdepth₁]
  rfl

/-- The levels that are opened are told by where a run still succeeds: a run opens none above `most`
exactly if it succeeds where as many more levels are open as there are above `most`. -/
theorem Restoring.runsUpTo_iff {α : Type} {p : Parse α} (h : Restoring p) {most : Nat}
    (hmost : most ≤ maxDepth) {s s' : Stream} {a : α} :
    RunsUpTo most p s a s' ↔
      p (s.deeper (maxDepth - most)) = .ok (a, s'.deeper (maxDepth - most)) := by
  have hsum : most + (maxDepth - most) = maxDepth := Nat.add_sub_cancel' hmost
  constructor
  · intro hupTo
    exact (hupTo.deeper (Nat.le_of_eq hsum)).run
  · intro hrun
    obtain ⟨s₁, hs', hupTo⟩ := h.metered hrun
    rw [Nat.sub_sub_self hmost] at hupTo
    rwa [Stream.deeper_injective _ hs']

section Lists

/-- A list of expressions that can each be read one level deeper is read from its tokens. -/
theorem parses_list {depth : Nat} (l : Marked .leftBracket) {tokens : List Token}
    {items : List Stretch} (hdepth : depth ≤ maxDepth)
    (hlisting : Listing Stretch.tokens .rightBracket tokens items)
    (hitems : ∀ p ∈ items, Parses .expr (depth + 1) 0 p.tokens p.tree) :
    Parses .expr depth 0 (l.1 :: tokens) (.list (items.map (·.tree)) (hull (l.1 :: tokens))) := by
  have hsuffixed := Parses.suffixed (.list l hdepth hlisting hitems)
  have hsum := Parses.sum (.product (.unary (.power hsuffixed)))
  exact .expr (.disjunction (.disjuncts (.conjunction (.operand hsum))))

/-- The tokens are an expression by themselves, and no level above `most` is opened while they are
read. -/
structure Stretch.StandsAlone (p : Stretch) (most : Nat) : Prop where
  noEof : ∀ t ∈ p.tokens, t.isEof = false
  reads : ∃ eof s', eof.isEof = true ∧ RunsUpTo most whole { tokens := p.tokens ++ [eof] } p.tree s'

/-- An expression opens no level above `most` exactly if it is still read where as many more levels
are open as there are above `most`. -/
theorem Stretch.standsAlone_iff {p : Stretch} {most : Nat} (hmost : most ≤ maxDepth) :
    p.StandsAlone most ↔ (∀ t ∈ p.tokens, t.isEof = false) ∧ ∃ eof s', eof.isEof = true ∧
      whole (Stream.deeper { tokens := p.tokens ++ [eof] } (maxDepth - most)) =
        .ok (p.tree, s') := by
  constructor
  · rintro ⟨hts, eof, s', heof, hupTo⟩
    exact ⟨hts, eof, _, heof, (restoring_whole.runsUpTo_iff hmost).mp hupTo⟩
  · rintro ⟨hts, eof, s', heof, hrun⟩
    obtain ⟨s₁, rfl, -⟩ := restoring_whole.metered hrun
    exact ⟨hts, eof, s₁, heof, (restoring_whole.runsUpTo_iff hmost).mpr hrun⟩

/-- What is in front of the end, if it holds no end itself. -/
theorem eq_of_append_eof {ts taken rest : List Token} {eof eof' : Token}
    (hts : ∀ t ∈ ts, t.isEof = false) (heof' : eof'.isEof = true)
    (h : ts ++ [eof] = taken ++ eof' :: rest) : ts = taken := by
  rcases List.append_eq_append_iff.mp h with ⟨more, rfl, hmore⟩ | ⟨more, rfl, hmore⟩
  · obtain ⟨hnil, -⟩ : more = [] ∧ rest = [] := by
      have hlength := congrArg List.length hmore
      simp only [List.length_append, List.length_cons, List.length_nil] at hlength
      constructor <;> apply List.length_eq_zero_iff.mp <;> omega
    rw [hnil, List.append_nil]
  · cases more with
    | nil => exact List.append_nil _
    | cons t more =>
        obtain ⟨rfl, -⟩ := List.cons.inj hmore
        rw [hts _ (List.mem_append_right _ List.mem_cons_self)] at heof'
        cases heof'

/-- An expression that leaves levels unopened is read from its tokens where that many are open. -/
theorem Stretch.StandsAlone.parses {p : Stretch} {most levels : Nat} (h : p.StandsAlone most)
    (hlevels : most + levels ≤ maxDepth) : Parses .expr (levels + 1) 0 p.tokens p.tree := by
  obtain ⟨hts, eof, s', heof, hupTo⟩ := h
  -- As many levels as the run leaves unopened can be open around it from the start.
  have hrun := (hupTo.deeper hlevels).run
  have hs : Underway (p.tokens ++ [eof])
      (Stream.deeper { tokens := p.tokens ++ [eof] } levels) := by
    refine ⟨List.suffix_rfl, ?_⟩
    change 0 + levels ≤ maxDepth
    omega
  obtain ⟨taken, eof', rest, hsplit, heof', htree⟩ := runs_of_ok (runs_whole_parses hs) hrun
  rw [eq_of_append_eof hts heof' hsplit]
  rwa [Stream.deeper, Nat.zero_add] at htree

/-- A list of expressions that each leave a level unopened is read from its tokens. -/
theorem parses_list_of_standsAlone (l : Marked .leftBracket) {tokens : List Token}
    {items : List Stretch} (hlisting : Listing Stretch.tokens .rightBracket tokens items)
    (hitems : ∀ p ∈ items, p.StandsAlone 127) :
    Parses .expr 1 0 (l.1 :: tokens) (.list (items.map (·.tree)) (hull (l.1 :: tokens))) :=
  parses_list l (by decide) hlisting fun p hp => (hitems p hp).parses (Nat.le_refl 128)

/-- The mark by itself. -/
def Marked.alone (m : Mark) : Marked m := ⟨⟨.mark m, 0, 0, {}⟩, rfl⟩

/-- Any items can be listed, with or without a comma behind the last. -/
theorem exists_listing (close : Mark) (trailing : Bool) (items : List Stretch) :
    ∃ tokens, Listing Stretch.tokens close tokens items ∧ tokens.map (·.kind) =
      separated trailing (items.map fun p => p.tokens.map (·.kind)) ++ [.mark close] := by
  induction items with
  | nil => exact ⟨_, .nil (.alone close), rfl⟩
  | cons p items ih =>
      obtain ⟨tokens, hlisting, hkinds⟩ := ih
      obtain ⟨tail, htext, ⟨hnil, rfl⟩ | rfl⟩ :=
        separated_cons_append trailing (p.tokens.map (·.kind))
          (items.map fun p => p.tokens.map (·.kind)) [.mark close]
      · obtain rfl := List.map_eq_nil_iff.mp hnil
        refine ⟨_, .single p (.alone close), ?_⟩
        rw [List.map_append]
        exact htext.symm
      · refine ⟨_, .cons p (.alone .comma) hlisting, ?_⟩
        rw [List.map_cons, htext, List.map_append, List.map_cons, hkinds]
        rfl

/-- Tokens that spell a list of expressions are read as the list, wherever they stand. -/
theorem ofTokens?_of_spells_list {trailing : Bool} {tokens : List Token} {items : List Stretch}
    {eof : Token} (hitems : ∀ p ∈ items, p.StandsAlone 127) (heof : eof.isEof = true)
    (htext : tokens.map (·.kind) = .mark .leftBracket ::
      (separated trailing (items.map fun p => p.tokens.map (·.kind)) ++ [.mark .rightBracket])) :
    ∃ e, ofTokens? (tokens ++ [eof]) = .ok e ∧ e.bare = .list (items.map (·.tree.bare)) {} := by
  obtain ⟨inside, hlisting, hkinds⟩ := exists_listing .rightBracket trailing items
  -- One way to write the list is read, and it has the kinds of all others.
  let l := Marked.alone .leftBracket
  have hfinds := finds_expression (parses_list_of_standsAlone l hlisting hitems) heof []
  obtain ⟨_, s₁, hrun, rfl, hmoves⟩ := hfinds.exists_ok
  obtain ⟨taken, htaken⟩ := runs_of_ok (passes_expression _) hrun
  obtain rfl : taken = l.1 :: inside :=
    List.append_cancel_right (htaken.tokens.symm.trans hmoves.tokens)
  have hsame : tokens.map (·.kind) = (l.1 :: inside).map (·.kind) := by
    rw [htext, List.map_cons, hkinds, l.2]
  obtain ⟨e, hok, hbare⟩ := ofTokens?_of_taken hrun htaken hsame heof
  refine ⟨e, hok, ?_⟩
  rw [hbare, bare, bareAll_eq_map, List.map_map]
  rfl

end Lists

/-- What is nested pays for a level, and what stands beside it does not.  A parser that succeeds
leaves as many levels open as it found, and gives the same where fewer are open.  So a list of
expressions, each of which leaves one level unopened when it stands alone, is read as the list of
their trees, however many they are: from the tokens that they have alone with those trees, and from
any others that spell them with the same trees at other places. -/
theorem levels_paid_by_path :
    (∀ {α : Type} {p : Parse α}, ParseFunction p → ∀ {s s' : Stream} {a : α},
      p s = .ok (a, s') → s'.depth = s.depth ∧
        ∀ depth ≤ s.depth, p { s with depth } = .ok (a, { s' with depth })) ∧
    (∀ {items : List Stretch}, (∀ p ∈ items, p.StandsAlone 127) →
      ∀ {tokens : List Token} {eof : Token}, eof.isEof = true →
        (∀ l : Marked .leftBracket, Listing Stretch.tokens .rightBracket tokens items →
          ofTokens? (l.1 :: tokens ++ [eof]) =
            .ok (.list (items.map (·.tree)) (hull (l.1 :: tokens)))) ∧
        ∀ trailing : Bool, tokens.map (·.kind) = .mark .leftBracket ::
            (separated trailing (items.map fun p => p.tokens.map (·.kind)) ++
              [.mark .rightBracket]) →
          ∃ e, ofTokens? (tokens ++ [eof]) = .ok e ∧
            e.bare = .list (items.map (·.tree.bare)) {}) := by
  refine ⟨fun h s s' a hrun => ⟨h.restoring.depth_eq hrun, fun depth hdepth => ?_⟩,
    fun hitems tokens eof heof => ⟨fun l hlisting => ?_,
      fun trailing htext => ofTokens?_of_spells_list hitems heof htext⟩⟩
  · exact h.restoring.shallower hrun hdepth
  · exact ofTokens?_of_parses (parses_list_of_standsAlone l hlisting hitems) heof []

namespace NestingWitness

/-- A token in the first line. -/
def tokenAt (column : Nat) (kind : TokenKind) : Token :=
  ⟨kind, column - 1, column, ⟨⟨1, column⟩, ⟨1, column + 1⟩⟩⟩

def mark (column : Nat) (m : Mark) : Marked m := ⟨tokenAt column (.mark m), rfl⟩

/-- What `a` behind 126 signs is written with. -/
def kinds : List TokenKind := List.replicate 126 (.mark .minus) ++ [.ident "a"]

/-- The tokens between the brackets of a list of two, and the closing bracket. -/
def inside : List Token :=
  placed 2 kinds ++ (mark 129 .comma).1 :: (placed 130 kinds ++ [(mark 257 .rightBracket).1])

/-- The list at other places, with a comma behind its second item. -/
def spaced : List TokenKind :=
  .mark .leftBracket :: (kinds ++ .mark .comma :: (kinds ++ [.mark .comma, .mark .rightBracket]))

theorem exists_standsAlone {tokens : List Token} {eof : Token} (heof : eof.isEof = true)
    (hts : ∀ t ∈ tokens, t.isEof = false)
    (hread : (whole (Stream.deeper { tokens := tokens ++ [eof] } 1)).toOption.map (fun _ => ()) =
      some ()) : ∃ e, (Stretch.mk tokens e).StandsAlone 127 := by
  obtain ⟨⟨e, s'⟩, hrun, -⟩ := ok_of_map_toOption hread
  exact ⟨e, (Stretch.standsAlone_iff (by decide)).mpr ⟨hts, eof, s', heof, hrun⟩⟩

/-- Each item opens 127 levels alone, and 128 between the brackets. -/
theorem levels_paid_by_path_signs : ∃ first second : Expr,
    (Stretch.mk (placed 2 kinds) first).StandsAlone 127 ∧
    (Stretch.mk (placed 130 kinds) second).StandsAlone 127 ∧
    ofTokens? ((mark 1 .leftBracket).1 :: inside ++ [tokenAt 258 .eof]) =
      .ok (.list [first, second] ⟨⟨1, 1⟩, ⟨1, 258⟩⟩) ∧
    (∃ e, ofTokens? (placed 1 spaced ++ [tokenAt 259 .eof]) = .ok e ∧
      e.bare = .list [first.bare, second.bare] {}) ∧
    ∃ eof s', whole { tokens := placed 2 kinds ++ [eof], depth := 1 } = .ok (first, s') ∧
      s'.depth = 1 ∧ whole { tokens := placed 2 kinds ++ [eof] } =
        .ok (first, { s' with depth := 0 }) := by
  obtain ⟨first, hfirst⟩ := @exists_standsAlone (placed 2 kinds) (tokenAt 129 .eof) rfl
    (by decide +kernel) (by decide +kernel)
  obtain ⟨second, hsecond⟩ := @exists_standsAlone (placed 130 kinds) (tokenAt 257 .eof) rfl
    (by decide +kernel) (by decide +kernel)
  have hitems : ∀ p ∈ [Stretch.mk (placed 2 kinds) first, ⟨placed 130 kinds, second⟩],
      p.StandsAlone 127 := List.forall_mem_cons.mpr ⟨hfirst, List.forall_mem_singleton.mpr hsecond⟩
  obtain ⟨hparsers, hlists⟩ := levels_paid_by_path
  have hspaced : (placed 1 spaced).map (·.kind) = spaced := map_kind_placed 1 spaced
  have hkinds : ∀ column, (placed column kinds).map (·.kind) = kinds :=
    fun column => map_kind_placed column kinds
  refine ⟨first, second, hfirst, hsecond, ?_, (hlists hitems rfl).2 true ?_, ?_⟩
  · have hlisting : Listing Stretch.tokens .rightBracket inside
        [⟨placed 2 kinds, first⟩, ⟨placed 130 kinds, second⟩] :=
      @Listing.cons _ Stretch.tokens _ ⟨placed 2 kinds, first⟩ (mark 129 .comma) _ _
        (@Listing.single _ Stretch.tokens _ ⟨placed 130 kinds, second⟩ (mark 257 .rightBracket))
    have hlist := (@hlists _ hitems inside (tokenAt 258 .eof) rfl).1 (mark 1 .leftBracket) hlisting
    have hrange : hull ((mark 1 .leftBracket).1 :: inside) = ⟨⟨1, 1⟩, ⟨1, 258⟩⟩ := by
      decide +kernel
    rw [hrange] at hlist
    exact hlist
  · simp only [hspaced, List.map_cons, List.map_nil, hkinds]
    simp only [spaced, separated, ↓reduceIte, List.append_assoc, List.cons_append, List.nil_append]
  · obtain ⟨-, eof, s', -, hrun⟩ := (Stretch.standsAlone_iff (by decide)).mp hfirst
    obtain ⟨hdepth, hlower⟩ := hparsers .whole hrun
    exact ⟨eof, s', hrun, hdepth, hlower 0 (Nat.zero_le 1)⟩

end NestingWitness

end Expr
end Stencil
