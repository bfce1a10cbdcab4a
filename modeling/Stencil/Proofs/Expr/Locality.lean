/-
What the parser makes of a text depends on the text alone: every parser is its own twin, however
many rounds its loops and its descent are built for.
-/
import Stencil.Proofs.Expr.Building
import Stencil.Proofs.Expr.Soundness
import Stencil.Proofs.Expr.Twins

namespace Stencil
namespace Expr

section Refusals

variable {α : Type}

theorem refuses_expect (m : Mark) (g : Unit → Parse α) :
    Refuses (· = .mark m) unexpected
      (fun t => (if t.isMark m then pure () else throw (unexpected t)) >>= g) where
  eof := nofun
  errors := .inl rfl
  others t ht := by
    rw [if_neg (mt Token.isMark_iff.mp ht)]
    rfl

theorem refuses_expectIdent (g : String → Parse α) :
    Refuses (fun kind => ∃ name, kind = .ident name) unexpected (fun t =>
      (match t.kind with
        | .ident name => pure name
        | _ => throw (unexpected t)) >>= g) where
  eof := nofun
  errors := .inl rfl
  others t ht := by
    split
    · next name hkind => exact absurd ⟨name, hkind⟩ ht
    · rfl

end Refusals

namespace Twins

variable {α β τ υ : Type} {view : α → τ} {n n' : Nat} {p p' : Parse α}

/-- Without a round for the second parser it has no token, and only the first one counts. -/
theorem cases_right {q : Nat → Parse α}
    (h : ∀ k' j, j ≤ k' + 1 → j ≤ n' → Twins n j view p (q (k' + 1))) (k' j : Nat) (hj : j ≤ k')
    (hn' : j ≤ n') : Twins n j view p (q k') := by
  cases k' with
  | zero =>
      obtain rfl := Nat.le_zero.mp hj
      exact .alone (h 0 0 (Nat.zero_le 1) hn')
  | succ k' => exact h k' j hj hn'

theorem not_tooDeep_unexpectedEof : ¬ TooDeep .unexpectedEof := by
  rintro ⟨_, _, ⟨⟩⟩

theorem expect {m : Mark} {g g' : Unit → Parse α} (h : Twins (n - 1) (n' - 1) view (g ()) (g' ())) :
    Twins n n' view (expect m >>= g) (expect m >>= g') := by
  unfold Expr.expect
  simp only [bind_assoc]
  refine .next (fun t t' hkind ht => ?_) (refuses_expect m g) (refuses_expect m g')
  rw [if_pos (Token.isMark_iff.mpr ht), if_pos (Token.isMark_iff.mpr (hkind.symm.trans ht))]
  exact h

theorem expectIdent {g g' : String → Parse α}
    (h : ∀ name, Twins (n - 1) (n' - 1) view (g name) (g' name)) :
    Twins n n' view (expectIdent >>= g) (expectIdent >>= g') := by
  unfold Expr.expectIdent
  simp only [bind_assoc]
  refine .next (fun t t' hkind ht => ?_) (refuses_expectIdent g) (refuses_expectIdent g')
  obtain ⟨name, hname⟩ := ht
  rw [← hkind, hname]
  exact h name

theorem operator {g g' : BinaryOp → Parse α}
    (h : ∀ op, Twins (n - 1) (n' - 1) view (g op) (g' op)) :
    Twins n n' view (operator >>= g) (operator >>= g') := by
  unfold Expr.operator
  simp only [bind_assoc]
  apply Twins.next (A := fun kind => kind.precedence ≠ 0) (E := .unexpectedToken)
  · intro t t' hkind ht
    rw [← hkind]
    cases hkind' : t.kind with
    | mark m =>
        rw [hkind'] at ht
        cases m
        case notWord =>
          simp only [bind_assoc, pure_bind]
          exact .expect ((h .notIn).mono (Nat.sub_le _ _) (Nat.sub_le _ _))
        all_goals first | exact h _ | exact absurd rfl ht
    | _ =>
        rw [hkind'] at ht
        exact absurd rfl ht
  -- What is no operator is refused on both sides.
  all_goals
    refine ⟨not_not.mpr rfl, .inr rfl, fun t ht => ?_⟩
    cases hkind : t.kind with
    | mark m =>
        rw [hkind] at ht
        cases m <;> first | rfl | exact absurd (by decide) ht
    | _ => rfl

end Twins

namespace Advances

variable {α β : Type} {n : Nat} {P : List Token → Prop}

/-- What goes on behind a token has one token less. -/
theorem bind_left {p : Parse α} {f : α → Parse β} (h : Advances n P p)
    (hf : ∀ a, Shrinks (n - 1) (f a)) : Advances n P (p >>= f) := by
  intro s hs hP
  apply Runs.bind (h s hs hP)
  intro a s₁ hlt
  apply Runs.imp (hf a s₁ (by omega))
  intro _ _ hle
  exact Nat.lt_of_le_of_lt hle hlt

theorem bind_right {p : Parse α} {f : α → Parse β} (hp : Shrinks n p)
    (hf : ∀ a, Advances n (fun _ => True) (f a)) : Advances n P (p >>= f) := by
  intro s hs _
  apply Runs.bind (hp s hs)
  intro a s₁ hle
  apply Runs.imp (hf a s₁ (Nat.lt_of_le_of_lt hle hs) trivial)
  intro _ _ hlt
  exact Nat.lt_of_lt_of_le hlt hle

theorem expect {mark : Mark} {g : Unit → Parse β} (hg : Shrinks (n - 1) (g ())) :
    Advances n P (Expr.expect mark >>= g) := by
  intro s hs _
  apply Runs.expect
  · intro s₁ htook
    have hlt := htook.length_lt nofun
    apply Runs.imp (hg s₁ (by omega))
    intro _ _ hle
    exact Nat.lt_of_le_of_lt hle hlt
  · intro _
    exact ⟨trivial, fun _ => trivial⟩

theorem operator {g : BinaryOp → Parse β} (hg : ∀ op, Shrinks (n - 1) (g op)) :
    Advances n P (Expr.operator >>= g) := by
  refine bind_left (fun s _ _ => ?_) hg
  unfold Runs
  split
  · next op _ hrun => exact (runs_of_ok (takes_operator s) hrun).1.length_lt op.spelling_ne_nil
  · trivial

theorem enter {g : Unit → Parse β} (hg : Advances n P (g ())) :
    Advances n P (Expr.enter >>= g) := by
  intro s hs hP
  apply Runs.enter (fun _ _ => trivial)
  intro s₁ hs₁
  rw [← hs₁] at hs hP ⊢
  exact hg s₁ hs hP

theorem restoringDepth {p : Parse β} (h : Advances n P p) : Advances n P (restoringDepth p) := by
  intro s hs hP
  exact Runs.restoringDepth (h s hs hP)

theorem rounds {f : Nat → Parse β} (h : ∀ k ≤ n, Advances k P (f k)) :
    Advances n P (Expr.rounds >>= f) := by
  intro s hs hP
  apply Runs.rounds
  exact h _ hs s (Nat.lt_succ_self _) hP

end Advances

section Loops

variable {α τ : Type} {view : α → τ} {n n' : Nat} {item item' : Parse α}

/-- The tokens that a round may take, one of which it has taken. -/
theorem le_of_pred {j k : Nat} (h : j ≤ k + 1) : j - 1 ≤ k := Nat.sub_le_of_le_add h

theorem twins_listOf (h : Twins n n' view item item') (close : Mark) {k : Nat} (hk : k ≤ n) :
    ∀ k' j, j ≤ k' → j ≤ n' →
      Twins k j (List.map view) (listOf item close k) (listOf item' close k') := by
  induction k with
  | zero => exact fun _ _ _ _ => .idle
  | succ k ih =>
      apply Twins.cases_right
      intro k' j hj hn'
      apply Twins.ifConsume
      · exact .pure rfl
      · apply Twins.bind (h.mono hk hn')
        intro a a' ha
        apply Twins.ifConsume
        · apply Twins.bind (ih (Nat.le_of_succ_le hk) k' _ (le_of_pred hj) (by omega))
          intro as as' has
          exact .pure (congrArg₂ List.cons ha has)
        · exact .expect (.pure (congrArg (fun a => [a]) ha))

theorem twins_collect (h : Twins n n' view item item') (word : Mark) {k : Nat} (hk : k ≤ n + 1) :
    ∀ k' j, j ≤ k' → j ≤ n' + 1 →
      Twins k j (List.map view) (collect item word k) (collect item' word k') := by
  induction k with
  | zero => exact fun _ _ _ _ => .idle
  | succ k ih =>
      apply Twins.cases_right
      intro k' j hj hn'
      apply Twins.ifConsume
      · apply Twins.bind (h.mono (le_of_pred hk) (le_of_pred hn'))
        intro a a' ha
        apply Twins.bind (ih (Nat.le_of_succ_le hk) k' _ (le_of_pred hj) (by omega))
        intro as as' has
        exact .pure (congrArg₂ List.cons ha has)
      · exact .pure rfl

theorem twins_joins {operand operand' : Parse Expr} (h : Twins n n' Expr.bare operand operand')
    (word : Mark) (join joinBare : Expr → Expr → Expr)
    (hjoin : ∀ lhs rhs, (join lhs rhs).bare = joinBare lhs.bare rhs.bare) {k : Nat}
    (hk : k ≤ n + 1) {lhs lhs' : Expr} (hlhs : lhs.bare = lhs'.bare) :
    ∀ k' j, j ≤ k' → j ≤ n' + 1 →
      Twins k j Expr.bare (joins word operand join lhs k) (joins word operand' join lhs' k') := by
  induction k generalizing lhs lhs' with
  | zero => exact fun _ _ _ _ => .idle
  | succ k ih =>
      apply Twins.cases_right
      intro k' j hj hn'
      apply Twins.ifConsume
      · apply Twins.bind .enter
        intro _ _ _
        apply Twins.bind (h.mono (le_of_pred hk) (le_of_pred hn'))
        intro rhs rhs' hrhs
        refine ih (Nat.le_of_succ_le hk) ?_ k' _ (le_of_pred hj) (by omega)
        rw [hjoin, hjoin, hlhs, hrhs]
      · exact .pure hlhs

theorem twins_parameters (seen : List String) (k : Nat) :
    ∀ k' j, j ≤ k' → j ≤ n' → Twins k j id (parameters seen k) (parameters seen k') := by
  induction k generalizing seen with
  | zero => exact fun _ _ _ _ => .idle
  | succ k ih =>
      apply Twins.cases_right
      intro k' j hj hn'
      apply Twins.expectIdent
      intro name
      split
      · exact Twins.repeated
      · apply Twins.ifConsume
        · have hrest := ih (name :: seen) k' _ (le_of_pred hj) (by omega)
          apply Twins.bind (hrest.mono (Nat.sub_le k 1) (Nat.sub_le _ 1))
          rintro rest _ rfl
          exact .pure rfl
        · exact .pure rfl

theorem twins_targets (k : Nat) :
    ∀ k' j, j ≤ k' → j ≤ n' → Twins k j id (targets k) (targets k') := by
  induction k with
  | zero => exact fun _ _ _ _ => .idle
  | succ k ih =>
      apply Twins.cases_right
      intro k' j hj hn'
      apply Twins.expectIdent
      intro name
      apply Twins.ifConsume
      · have hrest := ih k' _ (le_of_pred hj) (by omega)
        apply Twins.bind (hrest.mono (Nat.sub_le k 1) (Nat.sub_le _ 1))
        rintro rest _ rfl
        exact .pure rfl
      · exact .pure rfl

theorem twins_entry {item item' : Parse Expr} (h : Twins n n' Expr.bare item item') :
    Twins n n' (Prod.map Expr.bare Expr.bare) (entry item) (entry item') := by
  apply Twins.bind h
  intro key key' hkey
  apply Twins.expect
  apply Twins.bind (h.mono (Nat.sub_le n 1) (Nat.sub_le n' 1))
  intro value value' hvalue
  exact .pure (congrArg₂ Prod.mk hkey hvalue)

theorem twins_clause {item item' : Parse Expr} (h : Twins n n' Expr.bare item item') :
    Twins n n' Clause.bare (clause item) (clause item') := by
  apply Twins.rounds
  intro k k' hk hk'
  apply Twins.bind (@twins_targets k' k k' k' (Nat.le_refl k') (Nat.le_refl k'))
  rintro names _ rfl
  apply Twins.expect
  have hitem := h.mono hk hk'
  apply Twins.bind (hitem.mono (Nat.sub_le k 1) (Nat.sub_le k' 1))
  intro source source' hsource
  apply Twins.rounds
  intro i i' hi hi'
  rw [conditions_eq, conditions_eq]
  have htests := hitem.mono (Nat.le_trans hi (Nat.sub_le k 1)) (Nat.le_trans hi' (Nat.sub_le k' 1))
  apply Twins.bind (twins_collect htests .ifWord (Nat.le_succ i) i' i' (Nat.le_refl i')
    (Nat.le_succ i'))
  intro tests tests' htests
  apply Twins.pure
  rw [Clause.bare, Clause.bare, hsource, bareAll_eq_map, bareAll_eq_map, htests]
  rfl

theorem twins_clauses {item item' : Parse Expr} (h : Twins n n' Expr.bare item item') :
    Twins n n' (List.map Clause.bare) (clauses item n) (clauses item' n') := by
  rw [clauses_eq, clauses_eq]
  exact twins_collect (twins_clause h) .forWord (Nat.le_succ n) n' n' (Nat.le_refl n')
    (Nat.le_succ n')

theorem twins_bracketed {f f' : Range → Expr} (h : ∀ r r', (f r).bare = (f' r').bare)
    (start start' : Position) :
    Twins n n' Expr.bare (do
        expect .rightBracket
        return f (← rangeFrom start)) (do
        expect .rightBracket
        return f' (← rangeFrom start')) := by
  apply Twins.expect
  apply Twins.bind (.rangeFrom start start')
  intro r r' _
  exact .pure (h r r')

end Loops

/-- The parsers that are called back into are twins. -/
structure Descent.Alike (n n' : Nat) (d d' : Descent) : Prop where
  expr : Twins n n' Expr.bare d.expr d'.expr
  notOperand : Twins n n' Expr.bare d.notOperand d'.notOperand
  unaryOperand : Twins n n' Expr.bare d.unaryOperand d'.unaryOperand
  disjunction : Twins n n' Expr.bare d.disjunction d'.disjunction

namespace Descent.Alike

variable {n n' : Nat} {d d' : Descent}

theorem list (h : Alike n n' d d') (start start' : Position) :
    Twins n n' Expr.bare (d.list start) (d'.list start') := by
  apply Twins.ifConsume
  · apply Twins.bind (.rangeFrom start start')
    intro r r' _
    exact .pure rfl
  apply Twins.bind h.expr
  intro first first' hfirst
  apply Twins.ifPeek
  · apply Twins.rounds
    intro k k' hk hk'
    apply Twins.bind (twins_clauses (h.disjunction.mono hk hk'))
    intro parts parts' hparts
    apply twins_bracketed
    intro _ _
    simp only [Expr.bare, hfirst, bareClauses_eq_map, hparts]
  · apply Advances.rounds
    intro k hk
    apply Advances.bind_right (twins_clauses (h.disjunction.mono hk (Nat.zero_le n'))).shrinks
    intro parts
    apply Advances.expect
    intro s _
    exact Runs.rangeFrom fun _ => Runs.pure (Nat.le_refl _)
  apply Twins.ifConsume
  · apply Twins.rounds
    intro k k' hk hk'
    rw [sequence_eq, sequence_eq]
    have hitem :=
      h.expr.mono (Nat.le_trans hk (Nat.sub_le n 1)) (Nat.le_trans hk' (Nat.sub_le n' 1))
    apply Twins.bind (twins_listOf hitem .rightBracket (Nat.le_refl k) k' k' (Nat.le_refl k')
      (Nat.le_refl k'))
    intro rest rest' hrest
    apply Twins.bind (.rangeFrom start start')
    intro r r' _
    apply Twins.pure
    simp only [Expr.bare, bareAll_eq_map, List.map_cons, hfirst, hrest]
  · apply twins_bracketed
    intro _ _
    simp only [Expr.bare, bareAll_eq_map, List.map_cons, hfirst, List.map_nil]

theorem primary (h : Alike n n' d d') : Twins (n + 1) (n' + 1) Expr.bare d.primary d'.primary := by
  apply Twins.next (A := fun kind => kind.begins? = some .primary) (E := unexpected)
  · intro t t' hkind ht
    dsimp only
    rw [← hkind]
    have hleaf : ∀ (f : Range → Expr), (∀ r r', (f r).bare = (f r').bare) →
        ∀ start start', Twins n n' Expr.bare (do return f (← rangeFrom start))
          (do return f (← rangeFrom start')) := by
      intro f hf start start'
      apply Twins.bind (.rangeFrom start start')
      intro r r' _
      exact .pure (hf r r')
    cases hkind' : t.kind with
    | number x => exact hleaf _ (fun _ _ => rfl) _ _
    | string x => exact hleaf _ (fun _ _ => rfl) _ _
    | ident x => exact hleaf _ (fun _ _ => rfl) _ _
    | eof =>
        rw [hkind'] at ht
        cases ht
    | mark m =>
        rw [hkind'] at ht
        cases m
        case leftParen =>
          apply Twins.bind h.expr
          intro inner inner' hinner
          apply Twins.expect
          apply Twins.bind (.rangeFrom _ _)
          intro r r' _
          apply Twins.pure
          rw [Expr.bare_withRange, Expr.bare_withRange, hinner]
        case leftBracket => exact h.list _ _
        case leftBrace =>
          apply Twins.rounds
          intro k k' hk hk'
          rw [entries_eq, entries_eq]
          have hentry := (twins_entry h.expr).mono hk hk'
          apply Twins.bind (twins_listOf hentry .rightBrace (Nat.le_refl k) k' k' (Nat.le_refl k')
            (Nat.le_refl k'))
          intro pairs pairs' hpairs
          apply Twins.bind (.rangeFrom _ _)
          intro r r' _
          apply Twins.pure
          rw [Expr.bare, Expr.bare, bareEntries_eq_map, bareEntries_eq_map, hpairs]
        all_goals first
          | exact hleaf _ (fun _ _ => rfl) _ _
          | cases ht
  -- What begins nothing is refused on both sides.
  all_goals
    refine ⟨by decide, .inl rfl, fun t ht => ?_⟩
    dsimp only
    cases hkind : t.kind with
    | mark m =>
        rw [hkind] at ht
        cases m <;> first | rfl | exact absurd rfl ht
    | eof => rfl
    | _ =>
        rw [hkind] at ht
        exact absurd rfl ht

theorem suffixes (h : Alike n n' d d') (start start' : Position) {k : Nat} (hk : k ≤ n + 1)
    {value value' : Expr} (hvalue : value.bare = value'.bare) :
    ∀ k' j, j ≤ k' → j ≤ n' + 1 →
      Twins k j Expr.bare (d.suffixes start value k) (d'.suffixes start' value' k') := by
  induction k generalizing value value' with
  | zero => exact fun _ _ _ _ => .idle
  | succ k ih =>
      apply Twins.cases_right
      intro k' j hj hn'
      have hmore : ∀ value value' : Expr, value.bare = value'.bare →
          Twins k (j - 1) Expr.bare (d.suffixes start value k) (d'.suffixes start' value' k') :=
        fun _ _ hvalue => ih (Nat.le_of_succ_le hk) hvalue k' _ (le_of_pred hj) (by omega)
      have hitem := h.expr.mono (le_of_pred hk) (le_of_pred hn')
      apply Twins.ifConsume
      · apply Twins.bind .enter
        intro _ _ _
        apply Twins.expectIdent
        intro name
        apply Twins.bind (.rangeFrom start start')
        intro r r' _
        apply (hmore _ _ _).mono (Nat.sub_le k 1) (Nat.sub_le _ 1)
        rw [Expr.bare, Expr.bare, hvalue]
      apply Twins.ifConsume
      · apply Twins.bind .enter
        intro _ _ _
        apply Twins.bind hitem
        intro position position' hposition
        apply Twins.expect
        apply Twins.bind (.rangeFrom start start')
        intro r r' _
        apply (hmore _ _ _).mono (Nat.sub_le k 1) (Nat.sub_le _ 1)
        rw [Expr.bare, Expr.bare, hvalue, hposition]
      apply Twins.ifConsume
      · apply Twins.bind .enter
        intro _ _ _
        apply Twins.rounds
        intro i i' hi hi'
        rw [sequence_eq, sequence_eq]
        apply Twins.bind (twins_listOf (hitem.mono hi hi') .rightParen (Nat.le_refl i) i' i'
          (Nat.le_refl i') (Nat.le_refl i'))
        intro args args' hargs
        apply Twins.bind (.rangeFrom start start')
        intro r r' _
        apply (hmore _ _ _).mono hi hi'
        rw [Expr.bare, Expr.bare, hvalue, bareAll_eq_map, bareAll_eq_map, hargs]
      · exact .pure hvalue

theorem suffixed (h : Alike n n' d d') :
    Twins (n + 1) (n' + 1) Expr.bare d.suffixed d'.suffixed := by
  apply Twins.restoringDepth
  apply Twins.bind .peekStart
  intro start start' _
  apply Twins.bind h.primary
  intro value value' hvalue
  apply Twins.rounds
  intro k k' hk hk'
  exact h.suffixes start start' hk hvalue k' k' (Nat.le_refl k') hk'

theorem power (h : Alike n n' d d') : Twins (n + 1) (n' + 1) Expr.bare d.power d'.power := by
  apply Twins.bind h.suffixed
  intro base base' hbase
  apply Twins.ifConsume
  · apply Twins.bind h.unaryOperand
    intro exponent exponent' hexponent
    apply Twins.pure
    rw [Expr.bare, Expr.bare, hbase, hexponent]
  · exact .pure hbase

theorem unary (h : Alike n n' d d') : Twins (n + 1) (n' + 1) Expr.bare d.unary d'.unary := by
  have hsign : ∀ (op : UnaryOp) (start start' : Position), Twins n n' Expr.bare (do
        let operand ← d.unaryOperand
        return Expr.unary op operand (← rangeFrom start)) (do
        let operand ← d'.unaryOperand
        return Expr.unary op operand (← rangeFrom start')) := by
    intro op start start'
    apply Twins.bind h.unaryOperand
    intro operand operand' hoperand
    apply Twins.bind (.rangeFrom start start')
    intro r r' _
    apply Twins.pure
    rw [Expr.bare, Expr.bare, hoperand]
  apply Twins.bind .peekStart
  intro start start' _
  apply Twins.ifConsume
  · exact hsign .neg start start'
  apply Twins.ifConsume
  · exact hsign .pos start start'
  · exact h.power

end Descent.Alike

/-- What goes on behind an operator: its operand, with the tighter operators that take it with
them, and the rest of the chain. -/
def Descent.operandOf (d : Descent) (least precedence : Nat) (lhs : Expr) (op : BinaryOp)
    (fuel : Nat) : Parse Expr := do
  let operand ← d.unary
  let following ← peekPrecedence
  let rhs ← if precedence < following
    then restoringDepth (d.operators following operand fuel)
    else pure operand
  d.operators least (.binary op lhs rhs (lhs.span rhs)) fuel

theorem operators_succ (d : Descent) (least : Nat) (lhs : Expr) (fuel : Nat) :
    d.operators least lhs (fuel + 1) = (do
      let precedence ← peekPrecedence
      if precedence = 0 || precedence < least then return lhs
      else do
        enter
        let op ← operator
        d.operandOf least precedence lhs op fuel) := by
  rfl

namespace Descent.Alike

variable {n n' : Nat} {d d' : Descent}

/-- In front of an operator that binds tightly enough the loop takes it. -/
def Takes (d : Descent) (k : Nat) : Prop :=
  ∀ least lhs, least ≠ 0 → Advances k (frontPrecedence · = least) (d.operators least lhs k)

/-- The loops over operators are twins. -/
def Loops (n' : Nat) (d d' : Descent) (k : Nat) : Prop :=
  ∀ {least : Nat} {lhs lhs' : Expr}, lhs.bare = lhs'.bare → ∀ k' j, j ≤ k' → j ≤ n' + 1 →
    Twins k j Expr.bare (d.operators least lhs k) (d'.operators least lhs' k')

theorem operandOf (h : Alike n n' d d') {k : Nat} (hk : k ≤ n + 1) (hloops : Loops n' d d' k)
    (htakes : Takes d k) (least precedence : Nat) {lhs lhs' : Expr} (hlhs : lhs.bare = lhs'.bare)
    (op : BinaryOp) (k' j : Nat) (hj : j ≤ k') (hn' : j ≤ n' + 1) :
    Twins k j Expr.bare (d.operandOf least precedence lhs op k)
      (d'.operandOf least precedence lhs' op k') := by
  have hmore : ∀ rhs rhs' : Expr, rhs.bare = rhs'.bare →
      Twins k j Expr.bare (d.operators least (.binary op lhs rhs (lhs.span rhs)) k)
        (d'.operators least (.binary op lhs' rhs' (lhs'.span rhs')) k') := by
    intro rhs rhs' hrhs
    apply hloops _ k' j hj hn'
    rw [Expr.bare, Expr.bare, hlhs, hrhs]
  apply Twins.bind (h.unary.mono hk hn')
  intro operand operand' hoperand
  apply Twins.peekPrecedence
  · intro following
    dsimp only
    split
    · exact .bind (.restoringDepth (hloops hoperand k' j hj hn')) hmore
    · exact .bind (.pure hoperand) hmore
  · intro following hnot
    dsimp only at hnot ⊢
    by_cases hlt : precedence < following
    · refine absurd ?_ hnot
      rw [if_pos hlt]
      apply Advances.bind_left (htakes following operand (by omega)).restoringDepth
      intro rhs
      exact ((hmore rhs rhs rfl).mono (Nat.sub_le k 1) (Nat.le_refl j)).shrinks
    · rw [if_neg hlt, if_neg (Nat.not_lt_zero _)]
      exact .bind (.pure hoperand) hmore

/-- The induction is on the rounds that are left: the loop in front of an operator takes it because
what goes on behind it takes no token back. -/
theorem loops_and_takes (h : Alike n n' d d') {k : Nat} (hk : k ≤ n + 1) :
    Loops n' d d' k ∧ Takes d k := by
  induction k with
  | zero => exact ⟨fun _ _ _ _ _ => .idle, fun _ _ _ s hs _ => absurd hs (Nat.not_lt_zero _)⟩
  | succ k ih =>
      obtain ⟨hloops, htakes⟩ := ih (Nat.le_of_succ_le hk)
      have hbehind := h.operandOf (Nat.le_of_succ_le hk) hloops htakes
      have hterm : ∀ P least precedence lhs, Advances (k + 1) P (do
          enter
          let op ← operator
          d.operandOf least precedence lhs op k) := by
        intro P least precedence lhs
        apply Advances.enter
        apply Advances.operator
        intro op
        exact (@hbehind least precedence lhs lhs rfl op 0 0 (Nat.le_refl 0)
          (Nat.zero_le _)).shrinks
      constructor
      · intro least lhs lhs' hlhs
        apply Twins.cases_right
        intro k' j hj hn'
        rw [operators_succ, operators_succ]
        have hgo : ∀ precedence, Twins (k + 1) j Expr.bare (do
            enter
            let op ← operator
            d.operandOf least precedence lhs op k) (do
            enter
            let op ← operator
            d'.operandOf least precedence lhs' op k') := by
          intro precedence
          apply Twins.bind .enter
          intro _ _ _
          apply Twins.operator
          intro op
          exact hbehind least precedence hlhs op k' _ (le_of_pred hj) (by omega)
        apply Twins.peekPrecedence
        · intro precedence
          split
          · exact .pure hlhs
          · exact hgo precedence
        · intro precedence hnot
          rw [if_pos (by simp : (0 = 0 || decide (0 < least)) = true)]
          split
          · exact .pure hlhs
          · next hgoes =>
              refine absurd ?_ hnot
              rw [if_neg hgoes]
              exact hterm _ least precedence lhs
      · intro least lhs hleast s hs hfront
        rw [operators_succ]
        apply Runs.peekPrecedence
        rw [hfront, if_neg (by simp [hleast])]
        exact hterm (fun _ => True) least least lhs s hs trivial

theorem arithmetic (h : Alike n n' d d') :
    Twins (n + 1) (n' + 1) Expr.bare d.arithmetic d'.arithmetic := by
  apply Twins.bind h.unary
  intro lhs lhs' hlhs
  apply Twins.restoringDepth
  apply Twins.rounds
  intro k k' hk hk'
  exact (h.loops_and_takes hk).1 hlhs k' k' (Nat.le_refl k') hk'

end Descent.Alike

/-- The comparisons of `chain`, and one more. -/
def linked (chain : Option Expr) (pair : Expr) : Expr :=
  match chain with
  | some before => .and before pair (before.span pair)
  | none => pair

/-- What goes on behind a comparison operator. -/
def Descent.comparedTo (d : Descent) (chain : Option Expr) (lhs : Expr) (op : BinaryOp)
    (fuel : Nat) : Parse Expr := do
  let rhs ← d.arithmetic
  d.comparisons (some (linked chain (.binary op lhs rhs (lhs.span rhs)))) rhs fuel

theorem comparisons_succ (d : Descent) (chain : Option Expr) (lhs : Expr) (fuel : Nat) :
    d.comparisons chain lhs (fuel + 1) = (do
      let precedence ← peekPrecedence
      if precedence ≠ 1 then return chain.getD lhs
      else do
        enter
        let op ← operator
        d.comparedTo chain lhs op fuel) := by
  rfl

section Chains

variable {chain chain' : Option Expr} {e e' : Expr}

theorem bare_getD (hchain : chain.map Expr.bare = chain'.map Expr.bare) (he : e.bare = e'.bare) :
    (chain.getD e).bare = (chain'.getD e').bare := by
  cases chain <;> cases chain' <;> simp_all

theorem bare_linked (hchain : chain.map Expr.bare = chain'.map Expr.bare)
    (he : e.bare = e'.bare) : (linked chain e).bare = (linked chain' e').bare := by
  cases chain <;> cases chain' <;> simp_all [linked, Expr.bare]

end Chains

namespace Descent.Alike

variable {n n' : Nat} {d d' : Descent}

theorem comparisons (h : Alike n n' d d') {k : Nat} (hk : k ≤ n + 1)
    {chain chain' : Option Expr} (hchain : chain.map Expr.bare = chain'.map Expr.bare)
    {lhs lhs' : Expr} (hlhs : lhs.bare = lhs'.bare) :
    ∀ k' j, j ≤ k' → j ≤ n' + 1 →
      Twins k j Expr.bare (d.comparisons chain lhs k) (d'.comparisons chain' lhs' k') := by
  induction k generalizing chain chain' lhs lhs' with
  | zero => exact fun _ _ _ _ => .idle
  | succ k ih =>
      apply Twins.cases_right
      intro k' j hj hn'
      rw [comparisons_succ, comparisons_succ]
      have hbehind : ∀ op, Twins k (j - 1) Expr.bare (d.comparedTo chain lhs op k)
          (d'.comparedTo chain' lhs' op k') := by
        intro op
        apply Twins.bind (h.arithmetic.mono (Nat.le_of_succ_le hk) (by omega))
        intro rhs rhs' hrhs
        refine ih (Nat.le_of_succ_le hk) ?_ hrhs k' _ (le_of_pred hj) (by omega)
        refine congrArg some (bare_linked hchain ?_)
        rw [Expr.bare, Expr.bare, hlhs, hrhs]
      have hend := bare_getD hchain hlhs
      apply Twins.peekPrecedence
      · intro precedence
        split
        · exact .pure hend
        · apply Twins.bind .enter
          intro _ _ _
          exact .operator hbehind
      · intro precedence hnot
        rw [if_pos (by decide : (0 : Nat) ≠ 1)]
        split
        · exact .pure hend
        · next hone =>
            refine absurd ?_ hnot
            rw [if_neg hone]
            exact .enter (.operator fun op => (hbehind op).shrinks)

theorem comparison (h : Alike n n' d d') :
    Twins (n + 1) (n' + 1) Expr.bare d.comparison d'.comparison := by
  apply Twins.restoringDepth
  apply Twins.bind h.arithmetic
  intro lhs lhs' hlhs
  apply Twins.rounds
  intro k k' hk hk'
  exact h.comparisons hk rfl hlhs k' k' (Nat.le_refl k') hk'

theorem negation (h : Alike n n' d d') :
    Twins (n + 1) (n' + 1) Expr.bare d.negation d'.negation := by
  apply Twins.bind .peekStart
  intro start start' _
  apply Twins.ifConsume
  · apply Twins.bind h.notOperand
    intro operand operand' hoperand
    apply Twins.bind (.rangeFrom start start')
    intro r r' _
    apply Twins.pure
    rw [Expr.bare, Expr.bare, hoperand]
  · exact h.comparison

theorem conjunction (h : Alike n n' d d') :
    Twins (n + 1) (n' + 1) Expr.bare d.conjunction d'.conjunction := by
  apply Twins.restoringDepth
  apply Twins.bind h.negation
  intro lhs lhs' hlhs
  apply Twins.rounds
  intro k k' hk hk'
  rw [conjuncts_eq, conjuncts_eq]
  exact twins_joins (h.negation.mono hk hk') .andWord _ (.and · · {}) (fun _ _ => rfl)
    (Nat.le_succ k) hlhs k' k' (Nat.le_refl k') (Nat.le_succ k')

theorem disjunctionOf (h : Alike n n' d d') :
    Twins (n + 1) (n' + 1) Expr.bare d.disjunctionOf d'.disjunctionOf := by
  apply Twins.restoringDepth
  apply Twins.bind h.conjunction
  intro lhs lhs' hlhs
  apply Twins.rounds
  intro k k' hk hk'
  rw [disjuncts_eq, disjuncts_eq]
  exact twins_joins (h.conjunction.mono hk hk') .orWord _ (.or · · {}) (fun _ _ => rfl)
    (Nat.le_succ k) hlhs k' k' (Nat.le_refl k') (Nat.le_succ k')

theorem lambda (h : Alike n n' d d') (start start' : Position) :
    Twins n n' Expr.bare (d.lambda start) (d'.lambda start') := by
  have hrest : ∀ params, Twins (n - 1) (n' - 1) Expr.bare (do
      let body ← d.expr
      return Expr.lambda params body (← rangeFrom start)) (do
      let body ← d'.expr
      return Expr.lambda params body (← rangeFrom start')) := by
    intro params
    apply Twins.bind (h.expr.mono (Nat.sub_le n 1) (Nat.sub_le n' 1))
    intro body body' hbody
    apply Twins.bind (.rangeFrom start start')
    intro r r' _
    apply Twins.pure
    rw [Expr.bare, Expr.bare, hbody]
  apply Twins.ifPeek
  · simp only [pure_bind]
    exact .expect (hrest [])
  · simp only [pure_bind]
    exact .expect (hrest []).shrinks
  · apply Twins.rounds
    intro k k' hk hk'
    apply Twins.bind (@twins_parameters k' [] k k' k' (Nat.le_refl k') (Nat.le_refl k'))
    rintro params _ rfl
    exact (Twins.expect (hrest params)).mono hk hk'

theorem conditional (h : Alike n n' d d') :
    Twins (n + 1) (n' + 1) Expr.bare d.conditional d'.conditional := by
  apply Twins.bind .peekStart
  intro start start' _
  apply Twins.ifConsume
  · exact h.lambda start start'
  apply Twins.bind h.disjunctionOf
  intro yes yes' hyes
  apply Twins.ifConsume
  · apply Twins.bind (h.disjunctionOf.mono (Nat.le_succ n) (Nat.le_succ n'))
    intro cond cond' hcond
    apply Twins.expect
    apply Twins.bind (h.expr.mono (Nat.sub_le n 1) (Nat.sub_le n' 1))
    intro no no' hno
    apply Twins.bind (.rangeFrom start start')
    intro r r' _
    apply Twins.pure
    rw [Expr.bare, Expr.bare, hyes, hcond, hno]
  · exact .pure hyes

/-- However many tokens two descents are built for, they make the same moves. -/
theorem ofLength (n : Nat) : ∀ n' j, j ≤ n' → Alike n j (.ofLength n) (.ofLength n') := by
  induction n with
  | zero => exact fun _ _ _ => ⟨.idle, .idle, .idle, .idle⟩
  | succ n ih =>
      have hsucc : ∀ n' j, j ≤ n' + 1 →
          Alike (n + 1) j (.ofLength (n + 1)) (.ofLength (n' + 1)) := by
        intro n' j hj
        have hnested : ∀ {p p' : Parse Expr}, Twins (n + 1) (j - 1 + 1) Expr.bare p p' →
            Twins (n + 1) j Expr.bare (nested p) (nested p') := by
          intro p p' hp
          apply Twins.restoringDepth
          apply Twins.bind .enter
          intro _ _ _
          exact hp.mono (Nat.le_refl _) (by omega)
        have hd := ih n' (j - 1) (le_of_pred hj)
        exact ⟨hnested hd.conditional, hnested hd.negation, hnested hd.unary,
          hd.disjunctionOf.mono (Nat.le_refl _) (by omega)⟩
      intro n' j hj
      cases n' with
      | zero =>
          obtain rfl := Nat.le_zero.mp hj
          have halone := hsucc 0 0 (Nat.zero_le 1)
          exact ⟨.alone halone.expr, .alone halone.notOperand, .alone halone.unaryOperand,
            .alone halone.disjunction⟩
      | succ n' => exact hsucc n' j hj

end Descent.Alike

section Whole

theorem twins_expression (n n' : Nat) : Twins n n' Expr.bare expression expression := by
  apply Twins.rounds
  intro k k' _ _
  exact (Descent.Alike.ofLength k k' k' (Nat.le_refl k')).expr

theorem passes_expression (s : Stream) : Passes expression s :=
  (twins_expression (s.tokens.length + 1) 0).passes (Nat.lt_succ_self _)

theorem ne_nil_of_expression {s s₁ : Stream} {value : Expr} {taken : List Token}
    (hrun : expression s = .ok (value, s₁)) (htaken : Passed s taken s₁) : taken ≠ [] := by
  rintro rfl
  obtain ⟨text, htook, htree⟩ := runs_of_ok (accepts_expression s) hrun
  obtain ⟨kind, more, rfl, -⟩ := htree.begins
  have hlt := htook.length_lt (List.cons_ne_nil kind more)
  rw [htaken.tokens] at hlt
  exact Nat.lt_irrefl _ hlt

/-- An expression that the end stands behind is read. -/
theorem ofTokens?_of_expression {first eof : Token} {more : List Token} {e : Expr} {s₁ : Stream}
    (hfirst : first.isEof = false) (heof : eof.isEof = true)
    (hrun : expression { tokens := first :: more } = .ok (e, s₁)) (htokens : s₁.tokens = [eof]) :
    ofTokens? (first :: more) = .ok e := by
  have hend : expectEof s₁ = .ok ((), s₁.behind eof []) := by
    unfold expectEof
    rw [bind_of_ok (next_eq htokens), heof, if_pos rfl]
    rfl
  have hwhole : whole { tokens := first :: more } = .ok (e, s₁.behind eof []) := by
    unfold whole
    rw [bind_of_ok (peekEof_of_cons rfl), hfirst, if_neg Bool.false_ne_true]
    dsimp only
    rw [bind_of_ok hrun, bind_of_ok hend]
    rfl
  unfold ofTokens?
  change (whole _).map Prod.fst = _
  rw [hwhole]
  rfl

/-- What was read as an expression out of other tokens is read as the same expression alone. -/
theorem ofTokens?_of_taken {s s₁ : Stream} {value : Expr} {taken ts : List Token} {eof : Token}
    (hrun : expression s = .ok (value, s₁)) (htaken : Passed s taken s₁)
    (hts : ts.map (·.kind) = taken.map (·.kind)) (heof : eof.isEof = true) :
    ∃ e, ofTokens? (ts ++ [eof]) = .ok e ∧ e.bare = value.bare := by
  have hquiet : Quiet s₁.tokens [eof] := by
    intro m hfront
    rw [frontIs_cons, Token.isMark, Token.isEof_iff.mp heof] at hfront
    cases hfront
  have habreast : Abreast s₁.tokens [eof] s { tokens := ts ++ [eof] } :=
    ⟨⟨taken.map (·.kind), ⟨taken, htaken.tokens, rfl⟩, ts, rfl, hts⟩, Nat.zero_le _⟩
  obtain ⟨e, s₁', hrun', hview, habreast'⟩ :=
    (twins_expression _ _).lockstep hquiet (Nat.lt_succ_self _) (Nat.lt_succ_self _) habreast hrun
      (Nat.le_refl _)
  have htokens' : s₁'.tokens = [eof] := by
    rcases habreast'.front with ⟨-, htokens'⟩ | ⟨t, more, _, _, htokens, -, -, ⟨text, hmore, -⟩, -⟩
    · exact htokens'
    · have hlength := hmore.length_le
      rw [htokens, List.length_cons] at hlength
      exact absurd hlength (Nat.not_succ_le_self _)
  obtain ⟨first, more, rfl⟩ : ∃ first more, ts = first :: more := by
    apply List.exists_cons_of_ne_nil
    rintro rfl
    exact ne_nil_of_expression hrun htaken (List.map_eq_nil_iff.mp hts.symm)
  have hfirst : first.isEof = false := by
    obtain ⟨t, _, rfl, hkind, -⟩ := List.map_eq_cons_iff.mp hts.symm
    have ht := htaken.noEof t List.mem_cons_self
    rw [Bool.eq_false_iff, Ne, Token.isEof_iff] at ht ⊢
    exact mt hkind.trans ht
  exact ⟨e, ofTokens?_of_expression hfirst heof hrun' htokens', hview.symm⟩

/-- An expression that is too deep is too deep at one of its tokens, or at their end. -/
theorem deepAt_of_ofTokens? {tokens : List Token} {e : ExprError}
    (h : ofTokens? tokens = .error e) : DeepAt tokens e := by
  have hruns : Runs whole { tokens } (fun _ _ => True) (DeepAt tokens) := by
    apply Runs.peekEof
    intro atEnd
    apply Runs.ite
    · intro _
      exact Runs.throw (DeepAt.of_not (by rintro ⟨_, _, ⟨⟩⟩))
    · intro _
      apply Runs.bind (passes_expression _)
      intro e s₁ _
      apply Runs.bind (Q := fun _ _ => True)
      · apply Runs.next
        · intro _
          exact DeepAt.of_not Twins.not_tooDeep_unexpectedEof
        · intro token s₂ _ _
          apply Runs.ite
          · exact fun _ => Runs.pure trivial
          · exact fun _ => Runs.throw (DeepAt.of_not (by rintro ⟨_, _, ⟨⟩⟩))
      · intro _ s₂ _
        exact Runs.pure trivial
  exact hruns.map_fst.2 e h

end Whole

end Expr
end Stencil
