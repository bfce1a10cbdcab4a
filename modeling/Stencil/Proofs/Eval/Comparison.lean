/-
Comparisons in expressions.  A chain of comparisons says no more and no less than the order of the
values does: it never says what the comparison of its ends denies, and two values are at most each
other exactly if their order is equal.  That is when they are equal too, but for numbers that are
not-a-number.
-/
import Stencil.Expression
import Stencil.Native
import Stencil.Proofs.Value.Order

namespace Stencil

theorem Eval.bind_of_ok {α β : Type} {run : Eval α} {a : α} {serial next : Nat}
    (h : run serial = .ok (a, next)) (f : α → Eval β) : (run >>= f) serial = f a next := by
  change (run serial >>= fun p => f p.1 p.2) = f a next
  rw [h]
  rfl

theorem Eval.bind_of_error {α β : Type} {run : Eval α} {serial : Nat} {halt : Halt}
    (h : run serial = .error halt) (f : α → Eval β) : (run >>= f) serial = .error halt := by
  change (run serial >>= fun p => f p.1 p.2) = .error halt
  rw [h]
  rfl

theorem Eval.ofResult_eq_ok_iff {α : Type} {result : Except EvalError α} {a : α}
    {serial next : Nat} :
    Eval.ofResult result serial = .ok (a, next) ↔ result = .ok a ∧ serial = next := by
  cases result with
  | ok b =>
      change (Except.ok (b, serial) : Except Halt (α × Nat)) = .ok (a, next) ↔ _
      simp
  | error e =>
      constructor
      · intro h
        cases h
      · rintro ⟨h, -⟩
        cases h

/-- Evaluating the code gives `v`, where the next function to be made has this serial number. -/
def Code.GivesFrom (call : Call) (env : Env) (serial : Nat) (code : Code) (v : Value) : Prop :=
  ∃ next, code.eval call env serial = .ok (v, next)

/-- Evaluating the code gives `v` however many functions were made before; it may make more. -/
def Code.Gives (call : Call) (env : Env) (code : Code) (v : Value) : Prop :=
  ∀ serial, code.GivesFrom call env serial v

/-- The orders of its operands that a comparison is true of. -/
def BinaryOp.orderTest? : BinaryOp → Option (Ordering → Bool)
  | .lt => some Ordering.isLT
  | .le => some Ordering.isLE
  | .gt => some Ordering.isGT
  | .ge => some Ordering.isGE
  | _ => none

/-- What two comparisons in a row that point the same way come to: the strict one of them. -/
def BinaryOp.chained? : BinaryOp → BinaryOp → Option BinaryOp
  | .lt, .lt | .lt, .le | .le, .lt => some .lt
  | .le, .le => some .le
  | .gt, .gt | .gt, .ge | .ge, .gt => some .gt
  | .ge, .ge => some .ge
  | _, _ => none

theorem BinaryOp.orderTest?_of_chained? {first second both : BinaryOp}
    (h : first.chained? second = some both) :
    ∃ test test' test'', first.orderTest? = some test ∧ second.orderTest? = some test' ∧
      both.orderTest? = some test'' ∧ ∀ o o' : Ordering, test o = true → test' o' = true →
        (o = .eq ∨ o' = .eq ∨ o = o') ∧ test'' (o.then o') = true := by
  cases first <;> cases second <;> cases h <;> refine ⟨_, _, _, rfl, rfl, rfl, ?_⟩ <;>
    intro o o' ho ho' <;> cases o <;> cases ho <;> cases o' <;> cases ho' <;> decide

/-- The values have an order, and the test is true of it. -/
def Val.Passes {κ : Type} (test : Ordering → Bool) (a b : Val κ) : Prop :=
  ∃ o, Val.order? a b = some o ∧ test o = true

namespace Val

variable {κ : Type} {test : Ordering → Bool} {a b c : Val κ}

theorem applyBinary_eq_ordered {op : BinaryOp} (h : op.orderTest? = some test) (a b : Val κ) :
    applyBinary op a b = ordered op.symbol test a b := by
  cases op <;> cases h <;> rfl

theorem ordered_eq_ok_iff {operation : String} {v : Val κ} :
    ordered operation test a b = .ok v ↔ ∃ o, order? a b = some o ∧ v = .bool (test o) := by
  unfold ordered
  cases order? a b with
  | none => simp
  | some o => simp [eq_comm]

theorem Passes.isLE_iff : a.Passes Ordering.isLE b ∧ b.Passes Ordering.isLE a ↔
    order? a b = some .eq := by
  unfold Passes
  rw [order?_swap a b]
  cases order? a b with
  | none => simp
  | some o => cases o <;> simp

end Val

section Comparisons

variable {call : Call} {env : Env} {serial : Nat} {x y z w : Code} {a b c d : Value}

theorem Code.binary_givesFrom_iff (hx : x.Gives call env a) (hy : y.Gives call env b)
    {op : BinaryOp} {v : Value} :
    (Code.binary op x y).GivesFrom call env serial v ↔ Val.applyBinary op a b = .ok v := by
  obtain ⟨middle, hmiddle⟩ := hx serial
  obtain ⟨last, hlast⟩ := hy middle
  have heval : (Code.binary op x y).eval call env serial =
      Eval.ofResult (Val.applyBinary op a b) last := by
    rw [Code.eval, Eval.bind_of_ok hmiddle, Eval.bind_of_ok hlast]
  simp only [Code.GivesFrom, heval, Eval.ofResult_eq_ok_iff, exists_and_left, exists_eq',
    and_true]

theorem Code.comparison_givesFrom_true_iff (hx : x.Gives call env a) (hy : y.Gives call env b)
    {op : BinaryOp} {test : Ordering → Bool} (hop : op.orderTest? = some test) :
    (Code.binary op x y).GivesFrom call env serial (.bool true) ↔ a.Passes test b := by
  rw [Code.binary_givesFrom_iff hx hy, Val.applyBinary_eq_ordered hop, Val.ordered_eq_ok_iff]
  simp only [Val.Passes, Val.bool.injEq, Bool.true_eq]

theorem Code.comparison_gives_true_iff (hx : x.Gives call env a) (hy : y.Gives call env b)
    {op : BinaryOp} {test : Ordering → Bool} (hop : op.orderTest? = some test) :
    (Code.binary op x y).Gives call env (.bool true) ↔ a.Passes test b := by
  simp only [Code.Gives, Code.comparison_givesFrom_true_iff hx hy hop, forall_const]

theorem Code.equality_gives_true_iff (hx : x.Gives call env a) (hy : y.Gives call env b) :
    (Code.binary .eq x y).Gives call env (.bool true) ↔ (a == b) = true := by
  simp only [Code.Gives, Code.binary_givesFrom_iff hx hy, forall_const]
  simp [Val.applyBinary]

theorem Code.and_givesFrom_iff {v : Value} : (Code.and x y).GivesFrom call env serial v ↔
    ∃ u next, x.eval call env serial = .ok (u, next) ∧
      if u.isTruthy then y.GivesFrom call env next v else u = v := by
  unfold Code.GivesFrom
  cases hx : x.eval call env serial with
  | error halt =>
      rw [Code.eval, Eval.bind_of_error hx]
      simp
  | ok outcome =>
      obtain ⟨u, next⟩ := outcome
      rw [Code.eval, Eval.bind_of_ok hx]
      constructor
      · rintro ⟨last, hlast⟩
        refine ⟨u, next, rfl, ?_⟩
        split at hlast
        · next htruthy => exact if_pos htruthy ▸ ⟨last, hlast⟩
        · next hfalsy =>
            rw [if_neg hfalsy]
            cases hlast
            rfl
      · rintro ⟨u', next', hsame, hrest⟩
        cases hsame
        split
        · next htruthy => rwa [if_pos htruthy] at hrest
        · next hfalsy =>
            rw [if_neg hfalsy] at hrest
            exact ⟨next, hrest ▸ rfl⟩

/-- Two comparisons joined by `and` are true if both are: the second is left out only if the first
is false. -/
theorem Code.comparisons_giveFrom_true_iff (hx : x.Gives call env a) (hy : y.Gives call env b)
    (hz : z.Gives call env c) (hw : w.Gives call env d) {op op' : BinaryOp}
    {test test' : Ordering → Bool} (hop : op.orderTest? = some test)
    (hop' : op'.orderTest? = some test') :
    (Code.and (.binary op x y) (.binary op' z w)).GivesFrom call env serial (.bool true) ↔
      a.Passes test b ∧ c.Passes test' d := by
  rw [Code.and_givesFrom_iff]
  constructor
  · rintro ⟨u, next, hfirst, hrest⟩
    have happly := (Code.binary_givesFrom_iff hx hy).mp ⟨next, hfirst⟩
    rw [Val.applyBinary_eq_ordered hop] at happly
    obtain ⟨o, ho, rfl⟩ := Val.ordered_eq_ok_iff.mp happly
    cases htest : test o with
    | true =>
        rw [htest] at hrest
        exact ⟨⟨o, ho, htest⟩, (Code.comparison_givesFrom_true_iff hz hw hop').mp hrest⟩
    | false =>
        rw [htest] at hrest
        cases hrest
  · rintro ⟨hfirst, hsecond⟩
    have htrue : (Code.binary op x y).GivesFrom call env serial (.bool true) :=
      (Code.comparison_givesFrom_true_iff hx hy hop).mpr hfirst
    obtain ⟨next, hnext⟩ := htrue
    exact ⟨.bool true, next, hnext, (Code.comparison_givesFrom_true_iff hz hw hop').mpr hsecond⟩

theorem Code.comparisons_give_true_iff (hx : x.Gives call env a) (hy : y.Gives call env b)
    (hz : z.Gives call env c) (hw : w.Gives call env d) {op op' : BinaryOp}
    {test test' : Ordering → Bool} (hop : op.orderTest? = some test)
    (hop' : op'.orderTest? = some test') :
    (Code.and (.binary op x y) (.binary op' z w)).Gives call env (.bool true) ↔
      a.Passes test b ∧ c.Passes test' d := by
  simp only [Code.Gives, Code.comparisons_giveFrom_true_iff hx hy hz hw hop hop', forall_const]

/-- The order of values is consistent: it turns round with the values, being less is transitive, and
values of equal order are compared alike with everything, so that no chain of comparisons is true
where the comparison of its ends is not. -/
theorem order_consistent (a b c : Value) :
    Val.order? b a = (Val.order? a b).map Ordering.swap ∧
      (Val.order? a b = some .lt → Val.order? b c = some .lt → Val.order? a c = some .lt) ∧
      (Val.order? a b = some .eq → Val.order? a c = Val.order? b c) ∧
      ∀ {call : Call} {env : Env} {x y z : Code}, x.Gives call env a → y.Gives call env b →
        z.Gives call env c → ∀ first second both : BinaryOp, first.chained? second = some both →
          (Code.and (.binary first x y) (.binary second y z)).Gives call env (.bool true) →
            (Code.binary both x z).Gives call env (.bool true) := by
  refine ⟨Val.order?_swap a b, Val.order?_lt_trans a b c, Val.order?_congr a b c, ?_⟩
  intro call env x y z hx hy hz first second both hboth hchain
  obtain ⟨test, test', test'', hfirst, hsecond, htest, hthen⟩ :=
    BinaryOp.orderTest?_of_chained? hboth
  obtain ⟨⟨o, hab, ho⟩, o', hbc, ho'⟩ :=
    (Code.comparisons_give_true_iff hx hy hy hz hfirst hsecond).mp hchain
  obtain ⟨hsame, hends⟩ := hthen o o' ho ho'
  exact (Code.comparison_gives_true_iff hx hz htest).mpr
    ⟨o.then o', Val.order?_then hab hbc hsame, hends⟩

/-- Values that have an order are at most each other if it is equal.  They are equal too, unless
they hold a number that is not-a-number: it is equal to nothing. -/
theorem equality_agrees_with_order (horder : Val.order? a b ≠ none) (hx : x.Gives call env a)
    (hy : y.Gives call env b) :
    ((a == b) = true ↔ Val.order? a b = some .eq ∧ a.holdsNaN = false) ∧
      ((Code.and (.binary .le x y) (.binary .le y x)).Gives call env (.bool true) ↔
        Val.order? a b = some .eq) ∧
      ((Code.binary .eq x y).Gives call env (.bool true) ↔ (a == b) = true) := by
  refine ⟨?_, ?_, Code.equality_gives_true_iff hx hy⟩
  · obtain ⟨o, ho⟩ := Option.ne_none_iff_exists'.mp horder
    change Val.equals a b = true ↔ _
    rw [Val.equals_eq_of_order? a b ho, ho]
    simp
  · rw [Code.comparisons_give_true_iff hx hy hy hx rfl rfl, Val.Passes.isLE_iff]

end Comparisons

namespace ComparisonWitness

/-- Not-a-number, a zero with its sign, a number, and items behind it. -/
def row (zero last : Float) (rest : List Value) : Value :=
  .array (.number ⟨0 / 0⟩ :: .number ⟨zero⟩ :: .number ⟨last⟩ :: rest)

/-- Where three names stand for three values. -/
def named (a b c : Value) : Env := { context := ⟨[("a", a), ("b", b), ("c", c)]⟩, helpers := [] }

/-- Items that have no order do no harm behind the pair that decides. -/
theorem rows_consistent :
    let first := row (-0) 1 [.none]
    let second := row 0 2 []
    let third := row (-0) 2 [.dict []]
    let env := named first second third
    Val.order? first second = some .lt ∧ Val.order? second third = some .lt ∧
      Val.order? first third = some .lt ∧ Val.order? third first = some .gt ∧
      (Code.and (.binary .lt (.global "a") (.global "b"))
        (.binary .le (.global "b") (.global "c"))).Gives
          ((Native.host 4).apply 4) env (.bool true) ∧
      (Code.binary .lt (.global "a") (.global "c")).Gives
        ((Native.host 4).apply 4) env (.bool true) := by
  intro first second third env
  have ha : (Code.global "a").Gives ((Native.host 4).apply 4) env first := fun n => ⟨n, rfl⟩
  have hb : (Code.global "b").Gives ((Native.host 4).apply 4) env second := fun n => ⟨n, rfl⟩
  have hc : (Code.global "c").Gives ((Native.host 4).apply 4) env third := fun n => ⟨n, rfl⟩
  have hfirst : Val.order? first second = some .lt := by decide +kernel
  have hsecond : Val.order? second third = some .lt := by decide +kernel
  have hchain : (Code.and (.binary .lt (.global "a") (.global "b"))
      (.binary .le (.global "b") (.global "c"))).Gives ((Native.host 4).apply 4) env (.bool true) :=
    (Code.comparisons_give_true_iff ha hb hb hc rfl rfl).mpr
      ⟨⟨.lt, hfirst, rfl⟩, .lt, hsecond, rfl⟩
  obtain ⟨hswap, htrans, -, hends⟩ := order_consistent first second third
  have hthird := htrans hfirst hsecond
  obtain ⟨hback, -⟩ := order_consistent first third second
  rw [hthird] at hback
  exact ⟨hfirst, hsecond, hthird, hback, hchain, hends ha hb hc .lt .le .lt rfl hchain⟩

/-- The two zeros are equal, and each is at most the other. -/
theorem zeros_agree :
    let zero : Value := .array [.number ⟨0⟩]
    let negativeZero : Value := .array [.number ⟨-0⟩]
    let env := named zero negativeZero .none
    Val.order? zero negativeZero = some .eq ∧
      (Code.and (.binary .le (.global "a") (.global "b"))
        (.binary .le (.global "b") (.global "a"))).Gives
          ((Native.host 4).apply 4) env (.bool true) ∧
      (Code.binary .eq (.global "a") (.global "b")).Gives
        ((Native.host 4).apply 4) env (.bool true) := by
  intro zero negativeZero env
  have ha : (Code.global "a").Gives ((Native.host 4).apply 4) env zero := fun n => ⟨n, rfl⟩
  have hb : (Code.global "b").Gives ((Native.host 4).apply 4) env negativeZero :=
    fun n => ⟨n, rfl⟩
  have horder : Val.order? zero negativeZero = some .eq := by decide +kernel
  have hnumbers : zero.holdsNaN = false := by decide +kernel
  obtain ⟨hequal, hboth, heq⟩ := equality_agrees_with_order (by rw [horder]; simp) ha hb
  exact ⟨horder, hboth.mpr horder, heq.mpr (hequal.mpr ⟨horder, hnumbers⟩)⟩

/-- What an expression of no names and no helpers is shown as. -/
def shown (source : String) : Option String := do
  let e ← (Expression.compile? source.toList).toOption
  let result ← (e.evaluate (Native.host 4) {} [] 0).toOption
  return result.1.text

/-- Infinity less infinity is not-a-number: it is at most itself and not equal to itself. -/
theorem nan_equal_in_order_alone :
    shown ("[(n <= n and n <= n) == (n == n) for a in [100000000000000000000] " ++
        "for b in [a * a * a * a] for c in [b * b * b * b] for n in [c - c]]") = some "[false]" ∧
      ¬ ∀ a b : Value, Val.order? a b ≠ none → (Val.order? a b = some .eq ↔ (a == b) = true) := by
  refine ⟨by decide +kernel, fun hagrees => ?_⟩
  let nan : Value := .number ⟨0 / 0⟩
  have horder : Val.order? nan nan = some .eq := by decide +kernel
  have hequal : (nan == nan) = false := by decide +kernel
  rw [(hagrees nan nan (by rw [horder]; simp)).mp horder] at hequal
  cases hequal

end ComparisonWitness

end Stencil
