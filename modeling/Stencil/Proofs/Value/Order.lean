/-
The order of values.  Numbers stand in one line, and so do texts and booleans; arrays are compared
item by item.  Where the order of two values is defined it turns round with them, it is transitive,
and values of equal order are compared alike with everything else.  Equality agrees with it but for
numbers that are not-a-number.
-/
import Stencil.Value.Basic

namespace Stencil

namespace Number

/-- The place of a number in the line of all numbers: not-a-number stands behind infinity. -/
def rank (n : Number) : Int := if n.isNaN then infiniteMagnitude + 1 else n.order

theorem order_le_of_isNaN_eq_false {n : Number} (h : n.isNaN = false) :
    n.order ≤ infiniteMagnitude := by
  simp only [isNaN, decide_eq_false_iff_not] at h
  unfold order
  split <;> omega

/-- Numbers are compared by their places. -/
theorem compare_eq_rank (a b : Number) : compare a b = Ord.compare a.rank b.rank := by
  unfold compare rank
  cases ha : a.isNaN with
  | true =>
      cases hb : b.isNaN with
      | true => simp
      | false =>
          have hle := order_le_of_isNaN_eq_false hb
          simp only [if_true, Bool.false_eq_true, if_false]
          exact (Int.compare_eq_gt.mpr (by omega)).symm
  | false =>
      have hle := order_le_of_isNaN_eq_false ha
      cases hb : b.isNaN with
      | true =>
          simp only [if_true, Bool.false_eq_true, if_false]
          exact (Int.compare_eq_lt.mpr (by omega)).symm
      | false => simp

instance : Std.TransOrd Number where
  eq_swap := by
    intro a b
    change compare a b = (compare b a).swap
    rw [compare_eq_rank, compare_eq_rank]
    exact Std.OrientedCmp.eq_swap
  isLE_trans := by
    intro a b c hab hbc
    change (compare a c).isLE
    change (compare a b).isLE at hab
    change (compare b c).isLE at hbc
    rw [compare_eq_rank] at *
    exact Std.TransCmp.isLE_trans hab hbc

/-- Two numbers are equal if they stand at one place and are numbers at all. -/
theorem beq_eq_compare (a b : Number) : (a == b) = (Ord.compare a b == .eq && !a.isNaN) := by
  change (!a.isNaN && !b.isNaN && a.order == b.order) = (compare a b == .eq && !a.isNaN)
  unfold compare
  rw [Bool.eq_iff_iff]
  cases a.isNaN <;> cases b.isNaN <;> simp

end Number

section Lines

variable {α : Type} [Ord α] [Std.TransOrd α] {x y z : α}

theorem some_compare_swap (x y : α) :
    some (compare y x) = (some (compare x y)).map Ordering.swap :=
  congrArg some Std.OrientedCmp.eq_swap

theorem some_compare_congr (h : some (compare x y) = some .eq) (z : α) :
    some (compare x z) = some (compare y z) :=
  congrArg some (Std.TransCmp.congr_left (Option.some.inj h))

theorem some_compare_lt_trans (hxy : some (compare x y) = some .lt)
    (hyz : some (compare y z) = some .lt) : some (compare x z) = some .lt :=
  congrArg some (Std.TransCmp.lt_trans (Option.some.inj hxy) (Option.some.inj hyz))

end Lines

namespace Val

variable {κ : Type}

theorem orderAll?_cons_of_eq {a b : Val κ} (h : order? a b = some .eq) (as bs : List (Val κ)) :
    orderAll? (a :: as) (b :: bs) = orderAll? as bs := by
  rw [orderAll?, h]

theorem orderAll?_cons_of_ne {a b : Val κ} (h : order? a b ≠ some .eq) (as bs : List (Val κ)) :
    orderAll? (a :: as) (b :: bs) = order? a b := by
  rw [orderAll?]
  split
  · contradiction
  · rfl

/-- Arrays are equal in order if their first items and their rests are. -/
theorem orderAll?_cons_eq_eq_iff {a b : Val κ} {as bs : List (Val κ)} :
    orderAll? (a :: as) (b :: bs) = some .eq ↔
      order? a b = some .eq ∧ orderAll? as bs = some .eq := by
  by_cases h : order? a b = some .eq
  · simp [orderAll?_cons_of_eq h, h]
  · simp [orderAll?_cons_of_ne h, h]

/-- One array is less than another if its first item is, or if its rest is behind first items of
equal order. -/
theorem orderAll?_cons_eq_lt_iff {a b : Val κ} {as bs : List (Val κ)} :
    orderAll? (a :: as) (b :: bs) = some .lt ↔
      order? a b = some .lt ∨ order? a b = some .eq ∧ orderAll? as bs = some .lt := by
  by_cases h : order? a b = some .eq
  · simp [orderAll?_cons_of_eq h, h]
  · simp [orderAll?_cons_of_ne h, h]

/-! The order turns round with the values, and is undefined both ways at once. -/

mutual

theorem order?_swap : (a b : Val κ) → order? b a = (order? a b).map Ordering.swap
  | .number m, b => by
      cases b with
      | number n => exact some_compare_swap m n
      | _ => rfl
  | .bool p, b => by
      cases b with
      | bool q => exact some_compare_swap p q
      | _ => rfl
  | .string s, b => by
      cases b with
      | string t => exact some_compare_swap s t
      | _ => rfl
  | .array as, b => by
      cases b with
      | array bs => exact orderAll?_swap as bs
      | _ => rfl
  | .none, b | .dict _, b | .native .., b | .closure .., b => by cases b <;> rfl

theorem orderAll?_swap : (as bs : List (Val κ)) →
    orderAll? bs as = (orderAll? as bs).map Ordering.swap
  | [], [] | [], _ :: _ | _ :: _, [] => rfl
  | a :: as, b :: bs => by
      have hhead := order?_swap a b
      by_cases h : order? a b = some .eq
      · rw [h] at hhead
        rw [orderAll?_cons_of_eq h, orderAll?_cons_of_eq hhead, orderAll?_swap as bs]
      · have h' : order? b a ≠ some .eq := by
          intro heq
          rw [hhead, Option.map_eq_some_iff] at heq
          obtain ⟨o, ho, hswap⟩ := heq
          rw [Ordering.swap_eq_eq] at hswap
          exact h (hswap ▸ ho)
        rw [orderAll?_cons_of_ne h, orderAll?_cons_of_ne h', hhead]

end

/-! Values of equal order are compared alike with every value, and undefined alike. -/

mutual

theorem order?_congr : (a b c : Val κ) → order? a b = some .eq → order? a c = order? b c
  | .number m, b, c, h => by
      cases b with
      | number n =>
          cases c with
          | number k => exact some_compare_congr h k
          | _ => rfl
      | _ => cases h
  | .bool p, b, c, h => by
      cases b with
      | bool q =>
          cases c with
          | bool r => exact some_compare_congr h r
          | _ => rfl
      | _ => cases h
  | .string s, b, c, h => by
      cases b with
      | string t =>
          cases c with
          | string u => exact some_compare_congr h u
          | _ => rfl
      | _ => cases h
  | .array as, b, c, h => by
      cases b with
      | array bs =>
          cases c with
          | array cs => exact orderAll?_congr as bs cs h
          | _ => rfl
      | _ => cases h
  | .none, b, _, h | .dict _, b, _, h | .native .., b, _, h | .closure .., b, _, h => by
      cases b <;> cases h

theorem orderAll?_congr : (as bs cs : List (Val κ)) → orderAll? as bs = some .eq →
    orderAll? as cs = orderAll? bs cs
  | [], [], _, _ => rfl
  | [], _ :: _, _, h | _ :: _, [], _, h => by cases h
  | _ :: _, _ :: _, [], _ => rfl
  | a :: as, b :: bs, c :: cs, h => by
      obtain ⟨hhead, htail⟩ := orderAll?_cons_eq_eq_iff.mp h
      rw [orderAll?, orderAll?, order?_congr a b c hhead, orderAll?_congr as bs cs htail]

end

/-- Values of equal order are compared alike from the other side too. -/
theorem order?_congr_right {b c : Val κ} (a : Val κ) (h : order? b c = some .eq) :
    order? a b = order? a c := by
  rw [order?_swap b a, order?_swap c a, order?_congr b c a h]

mutual

theorem order?_lt_trans : (a b c : Val κ) → order? a b = some .lt → order? b c = some .lt →
    order? a c = some .lt
  | .number m, b, c, hab, hbc => by
      cases b with
      | number n =>
          cases c with
          | number k => exact some_compare_lt_trans hab hbc
          | _ => cases hbc
      | _ => cases hab
  | .bool p, b, c, hab, hbc => by
      cases b with
      | bool q =>
          cases c with
          | bool r => exact some_compare_lt_trans hab hbc
          | _ => cases hbc
      | _ => cases hab
  | .string s, b, c, hab, hbc => by
      cases b with
      | string t =>
          cases c with
          | string u => exact some_compare_lt_trans hab hbc
          | _ => cases hbc
      | _ => cases hab
  | .array as, b, c, hab, hbc => by
      cases b with
      | array bs =>
          cases c with
          | array cs => exact orderAll?_lt_trans as bs cs hab hbc
          | _ => cases hbc
      | _ => cases hab
  | .none, b, _, h, _ | .dict _, b, _, h, _ | .native .., b, _, h, _
  | .closure .., b, _, h, _ => by
      cases b <;> cases h

/-- The pairs of items that decide the two comparisons need not stand at one place: the one
further to the front decides the third. -/
theorem orderAll?_lt_trans : (as bs cs : List (Val κ)) → orderAll? as bs = some .lt →
    orderAll? bs cs = some .lt → orderAll? as cs = some .lt
  | [], [], _, h, _ | _ :: _, [], _, h, _ => by cases h
  | _, _ :: _, [], _, h => by cases h
  | [], _ :: _, _ :: _, _, _ => rfl
  | a :: as, b :: bs, c :: cs, hab, hbc => by
      rw [orderAll?_cons_eq_lt_iff] at hab hbc ⊢
      rcases hab with hab | ⟨hab, htail⟩
      · rcases hbc with hbc | ⟨hbc, -⟩
        · exact .inl (order?_lt_trans a b c hab hbc)
        · exact .inl (order?_congr_right a hbc ▸ hab)
      · rw [order?_congr a b c hab]
        rcases hbc with hbc | ⟨hbc, hrest⟩
        · exact .inl hbc
        · exact .inr ⟨hbc, orderAll?_lt_trans as bs cs htail hrest⟩

end

/-- Greater is transitive, being less the other way round. -/
theorem order?_gt_trans {a b c : Val κ} (hab : order? a b = some .gt)
    (hbc : order? b c = some .gt) : order? a c = some .gt := by
  have hba : order? b a = some .lt := by rw [order?_swap a b, hab]; rfl
  have hcb : order? c b = some .lt := by rw [order?_swap b c, hbc]; rfl
  rw [order?_swap c a, order?_lt_trans c b a hcb hba]
  rfl

/-- Two comparisons in a row that do not point opposite ways make the third: the first of them
that is strict decides it. -/
theorem order?_then {a b c : Val κ} {o o' : Ordering} (hab : order? a b = some o)
    (hbc : order? b c = some o') (h : o = .eq ∨ o' = .eq ∨ o = o') :
    order? a c = some (o.then o') := by
  rcases h with rfl | rfl | rfl
  · rw [order?_congr a b c hab, hbc, Ordering.eq_then]
  · rw [← order?_congr_right a hbc, hab, Ordering.then_eq]
  · cases o with
    | lt => exact order?_lt_trans a b c hab hbc
    | eq => rw [order?_congr a b c hab, hbc, Ordering.eq_then]
    | gt => exact order?_gt_trans hab hbc

mutual

/-- A number in the value, in arrays at any depth, is not-a-number. -/
def holdsNaN : Val κ → Bool
  | number n => n.isNaN
  | array items => anyHoldsNaN items
  | _ => false

def anyHoldsNaN : List (Val κ) → Bool
  | [] => false
  | v :: rest => v.holdsNaN || anyHoldsNaN rest

end

/-! Of values that have an order, those are equal whose order is equal and that hold no number
that is not-a-number. -/

mutual

theorem equals_eq_of_order? : (a b : Val κ) → {o : Ordering} → order? a b = some o →
    equals a b = (o == .eq && !a.holdsNaN)
  | .number m, b, o, h => by
      cases b with
      | number n =>
          obtain rfl := Option.some.inj h
          exact Number.beq_eq_compare m n
      | _ => cases h
  | .bool p, b, o, h => by
      cases b with
      | bool q =>
          obtain rfl := Option.some.inj h
          rw [equals, Bool.eq_iff_iff]
          simp [holdsNaN]
      | _ => cases h
  | .string s, b, o, h => by
      cases b with
      | string t =>
          obtain rfl := Option.some.inj h
          rw [equals, Bool.eq_iff_iff]
          simp [holdsNaN]
      | _ => cases h
  | .array as, b, o, h => by
      cases b with
      | array bs => exact equalAll_eq_of_orderAll? as bs h
      | _ => cases h
  | .none, b, _, h | .dict _, b, _, h | .native .., b, _, h | .closure .., b, _, h => by
      cases b <;> cases h

theorem equalAll_eq_of_orderAll? : (as bs : List (Val κ)) → {o : Ordering} →
    orderAll? as bs = some o → equalAll as bs = (o == .eq && !anyHoldsNaN as)
  | [], [], _, h | [], _ :: _, _, h | _ :: _, [], _, h => by cases h; rfl
  | a :: as, b :: bs, o, h => by
      rw [equalAll, anyHoldsNaN]
      by_cases hhead : order? a b = some .eq
      · rw [orderAll?_cons_of_eq hhead] at h
        rw [equals_eq_of_order? a b hhead, equalAll_eq_of_orderAll? as bs h, Bool.not_or,
          Bool.and_left_comm]
        rfl
      · rw [orderAll?_cons_of_ne hhead] at h
        have hne : (o == .eq) = false := by
          rw [beq_eq_false_iff_ne]
          rintro rfl
          exact hhead h
        rw [equals_eq_of_order? a b h, hne, Bool.false_and, Bool.false_and, Bool.false_and]

end

end Val

end Stencil
