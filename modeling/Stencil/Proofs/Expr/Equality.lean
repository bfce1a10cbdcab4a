/-
Equality of syntax trees is decidable, so that what a text is read as can be computed and compared.
-/
import Stencil.Expression

namespace Stencil

mutual

/-- The trees have the same nodes over the same ranges. -/
def Expr.same : Expr → Expr → Bool
  | .literal value r, .literal value' r' => value = value' && r = r'
  | .ident name r, .ident name' r' => name = name' && r = r'
  | .list items r, .list items' r' => sameAll items items' && r = r'
  | .dict entries r, .dict entries' r' => sameEntries entries entries' && r = r'
  | .member value name r, .member value' name' r' => value.same value' && name = name' && r = r'
  | .index value position r, .index value' position' r' =>
      value.same value' && position.same position' && r = r'
  | .call callee args r, .call callee' args' r' =>
      callee.same callee' && sameAll args args' && r = r'
  | .unary op operand r, .unary op' operand' r' => op = op' && operand.same operand' && r = r'
  | .binary op lhs rhs r, .binary op' lhs' rhs' r' =>
      op = op' && lhs.same lhs' && rhs.same rhs' && r = r'
  | .and lhs rhs r, .and lhs' rhs' r' => lhs.same lhs' && rhs.same rhs' && r = r'
  | .or lhs rhs r, .or lhs' rhs' r' => lhs.same lhs' && rhs.same rhs' && r = r'
  | .conditional yes cond no r, .conditional yes' cond' no' r' =>
      yes.same yes' && cond.same cond' && no.same no' && r = r'
  | .lambda params body r, .lambda params' body' r' =>
      params = params' && body.same body' && r = r'
  | .comprehension element clauses r, .comprehension element' clauses' r' =>
      element.same element' && sameClauses clauses clauses' && r = r'
  | _, _ => false
termination_by structural e => e

def sameAll : List Expr → List Expr → Bool
  | [], [] => true
  | e :: rest, e' :: rest' => e.same e' && sameAll rest rest'
  | _, _ => false

def sameEntries : List (Expr × Expr) → List (Expr × Expr) → Bool
  | [], [] => true
  | (key, value) :: rest, (key', value') :: rest' =>
      key.same key' && value.same value' && sameEntries rest rest'
  | _, _ => false

def sameClauses : List Clause → List Clause → Bool
  | [], [] => true
  | .mk targets source conditions :: rest, .mk targets' source' conditions' :: rest' =>
      targets = targets' && source.same source' && sameAll conditions conditions' &&
        sameClauses rest rest'
  | _, _ => false

end

theorem Expr.eq_of_same {e e' : Expr} (h : e.same e' = true) : e = e' := by
  have hall : (∀ e e' : Expr, e.same e' = true → e = e') ∧
      (∀ clauses clauses' : List Clause, sameClauses clauses clauses' = true →
        clauses = clauses') ∧
      (∀ items items' : List Expr, sameAll items items' = true → items = items') ∧
      ∀ entries entries' : List (Expr × Expr), sameEntries entries entries' = true →
        entries = entries' := by
    apply Expr.same.mutual_induct <;> intros
    all_goals
      simp_all only [Expr.same, sameAll, sameEntries, sameClauses, Bool.and_eq_true,
        decide_eq_true_eq, Bool.false_eq_true]
  exact hall.1 e e' h

mutual

theorem Expr.same_self : ∀ e : Expr, e.same e = true
  | .literal _ _ => by simp [Expr.same]
  | .ident _ _ => by simp [Expr.same]
  | .list items _ => by simp [Expr.same, sameAll_self items]
  | .dict entries _ => by simp [Expr.same, sameEntries_self entries]
  | .member value _ _ => by simp [Expr.same, value.same_self]
  | .index value position _ => by simp [Expr.same, value.same_self, position.same_self]
  | .call callee args _ => by simp [Expr.same, callee.same_self, sameAll_self args]
  | .unary _ operand _ => by simp [Expr.same, operand.same_self]
  | .binary _ lhs rhs _ => by simp [Expr.same, lhs.same_self, rhs.same_self]
  | .and lhs rhs _ => by simp [Expr.same, lhs.same_self, rhs.same_self]
  | .or lhs rhs _ => by simp [Expr.same, lhs.same_self, rhs.same_self]
  | .conditional yes cond no _ => by
      simp [Expr.same, yes.same_self, cond.same_self, no.same_self]
  | .lambda _ body _ => by simp [Expr.same, body.same_self]
  | .comprehension element clauses _ => by
      simp [Expr.same, element.same_self, sameClauses_self clauses]

theorem sameAll_self : ∀ items : List Expr, sameAll items items = true
  | [] => rfl
  | e :: rest => by simp [sameAll, e.same_self, sameAll_self rest]

theorem sameEntries_self : ∀ entries : List (Expr × Expr), sameEntries entries entries = true
  | [] => rfl
  | (key, value) :: rest => by
      simp [sameEntries, key.same_self, value.same_self, sameEntries_self rest]

theorem sameClauses_self : ∀ clauses : List Clause, sameClauses clauses clauses = true
  | [] => rfl
  | .mk _ source conditions :: rest => by
      simp [sameClauses, source.same_self, sameAll_self conditions, sameClauses_self rest]

end

instance : DecidableEq Expr := fun e e' =>
  decidable_of_iff (e.same e' = true) ⟨Expr.eq_of_same, fun h => h ▸ e.same_self⟩

deriving instance DecidableEq for Expr.Argument

/-- An expression is compiled from the tree that its text is read as. -/
theorem Expression.compile?_of_read? {source : List Char} {e : Expr}
    (h : read? source = .ok e) : compile? source = .ok (ofExpr (trim source) e) := by
  unfold compile?
  rw [h]
  rfl

end Stencil
