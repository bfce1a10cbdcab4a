/-
Evaluations that end.  A bound on calls stands in for the stack; an evaluation ends if from
some bound on its outcome is the same value or error.  The rules follow the steps that
evaluations are made of.
-/
import Stencil.Eval.Host

namespace Stencil

variable {α β : Type}

/-- The outcome of an evaluation that has ended: an error, or a value of which `P` holds. -/
inductive Ended (P : α → Prop) : Except Halt (α × Nat) → Prop where
  | value {a : α} (serial : Nat) : P a → Ended P (.ok (a, serial))
  | error (e : EvalError) : Ended P (.error (.error e))

/-- With enough calls the evaluation ends, and with more calls it ends in the same way. -/
def Eval.Settles (P : α → Prop) (run : (callLimit : Nat) → Eval α) : Prop :=
  ∀ serial, ∃ enough outcome, Ended P outcome ∧
    ∀ callLimit, enough ≤ callLimit → run callLimit serial = outcome

namespace Eval.Settles

variable {P : α → Prop} {Q : β → Prop} {run : Nat → Eval α}

theorem pure {a : α} (h : P a) : Settles P fun _ => (Pure.pure a : Eval α) :=
  fun serial => ⟨0, _, .value serial h, fun _ _ => rfl⟩

theorem throw (e : EvalError) : Settles P fun _ => (throwThe Halt (.error e) : Eval α) :=
  fun _ => ⟨0, _, .error e, fun _ _ => rfl⟩

theorem ofResult {result : Except EvalError α} (h : ∀ a, result = .ok a → P a) :
    Settles P fun _ => Eval.ofResult result := by
  cases result with
  | ok a => exact .pure (h a rfl)
  | error e => exact .throw e

/-- The bound that is enough for both steps is enough for one after the other. -/
theorem bind {f : Nat → α → Eval β} (h : Settles P run)
    (hf : ∀ a, P a → Settles Q fun callLimit => f callLimit a) :
    Settles Q fun callLimit => run callLimit >>= f callLimit := by
  intro serial
  obtain ⟨enough, outcome, hended, hrun⟩ := h serial
  have hbind : ∀ callLimit, enough ≤ callLimit →
      (run callLimit >>= f callLimit) serial = outcome.bind fun r => f callLimit r.1 r.2 := by
    intro callLimit hle
    rw [← hrun callLimit hle]
    rfl
  cases hended with
  | error e => exact ⟨enough, _, .error e, hbind⟩
  | @value a next ha =>
      obtain ⟨enough', outcome, hended, hrest⟩ := hf a ha next
      refine ⟨max enough enough', outcome, hended, fun callLimit hle => ?_⟩
      have hfirst := hbind callLimit (Nat.le_trans (Nat.le_max_left ..) hle)
      exact hfirst.trans (hrest callLimit (Nat.le_trans (Nat.le_max_right ..) hle))

theorem mapM {f : Nat → α → Eval β} {items : List α}
    (hf : ∀ a ∈ items, Settles Q fun callLimit => f callLimit a) :
    Settles (fun bs => ∀ b ∈ bs, Q b) fun callLimit => items.mapM (f callLimit) := by
  induction items with
  | nil => exact .pure (by simp)
  | cons a rest ih =>
      simp only [List.mapM_cons]
      have hrest := ih fun b hb => hf b (List.mem_cons_of_mem a hb)
      refine (hf a List.mem_cons_self).bind fun b hb => hrest.bind fun bs hbs => .pure ?_
      exact List.forall_mem_cons.mpr ⟨hb, hbs⟩

/-- What one call more is spent on. -/
theorem succ {run' : Nat → Eval α} (h : Settles P run)
    (hsucc : ∀ callLimit, run' (callLimit + 1) = run callLimit) : Settles P run' := by
  intro serial
  obtain ⟨enough, outcome, hended, hrun⟩ := h serial
  refine ⟨enough + 1, outcome, hended, fun callLimit hle => ?_⟩
  obtain ⟨limit, rfl⟩ := Nat.exists_eq_add_of_le' hle
  rw [← Nat.add_assoc, hsucc]
  exact hrun _ (by omega)

end Eval.Settles

end Stencil
