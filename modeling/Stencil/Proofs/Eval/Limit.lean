/-
Bounds on the calls that may be open at once.  The bound is no part of what an expression
means: an evaluation that no bound is enough for runs for ever.
-/
import Stencil.Proofs.Eval.Same

namespace Stencil

/-- However many calls may be open at once, they are not enough. -/
def RunsForever {α : Type} (run : (callLimit : Nat) → Except Halt α) : Prop :=
  ∀ callLimit, run callLimit = .error .callLimit

/-- The host with another bound on calls. -/
def Host.limited {κ : Type} (host : Host κ) (callLimit : Nat) : Host κ := { host with callLimit }

theorem Host.Like.limited {κ κ' : Type} {L : Likeness κ κ'} {host : Host κ} {host' : Host κ'}
    (h : Host.Like L host host') (callLimit : Nat) :
    Host.Like L (host.limited callLimit) (host'.limited callLimit) :=
  ⟨h.native, rfl⟩

end Stencil
