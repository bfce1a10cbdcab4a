/-
Evaluations that run alike: from every serial number they halt for the same reason, or give
values that are alike and leave the same serial number.  The rules follow the steps that
evaluations are made of.
-/
import Stencil.Eval.Host
import Stencil.Proofs.Value.Operations

namespace Stencil

variable {α β γ δ κ κ' : Type}

/-- Two evaluations that halt for the same reason or give related results, with the same
serial number after them. -/
def Eval.Same (R : α → β → Prop) (x : Eval α) (y : Eval β) : Prop :=
  ∀ serial, SameResult (fun a b => R a.1 b.1 ∧ a.2 = b.2) (x serial) (y serial)

namespace Eval.Same

theorem pure {R : α → β → Prop} {a : α} {b : β} (h : R a b) :
    Same R (Pure.pure a : Eval α) (Pure.pure b : Eval β) :=
  fun _ => .ok ⟨h, rfl⟩

theorem throw {R : α → β → Prop} (halt : Halt) :
    Same R (throwThe Halt halt : Eval α) (throwThe Halt halt : Eval β) :=
  fun _ => .error halt

theorem bind {R : α → β → Prop} {S : γ → δ → Prop} {x : Eval α} {y : Eval β}
    {f : α → Eval γ} {g : β → Eval δ} (h : Same R x y)
    (hfg : ∀ a b, R a b → Same S (f a) (g b)) : Same S (x >>= f) (y >>= g) := by
  intro serial
  change SameResult _ ((x serial).bind fun r => f r.1 r.2) ((y serial).bind fun r => g r.1 r.2)
  have hxy := h serial
  generalize x serial = p, y serial = q at hxy
  cases hxy with
  | error e => exact .error e
  | @ok a b hab =>
      obtain ⟨hvalue, hserial⟩ := hab
      change SameResult _ (f a.1 a.2) (g b.1 b.2)
      rw [← hserial]
      exact hfg a.1 b.1 hvalue a.2

theorem mono {R S : α → β → Prop} {x : Eval α} {y : Eval β} (h : Same R x y)
    (hRS : ∀ {a b}, R a b → S a b) : Same S x y := by
  intro serial
  have hxy := h serial
  generalize x serial = p, y serial = q at hxy
  cases hxy with
  | error e => exact .error e
  | ok hab => exact .ok ⟨hRS hab.1, hab.2⟩

theorem ofResult {R : α → β → Prop} {x : Except EvalError α} {y : Except EvalError β}
    (h : SameResult R x y) : Same R (Eval.ofResult x) (Eval.ofResult y) := by
  cases h with
  | ok hab => exact .pure hab
  | error e => exact .throw (.error e)

theorem mapM {R : α → β → Prop} {S : γ → δ → Prop} {f : α → Eval γ} {g : β → Eval δ}
    {as : List α} {bs : List β} (h : List.Forall₂ R as bs)
    (hfg : ∀ a b, R a b → Same S (f a) (g b)) :
    Same (List.Forall₂ S) (as.mapM f) (bs.mapM g) := by
  induction h with
  | nil => exact .pure .nil
  | cons hhead _ ih =>
      rw [List.mapM_cons, List.mapM_cons]
      exact (hfg _ _ hhead).bind fun _ _ hvalue => ih.bind fun _ _ hvalues =>
        .pure (.cons hvalue hvalues)

end Eval.Same

/-- Ways to call values that are alike. -/
def SameCall (L : Likeness κ κ') (call : Val κ → List (Val κ) → Eval (Val κ))
    (call' : Val κ' → List (Val κ') → Eval (Val κ')) : Prop :=
  ∀ {f f' args args'}, Val.Like L f f' → Val.LikeAll L args args' →
    Eval.Same (Val.Like L) (call f args) (call' f' args')

/-- Replies that ask for calls that are alike, in the same order, and give results that are
alike. -/
inductive Reply.Like (L : Likeness κ κ') : Reply κ → Reply κ' → Prop where
  | give {result : Val.Result κ} {result' : Val.Result κ'} :
      Val.LikeResult L result result' → Like L (.give result) (.give result')
  | call {f : Val κ} {f' : Val κ'} {args : List (Val κ)} {args' : List (Val κ')}
      {resume : Val.Result κ → Reply κ} {resume' : Val.Result κ' → Reply κ'} :
      Val.Like L f f' → Val.LikeAll L args args' →
        (∀ answer answer', Val.LikeResult L answer answer' →
          Like L (resume answer) (resume' answer')) →
        Like L (.call f args resume) (.call f' args' resume')

theorem Reply.Like.run {L : Likeness κ κ'} {call : Val κ → List (Val κ) → Eval (Val κ)}
    {call' : Val κ' → List (Val κ') → Eval (Val κ')} (hcall : SameCall L call call')
    {reply : Reply κ} {reply' : Reply κ'} (h : Reply.Like L reply reply') :
    Eval.Same (Val.Like L) (reply.run call) (reply'.run call') := by
  induction h with
  | give hresult => exact .ofResult hresult
  | @call f f' args args' _ _ hf hargs _ ih =>
      intro serial
      unfold Reply.run
      have hanswer := hcall hf hargs serial
      generalize call f args serial = p, call' f' args' serial = q at hanswer
      cases hanswer with
      | error halt =>
          cases halt with
          | error e => exact ih _ _ (.error e) serial
          | callLimit => exact .error _
      | @ok a b hab =>
          obtain ⟨value, serial₁⟩ := a
          obtain ⟨value', serial₂⟩ := b
          obtain ⟨hvalue, rfl⟩ := hab
          exact ih _ _ (.ok hvalue) serial₁

/-- Hosts whose native functions treat functions as opaque: alike arguments get alike replies.
Calls are bounded alike. -/
structure Host.Like (L : Likeness κ κ') (host : Host κ) (host' : Host κ') : Prop where
  native {name : String} {args : List (Val κ)} {args' : List (Val κ')} :
    Val.LikeAll L args args' → Reply.Like L (host.native name args) (host'.native name args')
  callLimit : host.callLimit = host'.callLimit

end Stencil
