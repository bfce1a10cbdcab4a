/-
What a greater bound on calls changes: nothing, unless the bound is reached.  Hence an
evaluation that comes to an end within some bound comes to the same end within every greater
one, and one that never does needs more calls than any bound allows.
-/
import Stencil.Expression
import Stencil.Proofs.Eval.Limit
import Stencil.Proofs.Eval.Settling

namespace Stencil

variable {α β : Type}

/-- The second evaluation ends as the first one does, unless that one runs out of calls. -/
def Eval.Below (x y : Eval α) : Prop :=
  ∀ serial, x serial = .error .callLimit ∨ x serial = y serial

namespace Eval.Below

theorem refl (x : Eval α) : x.Below x := fun _ => .inr rfl

theorem trans {x y z : Eval α} (h : x.Below y) (h' : y.Below z) : x.Below z := by
  intro serial
  rcases h serial with hlimit | heq
  · exact .inl hlimit
  · rw [heq]
    exact h' serial

theorem bind {x y : Eval α} {f g : α → Eval β} (h : x.Below y) (hfg : ∀ a, (f a).Below (g a)) :
    (x >>= f).Below (y >>= g) := by
  intro serial
  change (x serial).bind (fun r => f r.1 r.2) = _ ∨
    (x serial).bind (fun r => f r.1 r.2) = (y serial).bind fun r => g r.1 r.2
  rcases h serial with hlimit | heq
  · rw [hlimit]
    exact .inl rfl
  · rw [← heq]
    cases x serial with
    | error halt => exact .inr rfl
    | ok r => exact hfg r.1 r.2

theorem mapM {f g : α → Eval β} (hfg : ∀ a, (f a).Below (g a)) (items : List α) :
    (items.mapM f).Below (items.mapM g) := by
  induction items with
  | nil => exact .refl _
  | cons a rest ih =>
      rw [List.mapM_cons, List.mapM_cons]
      exact (hfg a).bind fun b => ih.bind fun bs => .refl _

theorem run {call call' : Call} (hcall : ∀ f args, (call f args).Below (call' f args))
    (reply : Reply Code) : (reply.run call).Below (reply.run call') := by
  induction reply with
  | give result => exact .refl _
  | call f args resume ih =>
      intro serial
      unfold Reply.run
      rcases hcall f args serial with hlimit | heq
      · rw [hlimit]
        exact .inl rfl
      · rw [← heq]
        cases call f args serial with
        | ok r => exact ih _ _
        | error halt =>
            cases halt with
            | error e => exact ih _ _
            | callLimit => exact .inl rfl

end Eval.Below

section Runs

variable {call call' : Call}

mutual

/-- One step for every form of code: only its calls can run out. -/
theorem Code.eval_below (hcall : ∀ f args, (call f args).Below (call' f args)) (env : Env) :
    (code : Code) → (code.eval call env).Below (code.eval call' env)
  | .literal _ | .slot .. | .helpers | .global _ | .lambda .. => by
      rw [Code.eval, Code.eval]
      exact .refl _
  | .list items => by
      rw [Code.eval, Code.eval]
      exact (evalAll_below hcall env items).bind fun _ => .refl _
  | .dict entries => by
      rw [Code.eval, Code.eval]
      exact (evalEntries_below hcall env entries).bind fun _ => .refl _
  | .member value _ => by
      rw [Code.eval, Code.eval]
      exact (Code.eval_below hcall env value).bind fun _ => .refl _
  | .index value position => by
      rw [Code.eval, Code.eval]
      exact (Code.eval_below hcall env value).bind fun _ =>
        (Code.eval_below hcall env position).bind fun _ => .refl _
  | .call callee args => by
      rw [Code.eval, Code.eval]
      exact (Code.eval_below hcall env callee).bind fun f =>
        (evalAll_below hcall env args).bind fun values => hcall f values
  | .unary _ operand => by
      rw [Code.eval, Code.eval]
      exact (Code.eval_below hcall env operand).bind fun _ => .refl _
  | .binary _ lhs rhs => by
      rw [Code.eval, Code.eval]
      exact (Code.eval_below hcall env lhs).bind fun _ =>
        (Code.eval_below hcall env rhs).bind fun _ => .refl _
  | .and lhs rhs => by
      rw [Code.eval, Code.eval]
      refine (Code.eval_below hcall env lhs).bind fun _ => ?_
      split
      · exact Code.eval_below hcall env rhs
      · exact .refl _
  | .or lhs rhs => by
      rw [Code.eval, Code.eval]
      refine (Code.eval_below hcall env lhs).bind fun _ => ?_
      split
      · exact .refl _
      · exact Code.eval_below hcall env rhs
  | .conditional yes cond no => by
      rw [Code.eval, Code.eval]
      refine (Code.eval_below hcall env cond).bind fun _ => ?_
      split
      · exact Code.eval_below hcall env yes
      · exact Code.eval_below hcall env no
  | .comprehension element clauses => by
      rw [Code.eval, Code.eval]
      exact (evalClauses_below hcall (fun env => Code.eval_below hcall env element) env
        clauses).bind fun _ => .refl _

theorem evalAll_below (hcall : ∀ f args, (call f args).Below (call' f args)) (env : Env) :
    (items : List Code) → (evalAll call env items).Below (evalAll call' env items)
  | [] => by
      rw [evalAll, evalAll]
      exact .refl _
  | code :: rest => by
      rw [evalAll, evalAll]
      exact (Code.eval_below hcall env code).bind fun _ =>
        (evalAll_below hcall env rest).bind fun _ => .refl _

theorem evalEntries_below (hcall : ∀ f args, (call f args).Below (call' f args)) (env : Env) :
    (entries : List (Code × Code)) →
      (evalEntries call env entries).Below (evalEntries call' env entries)
  | [] => by
      rw [evalEntries, evalEntries]
      exact .refl _
  | (key, value) :: rest => by
      rw [evalEntries, evalEntries]
      exact (Code.eval_below hcall env key).bind fun _ =>
        (Code.eval_below hcall env value).bind fun _ =>
          (evalEntries_below hcall env rest).bind fun _ => .refl _

theorem evalConditions_below (hcall : ∀ f args, (call f args).Below (call' f args)) (env : Env) :
    (conditions : List Code) →
      (evalConditions call env conditions).Below (evalConditions call' env conditions)
  | [] => by
      rw [evalConditions, evalConditions]
      exact .refl _
  | condition :: rest => by
      rw [evalConditions, evalConditions]
      refine (Code.eval_below hcall env condition).bind fun _ => ?_
      split
      · exact evalConditions_below hcall env rest
      · exact .refl _

theorem evalClauses_below (hcall : ∀ f args, (call f args).Below (call' f args))
    {element element' : Env → Eval Value} (helement : ∀ env, (element env).Below (element' env))
    (env : Env) :
    (clauses : List CodeClause) →
      (evalClauses call element env clauses).Below (evalClauses call' element' env clauses)
  | [] => by
      rw [evalClauses, evalClauses]
      exact (helement env).bind fun _ => .refl _
  | .mk arity source conditions :: rest => by
      rw [evalClauses, evalClauses]
      refine (Code.eval_below hcall env source).bind fun _ =>
        (Eval.Below.refl _).bind fun items =>
          (Eval.Below.mapM (fun item => ?_) items).bind fun _ => .refl _
      refine (Eval.Below.refl _).bind fun values => ?_
      refine (evalConditions_below hcall (env.fill values) conditions).bind fun _ => ?_
      split
      · exact evalClauses_below hcall helement (env.fill values) rest
      · exact .refl _

end

/-- With one call more, functions end as they did. -/
theorem Host.apply_below_succ (host : Host Code) (limit : Nat) (f : Value) (args : List Value) :
    (host.apply limit f args).Below (host.apply (limit + 1) f args) := by
  induction limit generalizing f args with
  | zero => exact fun _ => .inl rfl
  | succ limit ih =>
      cases f with
      | native name serial => exact .run ih (host.native name args)
      | closure serial arity body slots globals helpers =>
          simp only [Host.apply]
          split
          · exact body.eval_below ih _
          · exact .refl _
      | _ => exact .refl _

theorem Host.apply_below (host : Host Code) {limit limit' : Nat} (h : limit ≤ limit') (f : Value)
    (args : List Value) : (host.apply limit f args).Below (host.apply limit' f args) := by
  induction h with
  | refl => exact .refl _
  | step _ ih => exact ih.trans (host.apply_below_succ _ f args)

end Runs

theorem Host.apply_limited (host : Host Code) (callLimit limit : Nat) :
    (host.limited callLimit).apply limit = host.apply limit := by
  induction limit with
  | zero => rfl
  | succ limit ih =>
      funext f args
      simp only [Host.apply, ih]
      rfl

/-- An outcome other than running out of calls is the end of the evaluation. -/
theorem Ended.of_ne_callLimit {outcome : Except Halt (α × Nat)} (h : outcome ≠ .error .callLimit) :
    Ended (fun _ => True) outcome := by
  cases outcome with
  | ok r => exact .value r.2 trivial
  | error halt =>
      cases halt with
      | error e => exact .error e
      | callLimit => exact absurd rfl h

/-- The evaluation of code comes to an end that no greater bound changes, or no bound is
enough. -/
theorem Host.eval_settles_or_runsForever (host : Host Code) (code : Code) (env : Env)
    (serial : Nat) :
    (∃ enough outcome, Ended (fun _ => True) outcome ∧ ∀ callLimit, enough ≤ callLimit →
      (host.limited callLimit).eval code env serial = outcome) ∨
    RunsForever fun callLimit => (host.limited callLimit).eval code env serial := by
  simp only [Host.eval, Host.apply_limited]
  by_cases h : ∃ enough, code.eval (host.apply enough) env serial ≠ .error .callLimit
  · obtain ⟨enough, hends⟩ := h
    refine .inl ⟨enough, _, .of_ne_callLimit hends, fun callLimit hle => ?_⟩
    rcases code.eval_below (host.apply_below hle) env serial with hlimit | heq
    · exact absurd hlimit hends
    · exact heq.symm
  · exact .inr fun callLimit => not_not.mp fun hends => h ⟨callLimit, hends⟩

end Stencil
