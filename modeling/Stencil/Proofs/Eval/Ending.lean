/-
Which expressions end.  Only calls inside functions can keep an evaluation from ending: a
function can be handed to itself, and nothing counts how deep it calls itself.
-/
import Stencil.Expression
import Stencil.Proofs.Eval.Growth
import Stencil.Proofs.Eval.Native
import Stencil.Proofs.Expr.Equality
import Stencil.Proofs.Scope.Agreement

namespace Stencil

mutual

/-- No function that the code makes holds a call.  Whether the code holds calls outside the
functions is told by `calls`. -/
def Code.tame (calls : Bool) : Code → Bool
  | .literal _ | .slot .. | .helpers | .global _ => true
  | .list items => tameAll calls items
  | .dict entries => tameEntries calls entries
  | .member value _ => value.tame calls
  | .index value position => value.tame calls && position.tame calls
  | .call callee args => calls && (callee.tame calls && tameAll calls args)
  | .unary _ operand => operand.tame calls
  | .binary _ lhs rhs | .and lhs rhs | .or lhs rhs => lhs.tame calls && rhs.tame calls
  | .conditional yes cond no => yes.tame calls && (cond.tame calls && no.tame calls)
  | .lambda _ body => body.tame false
  | .comprehension element clauses => tameClauses calls clauses && element.tame calls

def tameAll (calls : Bool) : List Code → Bool
  | [] => true
  | code :: rest => code.tame calls && tameAll calls rest

def tameEntries (calls : Bool) : List (Code × Code) → Bool
  | [] => true
  | (key, value) :: rest => key.tame calls && (value.tame calls && tameEntries calls rest)

def tameClauses (calls : Bool) : List CodeClause → Bool
  | [] => true
  | .mk _ source conditions :: rest =>
      source.tame calls && (tameAll calls conditions && tameClauses calls rest)

end

/-- Functions of one body, which holds no call. -/
def tameBodies : Likeness Code Code where
  bodies _ _ body body' := body = body' ∧ body.tame false
  reads _ _ := True

/-- No function in the value holds a call, and none in what its functions remember. -/
abbrev Val.Tame (v : Value) : Prop := Val.Like tameBodies v v

/-- Everything that code can read is tame. -/
abbrev Env.Tame (env : Env) : Prop := env.Like tameBodies (fun _ => True) env

theorem SameResult.ok_self {α ε : Type} {R : α → α → Prop} {result : Except ε α}
    (h : SameResult R result result) {a : α} (ha : result = .ok a) : R a a := by
  rw [ha] at h
  cases h with
  | ok hab => exact hab

section Runs

/-- If code may call, then calling tame values with tame values ends. -/
def CallsSettle (calls : Bool) (call : Nat → Call) : Prop :=
  calls → ∀ {f : Value} {args : List Value}, f.Tame → Val.LikeAll tameBodies args args →
    Eval.Settles Val.Tame fun callLimit => call callLimit f args

variable {calls : Bool} {call : Nat → Call}

mutual

/-- One step for every form of code: it ends if its parts and the calls that it makes end. -/
theorem Code.eval_settles (hcall : CallsSettle calls call) :
    (code : Code) → code.tame calls → {env : Env} → env.Tame →
      Eval.Settles Val.Tame fun callLimit => code.eval (call callLimit) env
  | .literal value, _, _, _ => by
      simp only [Code.eval]
      exact .pure (.ofLiteral value)
  | .slot index name, _, _, h => by
      simp only [Code.eval]
      exact .ofResult fun _ => (h.slot index name).ok_self
  | .helpers, _, _, h => by
      simp only [Code.eval]
      exact .pure (.dict h.helpers)
  | .global name, _, _, h => by
      simp only [Code.eval]
      exact .ofResult fun _ => (h.global trivial).ok_self
  | .list items, ht, _, h => by
      rw [Code.tame] at ht
      simp only [Code.eval]
      exact (evalAll_settles hcall items ht h).bind fun _ hvalues => .pure (.array hvalues)
  | .dict entries, ht, _, h => by
      rw [Code.tame] at ht
      simp only [Code.eval]
      exact (evalEntries_settles hcall entries ht h).bind fun _ hentries =>
        .pure (.ofEntries hentries)
  | .member value name, ht, _, h => by
      rw [Code.tame] at ht
      simp only [Code.eval]
      exact (Code.eval_settles hcall value ht h).bind fun _ hvalue =>
        .ofResult fun _ => (hvalue.member name).ok_self
  | .index value position, ht, _, h => by
      rw [Code.tame, Bool.and_eq_true] at ht
      simp only [Code.eval]
      exact (Code.eval_settles hcall value ht.1 h).bind fun _ hvalue =>
        (Code.eval_settles hcall position ht.2 h).bind fun _ hposition =>
          .ofResult fun _ => (hvalue.index hposition).ok_self
  | .call callee args, ht, _, h => by
      rw [Code.tame, Bool.and_eq_true, Bool.and_eq_true] at ht
      obtain ⟨hcalls, hcallee, hargs⟩ := ht
      simp only [Code.eval]
      exact (Code.eval_settles hcall callee hcallee h).bind fun _ hf =>
        (evalAll_settles hcall args hargs h).bind fun _ hvalues => hcall hcalls hf hvalues
  | .unary op operand, ht, _, h => by
      rw [Code.tame] at ht
      simp only [Code.eval]
      exact (Code.eval_settles hcall operand ht h).bind fun _ hoperand =>
        .ofResult fun _ => (hoperand.applyUnary op).ok_self
  | .binary op lhs rhs, ht, _, h => by
      rw [Code.tame, Bool.and_eq_true] at ht
      simp only [Code.eval]
      exact (Code.eval_settles hcall lhs ht.1 h).bind fun _ hlhs =>
        (Code.eval_settles hcall rhs ht.2 h).bind fun _ hrhs =>
          .ofResult fun _ => (hlhs.applyBinary op hrhs).ok_self
  | .and lhs rhs, ht, _, h => by
      rw [Code.tame, Bool.and_eq_true] at ht
      simp only [Code.eval]
      refine (Code.eval_settles hcall lhs ht.1 h).bind fun _ hvalue => ?_
      split
      · exact Code.eval_settles hcall rhs ht.2 h
      · exact .pure hvalue
  | .or lhs rhs, ht, _, h => by
      rw [Code.tame, Bool.and_eq_true] at ht
      simp only [Code.eval]
      refine (Code.eval_settles hcall lhs ht.1 h).bind fun _ hvalue => ?_
      split
      · exact .pure hvalue
      · exact Code.eval_settles hcall rhs ht.2 h
  | .conditional yes cond no, ht, _, h => by
      rw [Code.tame, Bool.and_eq_true, Bool.and_eq_true] at ht
      obtain ⟨hyes, hcond, hno⟩ := ht
      simp only [Code.eval]
      refine (Code.eval_settles hcall cond hcond h).bind fun _ _ => ?_
      split
      · exact Code.eval_settles hcall yes hyes h
      · exact Code.eval_settles hcall no hno h
  | .lambda arity body, ht, _, h => by
      rw [Code.tame] at ht
      simp only [Code.eval]
      exact fun serial => ⟨0, _, .value (serial + 1)
        (h.close (fun _ => ⟨rfl, ht⟩) (fun _ _ => trivial) serial), fun _ _ => rfl⟩
  | .comprehension element clauses, ht, _, h => by
      rw [Code.tame, Bool.and_eq_true] at ht
      simp only [Code.eval]
      exact (evalClauses_settles hcall clauses ht.1 h
        fun hinner => Code.eval_settles hcall element ht.2 hinner).bind
          fun _ hvalues => .pure (.array hvalues)

theorem evalAll_settles (hcall : CallsSettle calls call) :
    (items : List Code) → tameAll calls items → {env : Env} → env.Tame →
      Eval.Settles (fun values => Val.LikeAll tameBodies values values)
        fun callLimit => evalAll (call callLimit) env items
  | [], _, _, _ => by
      simp only [evalAll]
      exact .pure .nil
  | code :: rest, ht, _, h => by
      rw [tameAll, Bool.and_eq_true] at ht
      simp only [evalAll]
      exact (Code.eval_settles hcall code ht.1 h).bind fun _ hvalue =>
        (evalAll_settles hcall rest ht.2 h).bind fun _ hvalues => .pure (.cons hvalue hvalues)

theorem evalEntries_settles (hcall : CallsSettle calls call) :
    (entries : List (Code × Code)) → tameEntries calls entries → {env : Env} → env.Tame →
      Eval.Settles (fun entries => Val.LikeEntries tameBodies entries entries)
        fun callLimit => evalEntries (call callLimit) env entries
  | [], _, _, _ => by
      simp only [evalEntries]
      exact .pure .nil
  | (key, value) :: rest, ht, _, h => by
      rw [tameEntries, Bool.and_eq_true, Bool.and_eq_true] at ht
      obtain ⟨hkey, hvalue, hrest⟩ := ht
      simp only [evalEntries]
      exact (Code.eval_settles hcall key hkey h).bind fun key _ =>
        (Code.eval_settles hcall value hvalue h).bind fun _ hvalue =>
          (evalEntries_settles hcall rest hrest h).bind fun _ hentries =>
            .pure (.cons (.mk key.text hvalue) hentries)

theorem evalConditions_settles (hcall : CallsSettle calls call) :
    (conditions : List Code) → tameAll calls conditions → {env : Env} → env.Tame →
      Eval.Settles (fun _ => True)
        fun callLimit => evalConditions (call callLimit) env conditions
  | [], _, _, _ => by
      simp only [evalConditions]
      exact .pure trivial
  | condition :: rest, ht, _, h => by
      rw [tameAll, Bool.and_eq_true] at ht
      simp only [evalConditions]
      refine (Code.eval_settles hcall condition ht.1 h).bind fun _ _ => ?_
      split
      · exact evalConditions_settles hcall rest ht.2 h
      · exact .pure trivial

theorem evalClauses_settles (hcall : CallsSettle calls call)
    {element : Nat → Env → Eval Value} :
    (clauses : List CodeClause) → tameClauses calls clauses → {env : Env} → env.Tame →
      (∀ {inner : Env}, inner.Tame →
        Eval.Settles Val.Tame fun callLimit => element callLimit inner) →
      Eval.Settles (fun values => Val.LikeAll tameBodies values values)
        fun callLimit => evalClauses (call callLimit) (element callLimit) env clauses
  | [], _, _, h, helement => by
      simp only [evalClauses]
      exact (helement h).bind fun _ hvalue => .pure (.cons hvalue .nil)
  | .mk arity source conditions :: rest, ht, env, h, helement => by
      rw [tameClauses, Bool.and_eq_true, Bool.and_eq_true] at ht
      obtain ⟨hsource, hconditions, hrest⟩ := ht
      simp only [evalClauses]
      refine (Code.eval_settles hcall source hsource h).bind fun v hv =>
        (Eval.Settles.ofResult fun _ => hv.items.ok_self).bind fun items hitems =>
          (Eval.Settles.mapM (Q := fun group => Val.LikeAll tameBodies group group)
            fun item hitem => ?_).bind
              fun groups hgroups => .pure (List.rel_flatten (List.forall₂_same.mpr hgroups))
      have hitem := List.forall₂_same.mp hitems item hitem
      refine (Eval.Settles.ofResult fun _ => (hitem.unpack arity).ok_self).bind ?_
      rintro values ⟨hvalues, -⟩
      have hinner := h.fill hvalues
      refine (evalConditions_settles hcall conditions hconditions hinner).bind fun held _ => ?_
      split
      · exact evalClauses_settles hcall rest hrest hinner helement
      · exact .pure .nil

end

end Runs

/-- Native functions end if what they are given is tame, and so is what they give then. -/
def Host.NativesEnd (host : Host Code) : Prop :=
  ∀ (name : String) (serial : Nat) {args : List Value}, Val.LikeAll tameBodies args args →
    Eval.Settles Val.Tame fun callLimit => host.apply callLimit (.native name serial) args

/-- Calling a tame value ends: the body of a function has nothing left to call. -/
theorem Host.apply_settles {host : Host Code} {f : Value} {args : List Value} (hf : f.Tame)
    (hargs : Val.LikeAll tameBodies args args)
    (hnative : ∀ name serial, f = .native name serial →
      Eval.Settles Val.Tame fun callLimit => host.apply callLimit f args) :
    Eval.Settles Val.Tame fun callLimit => host.apply callLimit f args := by
  cases hf with
  | native name serial => exact hnative name serial rfl
  | closure serial arity hbody hlocals hglobals hhelpers =>
      by_cases hlength : args.length = arity
      · have henv : Env.Tame ⟨⟨_⟩, _, _ ++ args⟩ :=
          ⟨fun name _ => hglobals name trivial, hhelpers, List.rel_append hlocals hargs⟩
        -- The body holds no call, so that it ends whatever calls would do.
        have hcalls : CallsSettle false host.apply := nofun
        have hends := Code.eval_settles hcalls _ hbody.2 henv
        refine hends.succ fun callLimit => ?_
        simp only [Host.apply, hlength, if_true]
      · refine (Eval.Settles.throw
          (.invalidArgumentCount Val.closureName arity args.length)).succ fun callLimit => ?_
        simp only [Host.apply, hlength, if_false]
        rfl
  | _ => exact (Eval.Settles.throw _).succ fun callLimit => rfl

/-- An expression whose functions hold no call ends, whatever it calls itself. -/
theorem Eval.Settles.evaluate {host : Host Code} (hhost : host.NativesEnd) {e : Expression}
    (he : e.code.tame true) {context : Context Code}
    (hcontext : ∀ name,
      Option.Rel (Val.Like tameBodies) (context.find? name) (context.find? name))
    {helpers : Helpers Code} (hhelpers : Val.LikeEntries tameBodies helpers helpers) :
    Eval.Settles Val.Tame fun callLimit =>
      e.evaluate (host.limited callLimit) context helpers := by
  simp only [Expression.evaluate, Host.eval, Host.apply_limited]
  have hcalls : CallsSettle true host.apply := by
    intro _ f args hf hargs
    refine Host.apply_settles hf hargs ?_
    rintro name serial rfl
    exact hhost name serial hargs
  exact Code.eval_settles hcalls e.code he ⟨fun name _ => hcontext name, hhelpers, .nil⟩

/-- If the native functions end, an evaluation comes to a value or an error that no greater
bound on calls changes, or no bound on calls is enough for it.  It does come to an end if the
functions of the expression, and of what it reads, hold no call, whatever the expression calls
outside its functions. -/
theorem evaluate_settles_or_runsForever {host : Host Code} (hhost : host.NativesEnd)
    (e : Expression) (context : Context Code) (helpers : Helpers Code) :
    (∀ serial,
      (∃ enough outcome, Ended (fun _ => True) outcome ∧ ∀ callLimit, enough ≤ callLimit →
        e.evaluate (host.limited callLimit) context helpers serial = outcome) ∨
      RunsForever fun callLimit =>
        e.evaluate (host.limited callLimit) context helpers serial) ∧
    (e.code.tame true →
      (∀ name, Option.Rel (Val.Like tameBodies) (context.find? name) (context.find? name)) →
      Val.LikeEntries tameBodies helpers helpers →
        Eval.Settles Val.Tame fun callLimit =>
          e.evaluate (host.limited callLimit) context helpers) :=
  ⟨fun serial => host.eval_settles_or_runsForever e.code ⟨context, helpers, []⟩ serial,
    fun he hcontext hhelpers => .evaluate hhost he hcontext hhelpers⟩

namespace Native

/-- Replies that give a result at once, or that of calling the first argument with the
others. -/
def GivesOrCalls (native : Native Code) : Prop :=
  ∀ args, (∃ result, native args = .give result) ∨
    ∃ f rest, args = f :: rest ∧ native args = .call f rest .give

theorem givesOrCalls_of_mem_named {name : String} {native : Native Code}
    (h : (name, native) ∈ named) : GivesOrCalls native := by
  intro args
  simp only [named, List.mem_cons, Prod.mk.injEq, List.not_mem_nil, or_false] at h
  rcases h with ⟨-, rfl⟩ | ⟨-, rfl⟩ | ⟨-, rfl⟩ | ⟨-, rfl⟩ | ⟨-, rfl⟩ | ⟨-, rfl⟩ | ⟨-, rfl⟩
  · left
    unfold upper
    split <;> exact ⟨_, rfl⟩
  · left
    unfold join
    split <;> exact ⟨_, rfl⟩
  · exact .inl ⟨_, rfl⟩
  · left
    cases args <;> exact ⟨_, rfl⟩
  · left
    cases args <;> exact ⟨_, rfl⟩
  · cases args with
    | nil => exact .inl ⟨_, rfl⟩
    | cons f rest =>
        by_cases hf : f.isFunction
        · exact .inr ⟨f, rest, rfl, by simp [call, hf]⟩
        · exact .inl ⟨_, by simp only [call, hf]; rfl⟩
  · exact .inl ⟨_, rfl⟩

theorem givesOrCalls_host (callLimit : Nat) (name : String) :
    GivesOrCalls ((host callLimit).native name) := by
  intro args
  simp only [host]
  cases hlookup : named.lookup name with
  | none => exact .inl ⟨_, rfl⟩
  | some native =>
      obtain ⟨before, after, hnamed, -⟩ := List.lookup_eq_some_iff.mp hlookup
      have hmem : (name, native) ∈ named := by simp [hnamed]
      exact givesOrCalls_of_mem_named hmem args

theorem run_call_give {call : Call} (f : Value) (args : List Value) :
    (Reply.call f args .give).run call = call f args := by
  funext serial
  unfold Reply.run
  cases call f args serial with
  | ok r => rfl
  | error halt => cases halt <;> rfl

theorem settles_of_give {host : Host Code} (h : Host.Like tameBodies host host) {name : String}
    {args : List Value} (hargs : Val.LikeAll tameBodies args args) (serial : Nat)
    {result : Val.Result Code} (hgive : host.native name args = .give result) :
    Eval.Settles Val.Tame fun callLimit => host.apply callLimit (.native name serial) args := by
  have hreply : Reply.Like tameBodies (host.native name args) (host.native name args) :=
    h.native hargs
  rw [hgive] at hreply
  cases hreply with
  | give hresult =>
      refine (Eval.Settles.ofResult fun _ => hresult.ok_self).succ fun callLimit => ?_
      simp only [Host.apply, hgive, Reply.run]

/-- The native functions of the library end: one that calls another hands it fewer
arguments. -/
theorem host_nativesEnd (callLimit : Nat) : (host callLimit).NativesEnd := by
  intro name serial args hargs
  induction args generalizing name serial with
  | nil =>
      rcases givesOrCalls_host callLimit name [] with ⟨result, hgive⟩ | ⟨f, rest, hnil, -⟩
      · exact settles_of_give (host_like callLimit) hargs serial hgive
      · cases hnil
  | cons f rest ih =>
      rcases givesOrCalls_host callLimit name (f :: rest) with ⟨result, hgive⟩ | ⟨_, _, h, hcall⟩
      · exact settles_of_give (host_like callLimit) hargs serial hgive
      · -- Only the rest of the arguments is handed on, and what is called may be native too.
        cases h
        rcases hargs with _ | ⟨hf, hrest⟩
        have hends : Eval.Settles Val.Tame fun limit => (host callLimit).apply limit f rest := by
          refine Host.apply_settles hf hrest ?_
          rintro name serial rfl
          exact ih name serial hrest
        refine hends.succ fun limit => ?_
        simp only [Host.apply, hcall, run_call_give]

end Native

namespace SelfApplication

/-- `[helpers.call(lambda x: lambda: x, i) for i in items]`: a function that holds no call,
called for every item through a native function. -/
def calling : Expr :=
  .comprehension
    (.call (.member (.ident "helpers" {}) "call" {})
      [.lambda ["x"] (.lambda [] (.ident "x" {}) {}) {}, .ident "i" {}] {})
    [.mk ["i"] (.ident "items" {}) []] {}

theorem evaluate_calling_settles :
    (Native.host 4).NativesEnd ∧ (Expression.ofExpr [] calling).code.tame true ∧
      Eval.Settles Val.Tame fun callLimit =>
        (Expression.ofExpr [] calling).evaluate ((Native.host 4).limited callLimit)
          ⟨[("items", .array [.none])]⟩ [("call", .native "call" 0)] := by
  have htame : (Expression.ofExpr [] calling).code.tame true := rfl
  have hitems : Val.LikeEntries tameBodies [("items", .array [.none])]
      [("items", .array [.none])] := .cons (.mk _ (.array (.cons .none .nil))) .nil
  exact ⟨Native.host_nativesEnd 4, htame,
    (evaluate_settles_or_runsForever (Native.host_nativesEnd 4) _ _ _).2 htame
      (fun name => Table.rel_find? name hitems) (.cons (.mk _ (.native "call" 0)) .nil)⟩

/-- A function that calls what it is given with itself for an argument. -/
def selfCaller (serial : Nat) : Value :=
  .closure serial 1 (.call (.slot 0 "f") [.slot 0 "f"]) [] [] []

theorem apply_selfCaller (host : Host Code) (limit first second serial : Nat) :
    host.apply limit (selfCaller first) [selfCaller second] serial = .error .callLimit := by
  induction limit generalizing first with
  | zero => rfl
  | succ limit ih => exact ih second

/-- The function, read from where its word begins. -/
def selfCallerExpr (column : Nat) (range : Range) : Expr :=
  .lambda ["f"]
    (.call (.ident "f" ⟨⟨1, column + 10⟩, ⟨1, column + 11⟩⟩)
      [.ident "f" ⟨⟨1, column + 12⟩, ⟨1, column + 13⟩⟩]
      ⟨⟨1, column + 10⟩, ⟨1, column + 14⟩⟩)
    range

theorem read?_selfApplication :
    Expression.read? "(lambda f: f(f))(lambda f: f(f))".toList =
      .ok (.call (selfCallerExpr 2 ⟨⟨1, 1⟩, ⟨1, 17⟩⟩) [selfCallerExpr 18 ⟨⟨1, 18⟩, ⟨1, 32⟩⟩]
        ⟨⟨1, 1⟩, ⟨1, 33⟩⟩) := by
  decide +kernel

/-- Applied to itself, the function never comes to an end. -/
theorem evaluate_selfCaller_runsForever :
    ∃ e, Expression.compile? "(lambda f: f(f))(lambda f: f(f))".toList = .ok e ∧
      (Native.host 4).NativesEnd ∧
      RunsForever fun callLimit => e.evaluate ((Native.host 4).limited callLimit) {} [] 0 := by
  refine ⟨_, Expression.compile?_of_read? read?_selfApplication, Native.host_nativesEnd 4,
    fun callLimit => ?_⟩
  exact apply_selfCaller ((Native.host 4).limited callLimit) callLimit 0 1 2

end SelfApplication

end Stencil
