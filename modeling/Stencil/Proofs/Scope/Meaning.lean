/-
Compiling to slots keeps the meaning of an expression: code and tree give the same value, fail
with the same error, or run for ever together, and so does every function they make, whenever
it is called.
-/
import Stencil.Expression
import Stencil.Proofs.Eval.Limit
import Stencil.Proofs.Eval.Native
import Stencil.Proofs.Scope.Simulation

namespace Stencil

theorem Eval.Same.error_iff {α β : Type} {R : α → β → Prop} {x : Eval α} {y : Eval β}
    (h : Eval.Same R x y) (serial : Nat) (halt : Halt) :
    x serial = .error halt ↔ y serial = .error halt := by
  have hxy := h serial
  generalize x serial = p, y serial = q at hxy
  cases hxy with
  | ok _ => simp
  | error e => simp

section Calls

variable {named : Named.Env} {env : Env}

/-- The body of a function runs alike in the environment that the function remembers. -/
theorem body_same {call : Named.Call} {call' : Call} (hcall : SameCall compiled call call')
    (h : named.Matches env) {params : List String} (body : Expr) {args : List Named.Value}
    {args' : List Value} (hlength : args.length = params.length)
    (hargs : Val.LikeAll compiled args args') :
    Eval.Same (Val.Like compiled) (Named.interpret call (named.bind params args) body)
      ((Code.ofExpr (named.scope ++ params) body).eval call' (env.fill args')) := by
  rw [← named.scope_bind hlength]
  exact interpret_same hcall body (h.bind hlength hargs)

/-- Functions that are alike run alike, with as many calls open inside them. -/
theorem apply_same {named : Host Lambda} {host : Host Code} (h : Host.Like compiled named host)
    (limit : Nat) : SameCall compiled (Named.apply named limit) (host.apply limit) := by
  induction limit with
  | zero => exact fun _ _ => .throw .callLimit
  | succ limit ih =>
      intro f f' args args' hf hargs
      cases hf with
      | native name serial => exact (h.native hargs).run ih
      | @closure serial arity lambda code locals locals' globals helpers globals' helpers' hbody
          hlocals hglobals hhelpers =>
          obtain ⟨hcaptured, harity, rfl⟩ := hbody
          simp only [Named.apply, Host.apply, hargs.length_eq]
          split
          · next hlength =>
              let remembered : Named.Env := ⟨⟨globals⟩, helpers, lambda.captured.zip locals⟩
              have hscope : remembered.scope = lambda.captured := List.map_fst_zip (by omega)
              have hmatches : remembered.Matches ⟨⟨globals'⟩, helpers', locals'⟩ := by
                refine ⟨fun name => hglobals name trivial, hhelpers, ?_⟩
                rwa [List.map_snd_zip (by omega)]
              have hbody := body_same ih hmatches lambda.body
                (hargs.length_eq.trans (hlength.trans harity.symm)) hargs
              rw [hscope] at hbody
              exact hbody
          · exact .throw _
      | _ => exact .throw _

/-- A function called later evaluates its body in the environment of the place that made it,
with its parameters bound innermost. -/
theorem apply_close (host : Host Lambda) (inner : Named.Env) (params : List String) (body : Expr)
    (serial : Nat) :
    ∃ f, inner.close params body serial = .ok (f, serial + 1) ∧
      ∀ {args : List Named.Value}, args.length = params.length → ∀ limit,
        Named.apply host (limit + 1) f args =
          Named.interpret (Named.apply host limit) (inner.bind params args) body := by
  refine ⟨_, rfl, fun hlength limit => ?_⟩
  have hzip : inner.scope.zip (inner.bindings.map Prod.snd) = inner.bindings := by
    simpa [Named.Env.scope, List.unzip_eq_map] using List.zip_unzip inner.bindings
  simp only [Named.apply, hlength, if_true, hzip]

/-- The function that code makes, called later, runs as the body of its text in the
environment of the place that made it. -/
theorem call_of_close {named : Host Lambda} {host : Host Code} {inner : Named.Env}
    (hhost : Host.Like compiled named host) (h : inner.Matches env) (call : Call)
    (params : List String) (body : Expr) (range : Range) (serial : Nat) :
    ∃ f, (Code.ofExpr inner.scope (.lambda params body range)).eval call env serial =
        .ok (f, serial + 1) ∧
      ∀ {args args'}, args.length = params.length → Val.LikeAll compiled args args' →
        ∀ limit, Eval.Same (Val.Like compiled)
          (Named.interpret (Named.apply named limit) (inner.bind params args) body)
          (host.apply (limit + 1) f args') := by
  obtain ⟨f, hf, hbody⟩ := apply_close named inner params body serial
  have hclose := close_same h params body serial
  rw [hf] at hclose
  refine ⟨_, rfl, fun hlength hargs limit => ?_⟩
  rw [← hbody hlength limit]
  cases hclose with
  | ok hvalue => exact apply_same hhost (limit + 1) hvalue.1 hargs

end Calls

/-- Code means what its tree means.  With any bound on calls, evaluating both halts for the
same reason or gives values that are alike; both run for ever or neither does.  A slot that
code reads is filled, with the innermost binding of its name.  Functions that are alike run
alike whenever they are called, and a function made anywhere evaluates its body with the
bindings, the context and the helpers of the place that made it. -/
theorem evaluate_means_interpret {named : Host Lambda} {host : Host Code}
    (hhost : Host.Like compiled named host) {context : Context Lambda} {context' : Context Code}
    (hcontext : ∀ name,
      Option.Rel (Val.Like compiled) (context.find? name) (context'.find? name))
    {helpers : Helpers Lambda} {helpers' : Helpers Code}
    (hhelpers : Val.LikeEntries compiled helpers helpers') (source : List Char) (e : Expr) :
    (∀ callLimit, Eval.Same (Val.Like compiled)
      (Named.eval (named.limited callLimit) e { context, helpers })
      ((Expression.ofExpr source e).evaluate (host.limited callLimit) context' helpers')) ∧
    (∀ serial,
      RunsForever (fun callLimit =>
        Named.eval (named.limited callLimit) e { context, helpers } serial) ↔
      RunsForever fun callLimit =>
        (Expression.ofExpr source e).evaluate (host.limited callLimit) context' helpers'
          serial) ∧
    (∀ {inner : Named.Env} {inner' : Env}, inner.Matches inner' →
      inner'.slots.length = inner.scope.length ∧
      ∀ {name i}, slot? name inner.scope = some i →
        ∃ value value', inner.bindings.reverse.lookup name = some value ∧
          inner'.slot i name = .ok value' ∧ Val.Like compiled value value') ∧
    (∀ limit, SameCall compiled (Named.apply named limit) (host.apply limit)) ∧
    (∀ {inner : Named.Env} {inner' : Env}, inner.Matches inner' →
      ∀ (call : Call) (params : List String) (body : Expr) (range : Range) (serial : Nat),
        ∃ f, (Code.ofExpr inner.scope (.lambda params body range)).eval call inner' serial =
            .ok (f, serial + 1) ∧
          ∀ {args args'}, args.length = params.length → Val.LikeAll compiled args args' →
            ∀ limit, Eval.Same (Val.Like compiled)
              (Named.interpret (Named.apply named limit) (inner.bind params args) body)
              (host.apply (limit + 1) f args')) := by
  have houtcome : ∀ callLimit, Eval.Same (Val.Like compiled)
      (Named.eval (named.limited callLimit) e { context, helpers })
      ((Expression.ofExpr source e).evaluate (host.limited callLimit) context' helpers') := by
    intro callLimit
    have hmatches : Named.Env.Matches { context, helpers } ⟨context', helpers', []⟩ :=
      ⟨hcontext, hhelpers, .nil⟩
    exact interpret_same (apply_same (hhost.limited callLimit) callLimit) e hmatches
  refine ⟨houtcome, ?_, ?_, apply_same hhost, call_of_close hhost⟩
  · intro serial
    exact forall_congr' fun callLimit => (houtcome callLimit).error_iff serial .callLimit
  · intro inner inner' hmatches
    refine ⟨hmatches.length_slots, fun hslot => ?_⟩
    obtain ⟨value, value', hlookup, hget, hvalue⟩ := hmatches.slot hslot
    exact ⟨value, value', hlookup, by simp only [Env.slot, hget], hvalue⟩

namespace CapturingWitness

/-- `[(lambda x: x + y)(x) for x in items]`: the parameter hides the target, and `y` is left to
the context. -/
def capturing : Expr :=
  let x : Expr := .ident "x" {}
  .comprehension (.call (.lambda ["x"] (.binary .add x (.ident "y" {}) {}) {}) [x] {})
    [.mk ["x"] (.ident "items" {}) []] {}

def context {κ : Type} : Context κ :=
  ⟨[("items", .array [.string "a", .string "b"]), ("y", .string "!")]⟩

theorem context_like (name : String) :
    Option.Rel (Val.Like compiled) (context.find? name) (context.find? name) :=
  Table.rel_find? name (.cons (.mk _ (.array (.cons (.string "a") (.cons (.string "b") .nil))))
    (.cons (.mk _ (.string "!")) .nil))

theorem evaluate_capturing_means_interpret :
    Host.Like compiled (Native.host 4) (Native.host 4) ∧
      (∀ name, Option.Rel (Val.Like compiled) (context.find? name) (context.find? name)) ∧
      Val.LikeEntries compiled [] [] ∧
      ∀ callLimit, Eval.Same (Val.Like compiled)
        (Named.eval ((Native.host 4).limited callLimit) capturing ⟨context, [], []⟩)
        ((Expression.ofExpr [] capturing).evaluate ((Native.host 4).limited callLimit) context
          []) :=
  ⟨Native.host_like 4, context_like, .nil,
    (evaluate_means_interpret (Native.host_like 4) context_like .nil [] capturing).1⟩

example : (((Expression.ofExpr [] capturing).evaluate (Native.host 4) context []).run 0).map
    (fun result => result.1.text) = .ok "[\"a!\", \"b!\"]" := by
  decide

end CapturingWitness

end Stencil
