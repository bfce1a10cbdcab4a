/-
What an expression reads of its context: the free names that it reports, and nothing else.
Evaluations in contexts that agree on them are alike, and at every place of the expression the
only names that can be missing are free names that the context has nothing for.
-/
import Stencil.Proofs.Eval.Limit
import Stencil.Proofs.Eval.Native
import Stencil.Proofs.Scope.Agreement
import Stencil.Proofs.Scope.Undefined

namespace Stencil

/-! The expressions that an expression is made of, with the names in scope at their places. -/

def partsOfClauses (scope : List String) : List Clause → List (List String × Expr)
  | [] => []
  | .mk targets source conditions :: rest =>
      (scope, source) :: conditions.map ((scope ++ targets, ·))
        ++ partsOfClauses (scope ++ targets) rest

/-- The direct parts of an expression. -/
def Expr.parts (scope : List String) : Expr → List (List String × Expr)
  | .literal .. | .ident .. => []
  | .list items _ => items.map ((scope, ·))
  | .dict entries _ => entries.flatMap fun entry => [(scope, entry.1), (scope, entry.2)]
  | .member value _ _ => [(scope, value)]
  | .index value position _ => [(scope, value), (scope, position)]
  | .call callee args _ => (scope, callee) :: args.map ((scope, ·))
  | .unary _ operand _ => [(scope, operand)]
  | .binary _ lhs rhs _ | .and lhs rhs _ | .or lhs rhs _ => [(scope, lhs), (scope, rhs)]
  | .conditional yes cond no _ => [(scope, yes), (scope, cond), (scope, no)]
  | .lambda params body _ => [(scope ++ params, body)]
  | .comprehension element clauses _ =>
      partsOfClauses scope clauses ++ [(clauseScope scope clauses, element)]

/-- The parts of an expression, their parts, and so on. -/
inductive Expr.Within (whole : Expr) : (scope : List String) → Expr → Prop where
  | whole : Within whole [] whole
  | part {scope inner : List String} {e part : Expr} :
      Within whole scope e → (inner, part) ∈ e.parts scope → Within whole inner part

/-- The name that the expression is. -/
def Expr.name? : Expr → Option String
  | .ident name _ => some name
  | _ => none

section Globals

variable {scope : List String}

theorem globalsOfAll_eq_flatMap (items : List Expr) :
    globalsOfAll (codesOfExprs scope items) =
      items.flatMap fun e => (Code.ofExpr scope e).globals := by
  induction items with
  | nil => rfl
  | cons e rest ih => rw [codesOfExprs, globalsOfAll, ih, List.flatMap_cons]

theorem globalsOfEntries_eq_flatMap (entries : List (Expr × Expr)) :
    globalsOfEntries (codesOfEntries scope entries) =
      entries.flatMap fun entry =>
        (Code.ofExpr scope entry.1).globals ++ (Code.ofExpr scope entry.2).globals := by
  induction entries with
  | nil => rfl
  | cons entry rest ih => rw [codesOfEntries, globalsOfEntries, ih, List.flatMap_cons]

theorem globalsOfClauses_eq_flatMap (scope : List String) (clauses : List Clause) :
    globalsOfClauses (codesOfClauses scope clauses) =
      (partsOfClauses scope clauses).flatMap fun part => (Code.ofExpr part.1 part.2).globals := by
  induction clauses generalizing scope with
  | nil => rfl
  | cons clause rest ih =>
      obtain ⟨targets, source, conditions⟩ := clause
      rw [codesOfClauses, globalsOfClauses, ih, globalsOfAll_eq_flatMap, partsOfClauses,
        List.flatMap_append, List.flatMap_cons, List.flatMap_map]

/-- An expression that is no name looks up what its parts look up, in their order. -/
theorem globals_eq_flatMap {e : Expr} (h : e.name? = none) :
    (Code.ofExpr scope e).globals =
      (e.parts scope).flatMap fun part => (Code.ofExpr part.1 part.2).globals := by
  cases e with
  | ident => cases h
  | literal => rfl
  | list items =>
      rw [Code.ofExpr, Code.globals, globalsOfAll_eq_flatMap, Expr.parts, List.flatMap_map]
  | dict entries =>
      rw [Code.ofExpr, Code.globals, globalsOfEntries_eq_flatMap, Expr.parts, List.flatMap_assoc]
      simp only [List.flatMap_cons, List.flatMap_nil, List.append_nil]
  | call callee args =>
      rw [Code.ofExpr, Code.globals, globalsOfAll_eq_flatMap, Expr.parts, List.flatMap_cons,
        List.flatMap_map]
  | comprehension element clauses =>
      rw [Code.ofExpr, Code.globals, globalsOfClauses_eq_flatMap, Expr.parts, List.flatMap_append,
        List.flatMap_singleton]
  | _ => simp only [Code.ofExpr, Code.globals, Expr.parts, List.flatMap_cons, List.flatMap_nil,
      List.append_nil, List.append_assoc]

/-- A part looks up no names that the whole does not. -/
theorem globals_subset_of_mem_parts {e part : Expr} {inner : List String}
    (h : (inner, part) ∈ e.parts scope) :
    (Code.ofExpr inner part).globals ⊆ (Code.ofExpr scope e).globals := by
  intro name hname
  cases hname? : e.name? with
  | none =>
      rw [globals_eq_flatMap hname?, List.mem_flatMap]
      exact ⟨_, h, hname⟩
  | some own =>
      cases e with
      | ident => cases h
      | _ => cases hname?

/-- Whatever an expression looks up, in any of its parts, is among its free names. -/
theorem Expr.Within.globals_subset {whole e : Expr} (h : whole.Within scope e)
    (source : List Char) :
    (Code.ofExpr scope e).globals ⊆ (Expression.ofExpr source whole).freeNames := by
  induction h with
  | whole => exact fun name hname => List.mem_eraseDups.mpr hname
  | part _ hpart ih => exact fun name hname => ih (globals_subset_of_mem_parts hpart hname)

end Globals

/-! Errors that code raises itself. -/

/-- The calls, with every failure of a call turned into the end of the evaluation. -/
def Call.hushed (call : Call) : Call := fun f args serial =>
  match call f args serial with
  | .ok result => .ok result
  | .error _ => .error .callLimit

/-- Code fails with an error, and not because a call that it makes has failed. -/
def Code.Raises (call : Call) (env : Env) (code : Code) (serial : Nat) (e : EvalError) : Prop :=
  code.eval call env serial = .error (.error e) ∧
    code.eval call.hushed env serial = .error (.error e)

theorem Call.hushed_wantsOnly (call : Call) (P : String → Prop) (f : Value) (args : List Value) :
    (call.hushed f args).WantsOnly P := by
  intro serial name h
  unfold Call.hushed at h
  split at h <;> cases h

theorem Expr.Within.missing_of_raises {whole e : Expr} {scope : List String} {env : Env}
    (h : whole.Within scope e) (source : List Char) (hslots : env.slots.length = scope.length)
    {call : Call} {serial : Nat} {name : String}
    (hraises : (Code.ofExpr scope e).Raises call env serial (.undefined name)) :
    Missing (Expression.ofExpr source whole).freeNames env.context name :=
  -- Hushed calls fail without an error, so that the error is one of the code itself.
  wantsOnly_ofExpr (call.hushed_wantsOnly _) e rfl hslots (h.globals_subset source) serial name
    hraises.2

/-- A function called later runs its body with the arguments in the slots behind those of the
place that made it. -/
theorem Host.apply_close (host : Host Code) (env : Env) (arity : Nat) (body : Code)
    (serial : Nat) :
    ∃ f, env.close arity body serial = .ok (f, serial + 1) ∧
      ∀ {args : List Value}, args.length = arity → ∀ limit,
        host.apply (limit + 1) f args = body.eval (host.apply limit) (env.fill args) := by
  refine ⟨_, rfl, fun hlength limit => ?_⟩
  simp only [Host.apply, hlength, if_true, Env.fill]

/-- An expression depends on the context through its free names alone.  In contexts that agree
on them its evaluations halt for the same reason or give values that are alike, with one text.
Wherever the expression evaluates a part of itself, in a function called later too, a name
that this finds undefined is a free name that is not bound in the context. -/
theorem evaluate_depends_on_freeNames {host : Host Code} (hhost : Host.Like sameCode host host)
    (source : List Char) (e : Expr) (helpers : Helpers Code) {context context' : Context Code}
    (hagree : ∀ name ∈ (Expression.ofExpr source e).freeNames,
      context.find? name = context'.find? name) :
    (∀ callLimit, Eval.Same (fun v v' => Val.Like sameCode v v' ∧ v.text = v'.text)
      ((Expression.ofExpr source e).evaluate (host.limited callLimit) context helpers)
      ((Expression.ofExpr source e).evaluate (host.limited callLimit) context' helpers)) ∧
    ∀ {scope part}, e.Within scope part →
      ∀ {env : Env}, env.context = context → env.slots.length = scope.length →
        (∀ {call : Call} {serial name},
          (Code.ofExpr scope part).Raises call env serial (.undefined name) →
            name ∈ (Expression.ofExpr source e).freeNames ∧ context.find? name = none) ∧
        ∀ {params body range}, part = .lambda params body range →
          ∀ (call : Call) (serial : Nat), ∃ f,
            (Code.ofExpr scope part).eval call env serial = .ok (f, serial + 1) ∧
            ∀ {args : List Value}, args.length = params.length → ∀ limit,
              host.apply (limit + 1) f args =
                (Code.ofExpr (scope ++ params) body).eval (host.apply limit)
                  (env.fill args) := by
  constructor
  · intro callLimit
    have hreads : (Code.ofExpr [] e).globals ⊆ (Expression.ofExpr source e).freeNames :=
      Expr.Within.whole.globals_subset source
    have henv : Env.AgreeOn (Expression.ofExpr source e).freeNames ⟨context, helpers, []⟩
        ⟨context', helpers, []⟩ :=
      ⟨fun name hname => Context.sameCode_of_eq (hagree name hname),
        Val.sameCode_selfEntries helpers, .nil⟩
    have hsame := Code.eval_agree (Host.apply_agree (hhost.limited callLimit) callLimit)
      (Code.ofExpr [] e) hreads henv
    exact hsame.mono fun hlike => ⟨hlike, hlike.text_eq⟩
  · intro scope part hwithin env hcontext hslots
    subst hcontext
    refine ⟨fun hraises => hwithin.missing_of_raises source hslots hraises, ?_⟩
    rintro params body range rfl call serial
    simp only [Code.ofExpr, Code.eval]
    exact host.apply_close env params.length _ serial

namespace ShadowingWitness

/-- `x + y + z` -/
def body : Expr :=
  .binary .add (.binary .add (.ident "x" {}) (.ident "y" {}) {}) (.ident "z" {}) {}

/-- `[lambda z: x + y + z for x in items]`: functions that remember the whole context, of which
`x` and `z` are never looked up. -/
def functions : Expr :=
  .comprehension (.lambda ["z"] body {}) [.mk ["x"] (.ident "items" {}) []] {}

theorem freeNames_functions : (Expression.ofExpr [] functions).freeNames = ["items", "y"] := by
  decide

/-- Contexts that differ in a name that the expression binds itself; none of them has `y`. -/
def context (x : Value) : Context Code :=
  ⟨[("x", x), ("items", .array [.string "a", .string "b"])]⟩

theorem context_agree (name : String)
    (h : name ∈ (Expression.ofExpr [] functions).freeNames) (x x' : Value) :
    (context x).find? name = (context x').find? name := by
  rw [freeNames_functions] at h
  have hname : name = "items" ∨ name = "y" := by simpa using h
  rcases hname with rfl | rfl
  · rfl
  · rfl

theorem body_within_functions : functions.Within ["x", "z"] body :=
  have hfunction : functions.Within ["x"] (.lambda ["z"] body {}) :=
    .part .whole (by simp [functions, Expr.parts, partsOfClauses, clauseScope])
  .part hfunction (by simp [Expr.parts])

/-- The slots of the body: `x` and `z` are filled. -/
def bodyEnv : Env := ⟨context .none, [], [.string "a", .string "b"]⟩

theorem evaluate_functions_depends_on_freeNames :
    Host.Like sameCode (Native.host 4) (Native.host 4) ∧
      (∀ name ∈ (Expression.ofExpr [] functions).freeNames,
        (context .none).find? name = (context (.bool true)).find? name) ∧
      (∀ callLimit, Eval.Same (fun v v' => Val.Like sameCode v v' ∧ v.text = v'.text)
        ((Expression.ofExpr [] functions).evaluate ((Native.host 4).limited callLimit)
          (context .none) [])
        ((Expression.ofExpr [] functions).evaluate ((Native.host 4).limited callLimit)
          (context (.bool true)) [])) ∧
      (Code.ofExpr ["x", "z"] body).Raises ((Native.host 4).apply 4) bodyEnv 0
        (.undefined "y") ∧
      "y" ∈ (Expression.ofExpr [] functions).freeNames ∧ (context .none).find? "y" = none := by
  have hagree := fun name h => context_agree name h .none (.bool true)
  obtain ⟨hsame, hparts⟩ :=
    evaluate_depends_on_freeNames (Native.host_like 4) [] functions [] hagree
  have hraises : (Code.ofExpr ["x", "z"] body).Raises ((Native.host 4).apply 4) bodyEnv 0
      (.undefined "y") := ⟨rfl, rfl⟩
  exact ⟨Native.host_like 4, hagree, hsame, hraises,
    (hparts body_within_functions rfl rfl).1 hraises⟩

end ShadowingWitness

end Stencil
