/-
Where a name can be found missing.  Operations on values never fail for want of a name, and
the slots that compiled code reads are filled, so that its own evaluation, apart from the calls
that it makes, misses only names that it looks up in the context.
-/
import Stencil.Expression
import Stencil.Proofs.Scope.Simulation

namespace Stencil

variable {α β : Type}

/-- The evaluation fails for want of a name only if `P` holds of the name. -/
def Eval.WantsOnly (P : String → Prop) (x : Eval α) : Prop :=
  ∀ serial name, x serial = .error (.error (.undefined name)) → P name

namespace Eval.WantsOnly

variable {P : String → Prop}

theorem pure (a : α) : WantsOnly P (Pure.pure a : Eval α) := by
  intro serial name h
  cases h

theorem bind {x : Eval α} {f : α → Eval β} (hx : WantsOnly P x) (hf : ∀ a, WantsOnly P (f a)) :
    WantsOnly P (x >>= f) := by
  intro serial name h
  change (x serial).bind (fun r => f r.1 r.2) = _ at h
  cases hresult : x serial with
  | error halt =>
      rw [hresult] at h
      cases h
      exact hx serial name hresult
  | ok r =>
      rw [hresult] at h
      exact hf r.1 r.2 name h

/-- After a result, only what it can give has to be looked at. -/
theorem bindResult {r : Except EvalError α} {f : α → Eval β}
    (hr : ∀ name, r = .error (.undefined name) → P name) (hf : ∀ a, r = .ok a → WantsOnly P (f a)) :
    WantsOnly P (Eval.ofResult r >>= f) := by
  cases r with
  | error e =>
      intro serial name h
      cases h
      exact hr name rfl
  | ok a => exact hf a rfl

theorem ofResult {r : Except EvalError α} (hr : ∀ name, r = .error (.undefined name) → P name) :
    WantsOnly P (Eval.ofResult r) := by
  cases r with
  | error e =>
      intro serial name h
      cases h
      exact hr name rfl
  | ok a => exact .pure a

theorem mapM {f : α → Eval β} (hf : ∀ a, WantsOnly P (f a)) (items : List α) :
    WantsOnly P (items.mapM f) := by
  induction items with
  | nil => exact .pure []
  | cons a rest ih =>
      rw [List.mapM_cons]
      exact (hf a).bind fun b => ih.bind fun bs => .pure (b :: bs)

end Eval.WantsOnly

/-! No operation on values fails for want of a name. -/

namespace Val

variable {κ : Type}

/-- A result that is no want of a name. -/
abbrev WantsNothing (r : Except EvalError α) : Prop := ∀ name, r ≠ .error (.undefined name)

theorem wantsNothing_items (v : Val κ) : WantsNothing v.items := by
  intro name
  cases v <;> simp [items, invalidTypes]

theorem wantsNothing_unpack (arity : Nat) (v : Val κ) : WantsNothing (unpack arity v) := by
  intro name
  unfold unpack
  split
  · simp
  · split
    · split <;> simp
    · simp [invalidTypes]

theorem length_of_unpack {arity : Nat} {v : Val κ} {values : List (Val κ)}
    (h : unpack arity v = .ok values) : values.length = arity := by
  unfold unpack at h
  split at h
  · next harity =>
      cases h
      exact harity.symm
  · split at h
    · split at h
      · next hlength =>
          cases h
          exact hlength
      · cases h
    · cases h

theorem wantsNothing_itemAt (items : List α) (n : Number) : WantsNothing (itemAt items n) := by
  intro name
  unfold itemAt
  split <;> simp

theorem wantsNothing_index (value position : Val κ) : WantsNothing (value.index position) := by
  intro name
  unfold index
  dsimp only
  split
  · split
    · exact wantsNothing_itemAt _ _ name
    · simp [invalidTypes]
  · next s n =>
      have hitem := wantsNothing_itemAt s.toList n name
      split
      · cases h : itemAt s.toList n <;> simp_all [Except.map]
      · simp [invalidTypes]
  · split <;> simp
  · simp [invalidTypes]

theorem wantsNothing_member (member : String) (v : Val κ) : WantsNothing (v.member member) := by
  intro name
  unfold Val.member
  split
  · split <;> simp
  · simp

theorem wantsNothing_applyUnary (op : UnaryOp) (v : Val κ) : WantsNothing (v.applyUnary op) := by
  intro name
  cases op <;> cases v <;> simp [applyUnary, neg, pos, invalidTypes]

theorem wantsNothing_repeatLength? (length count bytes : Nat) :
    WantsNothing (repeatLength? length count bytes) := by
  intro name
  unfold repeatLength?
  dsimp only
  split <;> simp

theorem wantsNothing_map {r : Except EvalError α} (h : WantsNothing r) (f : α → β) :
    WantsNothing (r.map f) := by
  intro name
  cases r with
  | ok a => simp [Except.map]
  | error e => simpa [Except.map] using h name

theorem wantsNothing_add (lhs rhs : Val κ) : WantsNothing (add lhs rhs) := by
  intro name
  unfold add
  split <;> simp [invalidTypes]

theorem wantsNothing_sub (lhs rhs : Val κ) : WantsNothing (sub lhs rhs) := by
  intro name
  unfold sub
  split <;> simp [invalidTypes]

theorem wantsNothing_pow (lhs rhs : Val κ) : WantsNothing (pow lhs rhs) := by
  intro name
  unfold pow
  split <;> simp [invalidTypes]

theorem wantsNothing_mul (lhs rhs : Val κ) : WantsNothing (mul lhs rhs) := by
  intro name
  unfold mul
  split
  · simp
  · exact wantsNothing_map (wantsNothing_repeatLength? _ _ _) _ name
  · exact wantsNothing_map (wantsNothing_repeatLength? _ _ _) _ name
  · exact wantsNothing_map (wantsNothing_repeatLength? _ _ _) _ name
  · exact wantsNothing_map (wantsNothing_repeatLength? _ _ _) _ name
  · simp [invalidTypes]

theorem wantsNothing_divideBy (operation : String) (divide : Number → Number → Number)
    (lhs rhs : Val κ) : WantsNothing (divideBy operation divide lhs rhs) := by
  intro name
  unfold divideBy
  split
  · split <;> simp
  · simp [invalidTypes]

theorem wantsNothing_ordered (operation : String) (test : Ordering → Bool) (lhs rhs : Val κ) :
    WantsNothing (ordered operation test lhs rhs) := by
  intro name
  unfold ordered
  split <;> simp [invalidTypes]

theorem wantsNothing_contains (container item : Val κ) :
    WantsNothing (container.contains item) := by
  intro name
  unfold contains
  split <;> simp [invalidTypes]

theorem wantsNothing_applyBinary (op : BinaryOp) (lhs rhs : Val κ) :
    WantsNothing (applyBinary op lhs rhs) := by
  intro name
  cases op with
  | add => exact wantsNothing_add lhs rhs name
  | sub => exact wantsNothing_sub lhs rhs name
  | pow => exact wantsNothing_pow lhs rhs name
  | mul => exact wantsNothing_mul lhs rhs name
  | div | floorDiv | mod => exact wantsNothing_divideBy _ _ lhs rhs name
  | eq | ne => simp [applyBinary]
  | lt | le | gt | ge => exact wantsNothing_ordered _ _ lhs rhs name
  | isIn | notIn => exact wantsNothing_map (wantsNothing_contains rhs lhs) _ name

end Val

section Trees

variable {call : Call} {context : Context Code} {names : List String}

/-- The name is one of `names`, and the context has nothing for it. -/
def Missing (names : List String) (context : Context Code) (name : String) : Prop :=
  name ∈ names ∧ context.find? name = none

theorem wantsOnly_ofName {scope : List String} {env : Env} (hcontext : env.context = context)
    (hslots : env.slots.length = scope.length) (name : String)
    (hn : (Code.ofName scope name).globals ⊆ names) :
    Eval.WantsOnly (Missing names context) ((Code.ofName scope name).eval call env) := by
  unfold Code.ofName at hn ⊢
  cases hslot : slot? name scope with
  | some i =>
      have hi : i < env.slots.length := hslots ▸ lt_length_of_slot? hslot
      simp only [Code.eval, Env.slot, List.getElem?_eq_getElem hi]
      exact .pure _
  | none =>
      simp only [hslot] at hn
      by_cases hname : name = helpersName
      · simp only [hname, if_true, Code.eval]
        exact .pure _
      · simp only [hname, if_false, Code.eval] at hn ⊢
        refine .ofResult fun missing hmissing => ?_
        unfold Env.global at hmissing
        split at hmissing
        · cases hmissing
        · next hfind =>
            cases hmissing
            exact ⟨hn (List.mem_singleton_self name), hcontext ▸ hfind⟩

mutual

/-- One step for every form of expression.  As many slots are filled as there are names in
scope, so that no slot is missing. -/
theorem wantsOnly_ofExpr (hcall : ∀ f args, (call f args).WantsOnly (Missing names context)) :
    (e : Expr) → {scope : List String} → {env : Env} → env.context = context →
      env.slots.length = scope.length → (Code.ofExpr scope e).globals ⊆ names →
        Eval.WantsOnly (Missing names context) ((Code.ofExpr scope e).eval call env)
  | .literal value _, _, _, _, _, _ => by
      rw [Code.ofExpr, Code.eval]
      exact .pure _
  | .ident name _, _, _, hcontext, hslots, hn => by
      rw [Code.ofExpr] at hn ⊢
      exact wantsOnly_ofName hcontext hslots name hn
  | .list items _, _, _, hcontext, hslots, hn => by
      rw [Code.ofExpr] at hn ⊢
      rw [Code.eval]
      exact (wantsOnly_codesOfExprs hcall items hcontext hslots hn).bind fun _ => .pure _
  | .dict entries _, _, _, hcontext, hslots, hn => by
      rw [Code.ofExpr] at hn ⊢
      rw [Code.eval]
      exact (wantsOnly_codesOfEntries hcall entries hcontext hslots hn).bind fun _ => .pure _
  | .member value name _, _, _, hcontext, hslots, hn => by
      rw [Code.ofExpr] at hn ⊢
      rw [Code.eval]
      exact (wantsOnly_ofExpr hcall value hcontext hslots hn).bind fun v =>
        .ofResult fun missing h => absurd h (v.wantsNothing_member name missing)
  | .index value position _, _, _, hcontext, hslots, hn => by
      rw [Code.ofExpr] at hn ⊢
      obtain ⟨hvalue, hposition⟩ := List.append_subset.mp hn
      rw [Code.eval]
      exact (wantsOnly_ofExpr hcall value hcontext hslots hvalue).bind fun v =>
        (wantsOnly_ofExpr hcall position hcontext hslots hposition).bind fun i =>
          .ofResult fun missing h => absurd h (v.wantsNothing_index i missing)
  | .call callee args _, _, _, hcontext, hslots, hn => by
      rw [Code.ofExpr] at hn ⊢
      obtain ⟨hcallee, hargs⟩ := List.append_subset.mp hn
      rw [Code.eval]
      exact (wantsOnly_ofExpr hcall callee hcontext hslots hcallee).bind fun f =>
        (wantsOnly_codesOfExprs hcall args hcontext hslots hargs).bind fun values =>
          hcall f values
  | .unary op operand _, _, _, hcontext, hslots, hn => by
      rw [Code.ofExpr] at hn ⊢
      rw [Code.eval]
      exact (wantsOnly_ofExpr hcall operand hcontext hslots hn).bind fun v =>
        .ofResult fun missing h => absurd h (Val.wantsNothing_applyUnary op v missing)
  | .binary op lhs rhs _, _, _, hcontext, hslots, hn => by
      rw [Code.ofExpr] at hn ⊢
      obtain ⟨hlhs, hrhs⟩ := List.append_subset.mp hn
      rw [Code.eval]
      exact (wantsOnly_ofExpr hcall lhs hcontext hslots hlhs).bind fun a =>
        (wantsOnly_ofExpr hcall rhs hcontext hslots hrhs).bind fun b =>
          .ofResult fun missing h => absurd h (Val.wantsNothing_applyBinary op a b missing)
  | .and lhs rhs _, _, _, hcontext, hslots, hn => by
      rw [Code.ofExpr] at hn ⊢
      obtain ⟨hlhs, hrhs⟩ := List.append_subset.mp hn
      rw [Code.eval]
      refine (wantsOnly_ofExpr hcall lhs hcontext hslots hlhs).bind fun v => ?_
      split
      · exact wantsOnly_ofExpr hcall rhs hcontext hslots hrhs
      · exact .pure v
  | .or lhs rhs _, _, _, hcontext, hslots, hn => by
      rw [Code.ofExpr] at hn ⊢
      obtain ⟨hlhs, hrhs⟩ := List.append_subset.mp hn
      rw [Code.eval]
      refine (wantsOnly_ofExpr hcall lhs hcontext hslots hlhs).bind fun v => ?_
      split
      · exact .pure v
      · exact wantsOnly_ofExpr hcall rhs hcontext hslots hrhs
  | .conditional yes cond no _, _, _, hcontext, hslots, hn => by
      rw [Code.ofExpr] at hn ⊢
      obtain ⟨hboth, hno⟩ := List.append_subset.mp hn
      obtain ⟨hyes, hcond⟩ := List.append_subset.mp hboth
      rw [Code.eval]
      refine (wantsOnly_ofExpr hcall cond hcontext hslots hcond).bind fun v => ?_
      split
      · exact wantsOnly_ofExpr hcall yes hcontext hslots hyes
      · exact wantsOnly_ofExpr hcall no hcontext hslots hno
  | .lambda params body _, _, _, _, _, _ => by
      rw [Code.ofExpr, Code.eval]
      intro serial name h
      cases h
  | .comprehension element clauses _, _, _, hcontext, hslots, hn => by
      rw [Code.ofExpr] at hn ⊢
      obtain ⟨hclauses, helement⟩ := List.append_subset.mp hn
      rw [Code.eval]
      refine (wantsOnly_codesOfClauses hcall clauses hcontext hslots hclauses ?_).bind
        fun values => .pure _
      exact fun hcontext hslots => wantsOnly_ofExpr hcall element hcontext hslots helement

theorem wantsOnly_codesOfExprs
    (hcall : ∀ f args, (call f args).WantsOnly (Missing names context)) :
    (items : List Expr) → {scope : List String} → {env : Env} → env.context = context →
      env.slots.length = scope.length → globalsOfAll (codesOfExprs scope items) ⊆ names →
        Eval.WantsOnly (Missing names context) (evalAll call env (codesOfExprs scope items))
  | [], _, _, _, _, _ => by
      rw [codesOfExprs, evalAll]
      exact .pure _
  | e :: rest, _, _, hcontext, hslots, hn => by
      rw [codesOfExprs] at hn ⊢
      obtain ⟨he, hrest⟩ := List.append_subset.mp hn
      rw [evalAll]
      exact (wantsOnly_ofExpr hcall e hcontext hslots he).bind fun _ =>
        (wantsOnly_codesOfExprs hcall rest hcontext hslots hrest).bind fun _ => .pure _

theorem wantsOnly_codesOfEntries
    (hcall : ∀ f args, (call f args).WantsOnly (Missing names context)) :
    (entries : List (Expr × Expr)) → {scope : List String} → {env : Env} →
      env.context = context → env.slots.length = scope.length →
        globalsOfEntries (codesOfEntries scope entries) ⊆ names →
          Eval.WantsOnly (Missing names context)
            (evalEntries call env (codesOfEntries scope entries))
  | [], _, _, _, _, _ => by
      rw [codesOfEntries, evalEntries]
      exact .pure _
  | (key, value) :: rest, _, _, hcontext, hslots, hn => by
      rw [codesOfEntries] at hn ⊢
      obtain ⟨hentry, hrest⟩ := List.append_subset.mp hn
      obtain ⟨hkey, hvalue⟩ := List.append_subset.mp hentry
      rw [evalEntries]
      exact (wantsOnly_ofExpr hcall key hcontext hslots hkey).bind fun _ =>
        (wantsOnly_ofExpr hcall value hcontext hslots hvalue).bind fun _ =>
          (wantsOnly_codesOfEntries hcall rest hcontext hslots hrest).bind fun _ => .pure _

theorem wantsOnly_conditions
    (hcall : ∀ f args, (call f args).WantsOnly (Missing names context)) :
    (conditions : List Expr) → {scope : List String} → {env : Env} → env.context = context →
      env.slots.length = scope.length → globalsOfAll (codesOfExprs scope conditions) ⊆ names →
        Eval.WantsOnly (Missing names context)
          (evalConditions call env (codesOfExprs scope conditions))
  | [], _, _, _, _, _ => by
      rw [codesOfExprs, evalConditions]
      exact .pure _
  | condition :: rest, _, _, hcontext, hslots, hn => by
      rw [codesOfExprs] at hn ⊢
      obtain ⟨hcondition, hrest⟩ := List.append_subset.mp hn
      rw [evalConditions]
      refine (wantsOnly_ofExpr hcall condition hcontext hslots hcondition).bind fun v => ?_
      split
      · exact wantsOnly_conditions hcall rest hcontext hslots hrest
      · exact .pure false

theorem wantsOnly_codesOfClauses
    (hcall : ∀ f args, (call f args).WantsOnly (Missing names context))
    {element : Env → Eval Value} :
    (clauses : List Clause) → {scope : List String} → {env : Env} → env.context = context →
      env.slots.length = scope.length →
      globalsOfClauses (codesOfClauses scope clauses) ⊆ names →
      (∀ {inner : Env}, inner.context = context →
        inner.slots.length = (clauseScope scope clauses).length →
          (element inner).WantsOnly (Missing names context)) →
      Eval.WantsOnly (Missing names context)
        (evalClauses call element env (codesOfClauses scope clauses))
  | [], _, _, hcontext, hslots, _, helement => by
      rw [codesOfClauses, evalClauses]
      exact (helement hcontext hslots).bind fun _ => .pure _
  | .mk targets source conditions :: rest, scope, env, hcontext, hslots, hn, helement => by
      rw [codesOfClauses] at hn ⊢
      obtain ⟨hclause, hrest⟩ := List.append_subset.mp hn
      obtain ⟨hsource, hconditions⟩ := List.append_subset.mp hclause
      rw [evalClauses]
      refine (wantsOnly_ofExpr hcall source hcontext hslots hsource).bind fun v =>
        .bindResult (fun missing h => absurd h (v.wantsNothing_items missing)) fun items _ =>
          (Eval.WantsOnly.mapM (fun item => ?_) items).bind fun groups => .pure _
      refine .bindResult (fun missing h => absurd h (item.wantsNothing_unpack _ missing)) ?_
      intro values hvalues
      -- An item fills one slot for each target, so that the scope stays as long as the slots.
      have hinner : (env.fill values).slots.length = (scope ++ targets).length := by
        rw [Env.fill, List.length_append, List.length_append, hslots,
          Val.length_of_unpack hvalues]
      have hsame : (env.fill values).context = context := hcontext
      refine (wantsOnly_conditions hcall conditions hsame hinner hconditions).bind fun held => ?_
      split
      · exact wantsOnly_codesOfClauses hcall rest hsame hinner hrest helement
      · exact .pure []

end

end Trees

end Stencil
