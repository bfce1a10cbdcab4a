/-
Compiled code runs as the tree it comes from.  At every place of a tree the slots are filled
with the values of the names in scope there, in the order of the scope; from this invariant
code and tree evaluate alike, functions made on the way included.
-/
import Stencil.Proofs.Eval.Same
import Stencil.Proofs.Scope.Interpreter

namespace Stencil

/-- The code of a function is the code of its text, in the scope of the captured names and the
parameters; there is a name for every captured value and for every argument. -/
def compiled : Likeness Lambda Code where
  bodies captured arity lambda code :=
    lambda.captured.length = captured ∧ lambda.params.length = arity ∧
      code = Code.ofExpr (lambda.captured ++ lambda.params) lambda.body
  reads _ _ := True

/-- The slot of a bound name lies within the scope. -/
theorem lt_length_of_slot? {name : String} {scope : List String} {i : Nat}
    (h : slot? name scope = some i) : i < scope.length := by
  induction scope generalizing i with
  | nil => simp [slot?] at h
  | cons bound scope ih =>
      simp only [slot?] at h
      cases hslot : slot? name scope with
      | some j =>
          have hj := ih hslot
          simp only [hslot, Option.some.injEq] at h
          rw [List.length_cons]
          omega
      | none =>
          simp only [hslot, Option.ite_none_right_eq_some, Option.some.injEq] at h
          rw [List.length_cons]
          omega

/-- The slot of a name is the place of its innermost binding. -/
theorem lookup_reverse_eq_slot {α : Type} (name : String) (bindings : List (String × α)) :
    bindings.reverse.lookup name =
      (slot? name (bindings.map Prod.fst)).bind ((bindings.map Prod.snd)[·]?) := by
  induction bindings with
  | nil => rfl
  | cons binding rest ih =>
      obtain ⟨bound, value⟩ := binding
      simp only [List.reverse_cons, List.lookup_append, ih, List.map_cons, slot?]
      cases hslot : slot? name (rest.map Prod.fst) with
      | some i =>
          have hi : i < (rest.map Prod.snd).length := by simpa using lt_length_of_slot? hslot
          simp only [Option.bind_some, List.getElem?_cons_succ]
          rw [List.getElem?_eq_getElem hi, Option.some_or]
      | none =>
          by_cases hname : bound = name
          · simp [hname]
          · have hne : (name == bound) = false := by simpa using Ne.symm hname
            simp [hname, List.lookup_cons, hne]

/-- Code finds in its slots the values of the bound names, one slot for each, and elsewhere
what the names find. -/
structure Named.Env.Matches (named : Named.Env) (env : Stencil.Env) : Prop where
  context (name : String) :
    Option.Rel (Val.Like compiled) (named.context.find? name) (env.context.find? name)
  helpers : Val.LikeEntries compiled named.helpers env.helpers
  slots : Val.LikeAll compiled (named.bindings.map Prod.snd) env.slots

namespace Named.Env.Matches

variable {named : Named.Env} {env : Stencil.Env}

/-- Binding names fills as many slots. -/
theorem bind (h : named.Matches env) {names : List String} {values : List Named.Value}
    {values' : List Stencil.Value} (hlength : values.length = names.length)
    (hvalues : Val.LikeAll compiled values values') :
    (named.bind names values).Matches (env.fill values') where
  context := h.context
  helpers := h.helpers
  slots := by
    have hsnd : (names.zip values).map Prod.snd = values := List.map_snd_zip (by omega)
    simp only [Named.Env.bind, Stencil.Env.fill, List.map_append, hsnd]
    exact List.rel_append h.slots hvalues

/-- There is one slot for every name in scope. -/
theorem length_slots (h : named.Matches env) : env.slots.length = named.scope.length := by
  rw [← h.slots.length_eq, Named.Env.scope, List.length_map, List.length_map]

/-- A slot that code reads is filled, with the value of its name. -/
theorem slot (h : named.Matches env) {name : String} {i : Nat}
    (hslot : slot? name named.scope = some i) :
    ∃ value value', named.bindings.reverse.lookup name = some value ∧
      env.slots[i]? = some value' ∧ Val.Like compiled value value' := by
  have hi : i < (named.bindings.map Prod.snd).length := by
    simpa [Named.Env.scope] using lt_length_of_slot? hslot
  have hi' : i < env.slots.length := h.slots.length_eq ▸ hi
  refine ⟨(named.bindings.map Prod.snd)[i], env.slots[i], ?_, List.getElem?_eq_getElem hi', ?_⟩
  · rw [lookup_reverse_eq_slot]
    simp only [Named.Env.scope] at hslot
    rw [hslot, Option.bind_some, List.getElem?_eq_getElem hi]
  · exact h.slots.get hi hi'

end Named.Env.Matches

theorem Named.Env.scope_bind (named : Named.Env) {names : List String}
    {values : List Named.Value} (h : values.length = names.length) :
    (named.bind names values).scope = named.scope ++ names := by
  simp [Named.Env.scope, Named.Env.bind, List.map_fst_zip, h]

/-! One step for every form of expression: what code and tree read is alike. -/

section Steps

variable {named : Named.Env} {env : Env}

theorem resolve_same (h : named.Matches env) (call : Call) (name : String) :
    Eval.Same (Val.Like compiled) (Eval.ofResult (named.resolve name))
      ((Code.ofName named.scope name).eval call env) := by
  unfold Code.ofName
  cases hslot : slot? name named.scope with
  | some i =>
      obtain ⟨value, value', hlookup, hget, hvalue⟩ := h.slot hslot
      simp only [Named.Env.resolve, hlookup, Code.eval, Env.slot, hget]
      exact .ofResult (.ok hvalue)
  | none =>
      have hlookup : named.bindings.reverse.lookup name = none := by
        rw [lookup_reverse_eq_slot]
        simp only [Named.Env.scope] at hslot
        rw [hslot, Option.bind_none]
      simp only [Named.Env.resolve, hlookup]
      by_cases hname : name = helpersName
      · simp only [hname, if_true, Code.eval]
        exact .pure (.dict h.helpers)
      · simp only [hname, if_false, Code.eval, Env.global]
        refine .ofResult ?_
        have hcontext := h.context name
        generalize named.context.find? name = x, env.context.find? name = y at hcontext
        cases hcontext with
        | some hvalue => exact .ok hvalue
        | none => exact .error _

theorem close_same (h : named.Matches env) (params : List String) (body : Expr) :
    Eval.Same (Val.Like compiled) (named.close params body)
      (env.close params.length (Code.ofExpr (named.scope ++ params) body)) := by
  intro serial
  refine .ok ⟨.closure serial params.length ⟨?_, rfl, rfl⟩ h.slots ?_ h.helpers, rfl⟩
  · simp [Named.Env.scope]
  · exact fun name _ => h.context name

end Steps

section Trees

variable {call : Named.Call} {call' : Call}

mutual

theorem interpret_same (hcall : SameCall compiled call call') :
    (e : Expr) → {named : Named.Env} → {env : Env} → named.Matches env →
      Eval.Same (Val.Like compiled) (Named.interpret call named e)
        ((Code.ofExpr named.scope e).eval call' env)
  | .literal value _, _, _, _ => .pure (.ofLiteral value)
  | .ident name _, _, _, h => by
      rw [Named.interpret, Code.ofExpr]
      exact resolve_same h call' name
  | .list items _, _, _, h => by
      rw [Named.interpret, Code.ofExpr, Code.eval]
      exact (interpretAll_same hcall items h).bind fun _ _ hvalues => .pure (.array hvalues)
  | .dict entries _, _, _, h => by
      rw [Named.interpret, Code.ofExpr, Code.eval]
      exact (interpretEntries_same hcall entries h).bind fun _ _ hentries =>
        .pure (.ofEntries hentries)
  | .member value name _, _, _, h => by
      rw [Named.interpret, Code.ofExpr, Code.eval]
      exact (interpret_same hcall value h).bind fun _ _ hvalue => .ofResult (hvalue.member name)
  | .index value position _, _, _, h => by
      rw [Named.interpret, Code.ofExpr, Code.eval]
      exact (interpret_same hcall value h).bind fun _ _ hvalue =>
        (interpret_same hcall position h).bind fun _ _ hposition =>
          .ofResult (hvalue.index hposition)
  | .call callee args _, _, _, h => by
      rw [Named.interpret, Code.ofExpr, Code.eval]
      exact (interpret_same hcall callee h).bind fun _ _ hcallee =>
        (interpretAll_same hcall args h).bind fun _ _ hargs => hcall hcallee hargs
  | .unary op operand _, _, _, h => by
      rw [Named.interpret, Code.ofExpr, Code.eval]
      exact (interpret_same hcall operand h).bind fun _ _ hoperand =>
        .ofResult (hoperand.applyUnary op)
  | .binary op lhs rhs _, _, _, h => by
      rw [Named.interpret, Code.ofExpr, Code.eval]
      exact (interpret_same hcall lhs h).bind fun _ _ hlhs =>
        (interpret_same hcall rhs h).bind fun _ _ hrhs => .ofResult (hlhs.applyBinary op hrhs)
  | .and lhs rhs _, _, _, h => by
      rw [Named.interpret, Code.ofExpr, Code.eval]
      refine (interpret_same hcall lhs h).bind fun _ _ hlhs => ?_
      rw [hlhs.isTruthy_eq]
      split
      · exact interpret_same hcall rhs h
      · exact .pure hlhs
  | .or lhs rhs _, _, _, h => by
      rw [Named.interpret, Code.ofExpr, Code.eval]
      refine (interpret_same hcall lhs h).bind fun _ _ hlhs => ?_
      rw [hlhs.isTruthy_eq]
      split
      · exact .pure hlhs
      · exact interpret_same hcall rhs h
  | .conditional yes cond no _, _, _, h => by
      rw [Named.interpret, Code.ofExpr, Code.eval]
      refine (interpret_same hcall cond h).bind fun _ _ hcond => ?_
      rw [hcond.isTruthy_eq]
      split
      · exact interpret_same hcall yes h
      · exact interpret_same hcall no h
  | .lambda params body _, _, _, h => by
      rw [Named.interpret, Code.ofExpr, Code.eval]
      exact close_same h params body
  | .comprehension element clauses _, named, _, h => by
      rw [Named.interpret, Code.ofExpr, Code.eval]
      refine (interpretClauses_same hcall clauses h fun hmatches hscope => ?_).bind
        fun _ _ hvalues => .pure (.array hvalues)
      rw [← hscope]
      exact interpret_same hcall element hmatches

theorem interpretAll_same (hcall : SameCall compiled call call') :
    (items : List Expr) → {named : Named.Env} → {env : Env} → named.Matches env →
      Eval.Same (Val.LikeAll compiled) (Named.interpretAll call named items)
        (evalAll call' env (codesOfExprs named.scope items))
  | [], _, _, _ => .pure .nil
  | e :: rest, _, _, h => by
      rw [Named.interpretAll, codesOfExprs, evalAll]
      exact (interpret_same hcall e h).bind fun _ _ hvalue =>
        (interpretAll_same hcall rest h).bind fun _ _ hvalues => .pure (.cons hvalue hvalues)

theorem interpretEntries_same (hcall : SameCall compiled call call') :
    (entries : List (Expr × Expr)) → {named : Named.Env} → {env : Env} → named.Matches env →
      Eval.Same (Val.LikeEntries compiled) (Named.interpretEntries call named entries)
        (evalEntries call' env (codesOfEntries named.scope entries))
  | [], _, _, _ => .pure .nil
  | (key, value) :: rest, _, _, h => by
      rw [Named.interpretEntries, codesOfEntries, evalEntries]
      refine (interpret_same hcall key h).bind fun _ _ hkey =>
        (interpret_same hcall value h).bind fun _ _ hvalue =>
          (interpretEntries_same hcall rest h).bind fun _ _ hentries => ?_
      rw [hkey.text_eq]
      exact .pure (.cons (.mk _ hvalue) hentries)

theorem interpretConditions_same (hcall : SameCall compiled call call') :
    (conditions : List Expr) → {named : Named.Env} → {env : Env} → named.Matches env →
      Eval.Same Eq (Named.interpretConditions call named conditions)
        (evalConditions call' env (codesOfExprs named.scope conditions))
  | [], _, _, _ => .pure rfl
  | condition :: rest, _, _, h => by
      rw [Named.interpretConditions, codesOfExprs, evalConditions]
      refine (interpret_same hcall condition h).bind fun _ _ hvalue => ?_
      rw [hvalue.isTruthy_eq]
      split
      · exact interpretConditions_same hcall rest h
      · exact .pure rfl

theorem interpretClauses_same (hcall : SameCall compiled call call')
    {element : Named.Env → Eval Named.Value} {element' : Env → Eval Value} :
    (clauses : List Clause) → {named : Named.Env} → {env : Env} → named.Matches env →
      (∀ {inner inner'}, Named.Env.Matches inner inner' →
        inner.scope = clauseScope named.scope clauses →
          Eval.Same (Val.Like compiled) (element inner) (element' inner')) →
      Eval.Same (Val.LikeAll compiled) (Named.interpretClauses call element named clauses)
        (evalClauses call' element' env (codesOfClauses named.scope clauses))
  | [], _, _, h, helement => by
      rw [Named.interpretClauses, codesOfClauses, evalClauses]
      exact (helement h rfl).bind fun _ _ hvalue => .pure (.cons hvalue .nil)
  | .mk targets source conditions :: rest, named, env, h, helement => by
      rw [Named.interpretClauses, codesOfClauses, evalClauses]
      refine (interpret_same hcall source h).bind fun _ _ hsource =>
        (Eval.Same.ofResult hsource.items).bind fun _ _ hitems =>
          (Eval.Same.mapM (S := Val.LikeAll compiled) hitems fun item item' hitem => ?_).bind
            fun _ _ hgroups => .pure (List.rel_flatten hgroups)
      refine (Eval.Same.ofResult (hitem.unpack targets.length)).bind ?_
      rintro values values' ⟨hvalues, hlength⟩
      have hinner := h.bind hlength hvalues
      rw [clauseScope, ← named.scope_bind hlength] at helement
      rw [← named.scope_bind hlength]
      refine (interpretConditions_same hcall conditions hinner).bind fun _ _ hheld => ?_
      rw [hheld]
      split
      · exact interpretClauses_same hcall rest hinner helement
      · exact .pure .nil

end

end Trees

end Stencil
