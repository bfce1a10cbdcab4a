/-
Two runs of one piece of code.  If the contexts agree on the names that the code looks up, the
runs halt for the same reason or give values that differ only in the contexts that functions
remember, and those contexts agree on the names that the functions look up.
-/
import Stencil.Expression
import Stencil.Proofs.Eval.Same

namespace Stencil

/-- Functions of the same code, made in contexts that agree on the names it looks up. -/
def sameCode : Likeness Code Code where
  bodies _ _ body body' := body = body'
  reads body name := name ∈ body.globals

mutual

/-- Every value is alike to itself. -/
theorem Val.sameCode_self : (v : Value) → Val.Like sameCode v v
  | .none => .none
  | .bool b => .bool b
  | .number n => .number n
  | .string s => .string s
  | .array items => .array (sameCode_selfAll items)
  | .dict entries => .dict (sameCode_selfEntries entries)
  | .native name serial => .native name serial
  | .closure serial arity _ locals globals helpers =>
      .closure serial arity rfl (sameCode_selfAll locals)
        (fun name _ => Table.rel_find? name (sameCode_selfEntries globals))
        (sameCode_selfEntries helpers)

theorem Val.sameCode_selfAll : (values : List Value) → Val.LikeAll sameCode values values
  | [] => .nil
  | v :: rest => .cons v.sameCode_self (sameCode_selfAll rest)

theorem Val.sameCode_selfEntries :
    (entries : List (String × Value)) → Val.LikeEntries sameCode entries entries
  | [] => .nil
  | (name, v) :: rest => .cons (.mk name v.sameCode_self) (sameCode_selfEntries rest)

end

theorem Context.sameCode_of_eq {context context' : Context Code} {name : String}
    (h : context.find? name = context'.find? name) :
    Option.Rel (Val.Like sameCode) (context.find? name) (context'.find? name) := by
  rw [h]
  cases context'.find? name with
  | none => exact .none
  | some v => exact .some v.sameCode_self

/-- Environments that are alike, of their contexts what is bound to the names that are read. -/
structure Env.Like (L : Likeness Code Code) (reads : String → Prop) (env env' : Env) : Prop where
  context (name : String) : reads name →
    Option.Rel (Val.Like L) (env.context.find? name) (env'.context.find? name)
  helpers : Val.LikeEntries L env.helpers env'.helpers
  slots : Val.LikeAll L env.slots env'.slots

namespace Env.Like

variable {L : Likeness Code Code} {reads : String → Prop} {env env' : Env}

theorem fill (h : env.Like L reads env') {values values' : List Value}
    (hvalues : Val.LikeAll L values values') :
    (env.fill values).Like L reads (env'.fill values') :=
  ⟨h.context, h.helpers, List.rel_append h.slots hvalues⟩

theorem slot (h : env.Like L reads env') (index : Nat) (name : String) :
    Val.LikeResult L (env.slot index name) (env'.slot index name) := by
  have hslot : Option.Rel (Val.Like L) env.slots[index]? env'.slots[index]? :=
    Val.rel_getElem? h.slots index
  unfold Env.slot
  generalize env.slots[index]? = x, env'.slots[index]? = y at hslot
  cases hslot with
  | some hvalue => exact .ok hvalue
  | none => exact .error _

theorem global (h : env.Like L reads env') {name : String} (hname : reads name) :
    Val.LikeResult L (env.global name) (env'.global name) := by
  have hcontext := h.context name hname
  unfold Env.global
  generalize env.context.find? name = x, env'.context.find? name = y at hcontext
  cases hcontext with
  | some hvalue => exact .ok hvalue
  | none => exact .error _

/-- Functions made in environments that are alike, if they read no more than is alike there. -/
theorem close (h : env.Like L reads env') {arity : Nat} {body body' : Code}
    (hbody : ∀ captured, L.bodies captured arity body body')
    (hreads : ∀ name, L.reads body name → reads name) (serial : Nat) :
    Val.Like L
      (.closure serial arity body env.slots env.context.bindings env.helpers)
      (.closure serial arity body' env'.slots env'.context.bindings env'.helpers) :=
  .closure serial arity (hbody _) h.slots (fun name hname => h.context name (hreads name hname))
    h.helpers

end Env.Like

/-- Environments whose contexts agree on some names, and which agree on all the rest. -/
abbrev Env.AgreeOn (names : List String) : Env → Env → Prop := Env.Like sameCode (· ∈ names)

section Runs

variable {call call' : Call} {names : List String}

mutual

/-- One step for every form of code; `names` holds what the whole of it looks up. -/
theorem Code.eval_agree (hcall : SameCall sameCode call call') :
    (code : Code) → code.globals ⊆ names → {env env' : Env} → env.AgreeOn names env' →
      Eval.Same (Val.Like sameCode) (code.eval call env) (code.eval call' env')
  | .literal value, _, _, _, _ => by
      rw [Code.eval, Code.eval]
      exact .pure (.ofLiteral value)
  | .slot index name, _, _, _, h => by
      rw [Code.eval, Code.eval]
      exact .ofResult (h.slot index name)
  | .helpers, _, _, _, h => by
      rw [Code.eval, Code.eval]
      exact .pure (.dict h.helpers)
  | .global name, hn, _, _, h => by
      rw [Code.eval, Code.eval]
      exact .ofResult (h.global (hn (List.mem_singleton_self name)))
  | .list items, hn, _, _, h => by
      rw [Code.eval, Code.eval]
      exact (evalAll_agree hcall items hn h).bind fun _ _ hvalues => .pure (.array hvalues)
  | .dict entries, hn, _, _, h => by
      rw [Code.eval, Code.eval]
      exact (evalEntries_agree hcall entries hn h).bind fun _ _ hentries =>
        .pure (.ofEntries hentries)
  | .member value name, hn, _, _, h => by
      rw [Code.eval, Code.eval]
      exact (Code.eval_agree hcall value hn h).bind fun _ _ hvalue => .ofResult (hvalue.member name)
  | .index value position, hn, _, _, h => by
      obtain ⟨hvalue, hposition⟩ := List.append_subset.mp hn
      rw [Code.eval, Code.eval]
      exact (Code.eval_agree hcall value hvalue h).bind fun _ _ hvalue =>
        (Code.eval_agree hcall position hposition h).bind fun _ _ hposition =>
          .ofResult (hvalue.index hposition)
  | .call callee args, hn, _, _, h => by
      obtain ⟨hcallee, hargs⟩ := List.append_subset.mp hn
      rw [Code.eval, Code.eval]
      exact (Code.eval_agree hcall callee hcallee h).bind fun _ _ hcallee =>
        (evalAll_agree hcall args hargs h).bind fun _ _ hargs => hcall hcallee hargs
  | .unary op operand, hn, _, _, h => by
      rw [Code.eval, Code.eval]
      exact (Code.eval_agree hcall operand hn h).bind fun _ _ hoperand =>
        .ofResult (hoperand.applyUnary op)
  | .binary op lhs rhs, hn, _, _, h => by
      obtain ⟨hlhs, hrhs⟩ := List.append_subset.mp hn
      rw [Code.eval, Code.eval]
      exact (Code.eval_agree hcall lhs hlhs h).bind fun _ _ hlhs =>
        (Code.eval_agree hcall rhs hrhs h).bind fun _ _ hrhs => .ofResult (hlhs.applyBinary op hrhs)
  | .and lhs rhs, hn, _, _, h => by
      obtain ⟨hlhs, hrhs⟩ := List.append_subset.mp hn
      rw [Code.eval, Code.eval]
      refine (Code.eval_agree hcall lhs hlhs h).bind fun _ _ hvalue => ?_
      rw [hvalue.isTruthy_eq]
      split
      · exact Code.eval_agree hcall rhs hrhs h
      · exact .pure hvalue
  | .or lhs rhs, hn, _, _, h => by
      obtain ⟨hlhs, hrhs⟩ := List.append_subset.mp hn
      rw [Code.eval, Code.eval]
      refine (Code.eval_agree hcall lhs hlhs h).bind fun _ _ hvalue => ?_
      rw [hvalue.isTruthy_eq]
      split
      · exact .pure hvalue
      · exact Code.eval_agree hcall rhs hrhs h
  | .conditional yes cond no, hn, _, _, h => by
      obtain ⟨hboth, hno⟩ := List.append_subset.mp hn
      obtain ⟨hyes, hcond⟩ := List.append_subset.mp hboth
      rw [Code.eval, Code.eval]
      refine (Code.eval_agree hcall cond hcond h).bind fun _ _ hvalue => ?_
      rw [hvalue.isTruthy_eq]
      split
      · exact Code.eval_agree hcall yes hyes h
      · exact Code.eval_agree hcall no hno h
  | .lambda arity body, hn, _, _, h => by
      rw [Code.eval, Code.eval]
      have hreads : ∀ name, sameCode.reads body name → name ∈ names := fun _ hname => hn hname
      exact fun serial => .ok ⟨h.close (fun _ => rfl) hreads serial, rfl⟩
  | .comprehension element clauses, hn, _, _, h => by
      obtain ⟨hclauses, helement⟩ := List.append_subset.mp hn
      rw [Code.eval, Code.eval]
      exact (evalClauses_agree hcall clauses hclauses h
        fun hinner => Code.eval_agree hcall element helement hinner).bind
          fun _ _ hvalues => .pure (.array hvalues)

theorem evalAll_agree (hcall : SameCall sameCode call call') :
    (items : List Code) → globalsOfAll items ⊆ names → {env env' : Env} →
      env.AgreeOn names env' →
        Eval.Same (Val.LikeAll sameCode) (evalAll call env items) (evalAll call' env' items)
  | [], _, _, _, _ => by
      rw [evalAll, evalAll]
      exact .pure .nil
  | code :: rest, hn, _, _, h => by
      obtain ⟨hcode, hrest⟩ := List.append_subset.mp hn
      rw [evalAll, evalAll]
      exact (Code.eval_agree hcall code hcode h).bind fun _ _ hvalue =>
        (evalAll_agree hcall rest hrest h).bind fun _ _ hvalues => .pure (.cons hvalue hvalues)

theorem evalEntries_agree (hcall : SameCall sameCode call call') :
    (entries : List (Code × Code)) → globalsOfEntries entries ⊆ names → {env env' : Env} →
      env.AgreeOn names env' →
        Eval.Same (Val.LikeEntries sameCode) (evalEntries call env entries)
          (evalEntries call' env' entries)
  | [], _, _, _, _ => by
      rw [evalEntries, evalEntries]
      exact .pure .nil
  | (key, value) :: rest, hn, _, _, h => by
      obtain ⟨hentry, hrest⟩ := List.append_subset.mp hn
      obtain ⟨hkey, hvalue⟩ := List.append_subset.mp hentry
      rw [evalEntries, evalEntries]
      refine (Code.eval_agree hcall key hkey h).bind fun _ _ hkey =>
        (Code.eval_agree hcall value hvalue h).bind fun _ _ hvalue =>
          (evalEntries_agree hcall rest hrest h).bind fun _ _ hentries => ?_
      rw [hkey.text_eq]
      exact .pure (.cons (.mk _ hvalue) hentries)

theorem evalConditions_agree (hcall : SameCall sameCode call call') :
    (conditions : List Code) → globalsOfAll conditions ⊆ names → {env env' : Env} →
      env.AgreeOn names env' →
        Eval.Same Eq (evalConditions call env conditions) (evalConditions call' env' conditions)
  | [], _, _, _, _ => by
      rw [evalConditions, evalConditions]
      exact .pure rfl
  | condition :: rest, hn, _, _, h => by
      obtain ⟨hcondition, hrest⟩ := List.append_subset.mp hn
      rw [evalConditions, evalConditions]
      refine (Code.eval_agree hcall condition hcondition h).bind fun _ _ hvalue => ?_
      rw [hvalue.isTruthy_eq]
      split
      · exact evalConditions_agree hcall rest hrest h
      · exact .pure rfl

theorem evalClauses_agree (hcall : SameCall sameCode call call')
    {element element' : Env → Eval Value} :
    (clauses : List CodeClause) → globalsOfClauses clauses ⊆ names → {env env' : Env} →
      env.AgreeOn names env' →
      (∀ {inner inner' : Env}, inner.AgreeOn names inner' →
        Eval.Same (Val.Like sameCode) (element inner) (element' inner')) →
      Eval.Same (Val.LikeAll sameCode) (evalClauses call element env clauses)
        (evalClauses call' element' env' clauses)
  | [], _, _, _, h, helement => by
      rw [evalClauses, evalClauses]
      exact (helement h).bind fun _ _ hvalue => .pure (.cons hvalue .nil)
  | .mk arity source conditions :: rest, hn, env, env', h, helement => by
      obtain ⟨hclause, hrest⟩ := List.append_subset.mp hn
      obtain ⟨hsource, hconditions⟩ := List.append_subset.mp hclause
      rw [evalClauses, evalClauses]
      refine (Code.eval_agree hcall source hsource h).bind fun _ _ hsource =>
        (Eval.Same.ofResult hsource.items).bind fun _ _ hitems =>
          (Eval.Same.mapM (S := Val.LikeAll sameCode) hitems fun item item' hitem => ?_).bind
            fun _ _ hgroups => .pure (List.rel_flatten hgroups)
      refine (Eval.Same.ofResult (hitem.unpack arity)).bind ?_
      rintro values values' ⟨hvalues, -⟩
      have hinner := h.fill hvalues
      refine (evalConditions_agree hcall conditions hconditions hinner).bind fun _ _ hheld => ?_
      rw [hheld]
      split
      · exact evalClauses_agree hcall rest hrest hinner helement
      · exact .pure .nil

end

/-- Functions of the same code run alike, whoever calls them, with as many calls open inside
them. -/
theorem Host.apply_agree {host : Host Code} (h : Host.Like sameCode host host) (limit : Nat) :
    SameCall sameCode (host.apply limit) (host.apply limit) := by
  induction limit with
  | zero => exact fun _ _ => .throw .callLimit
  | succ limit ih =>
      intro f f' args args' hf hargs
      cases hf with
      | native name serial => exact (h.native hargs).run ih
      | @closure serial arity body _ locals locals' globals helpers globals' helpers' hbody
          hlocals hglobals hhelpers =>
          cases hbody
          simp only [Host.apply, hargs.length_eq]
          split
          · exact body.eval_agree ih (List.Subset.refl _)
              ⟨hglobals, hhelpers, List.rel_append hlocals hargs⟩
          · exact .throw _
      | _ => exact .throw _

end Runs

end Stencil
