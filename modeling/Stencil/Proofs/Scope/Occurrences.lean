/-
The free names of an expression are its free identifiers: those that stand at some place of it
where nothing around them binds them.  Each is reported once, in the order of the first places.
-/
import Mathlib.Data.List.Basic
import Stencil.Proofs.Scope.FreeNames

namespace Stencil

section Slots

variable {name : String} {scope : List String}

theorem slot?_eq_none_iff : slot? name scope = none ↔ name ∉ scope := by
  induction scope with
  | nil => simp [slot?]
  | cons bound scope ih =>
      cases hslot : slot? name scope with
      | none => simp [slot?, hslot, ih.mp hslot, eq_comm]
      | some i =>
          have hmem : name ∈ scope := by
            by_contra hnot
            rw [ih.mpr hnot] at hslot
            cases hslot
          simp [slot?, hslot, hmem]

end Slots

section Parts

variable {scope inner : List String} {e part : Expr}

theorem sizeOf_lt_of_mem_partsOfClauses {clauses : List Clause}
    (h : (inner, part) ∈ partsOfClauses scope clauses) : sizeOf part < sizeOf clauses := by
  induction clauses generalizing scope with
  | nil => cases h
  | cons clause rest ih =>
      obtain ⟨targets, source, conditions⟩ := clause
      simp only [partsOfClauses, List.mem_append, List.mem_cons, List.mem_map, Prod.mk.injEq] at h
      simp only [List.cons.sizeOf_spec, Clause.mk.sizeOf_spec]
      rcases h with (⟨-, rfl⟩ | ⟨condition, hcondition, -, rfl⟩) | hrest
      · omega
      · have hlt := List.sizeOf_lt_of_mem hcondition
        omega
      · have hlt := ih hrest
        omega

/-- The parts of an expression are smaller than the whole. -/
theorem Expr.sizeOf_lt_of_mem_parts (h : (inner, part) ∈ e.parts scope) :
    sizeOf part < sizeOf e := by
  cases e with
  | literal | ident => cases h
  | list items =>
      simp only [Expr.parts, List.mem_map, Prod.mk.injEq] at h
      obtain ⟨item, hitem, -, rfl⟩ := h
      have hlt := List.sizeOf_lt_of_mem hitem
      simp only [Expr.list.sizeOf_spec]
      omega
  | dict entries =>
      simp only [Expr.parts, List.mem_flatMap, List.mem_cons, Prod.mk.injEq, List.not_mem_nil,
        or_false] at h
      obtain ⟨⟨key, value⟩, hentry, hpart⟩ := h
      have hlt := List.sizeOf_lt_of_mem hentry
      simp only [Prod.mk.sizeOf_spec] at hlt
      simp only [Expr.dict.sizeOf_spec]
      rcases hpart with ⟨-, rfl⟩ | ⟨-, rfl⟩ <;> omega
  | call callee args =>
      simp only [Expr.parts, List.mem_cons, List.mem_map, Prod.mk.injEq] at h
      simp only [Expr.call.sizeOf_spec]
      rcases h with ⟨-, rfl⟩ | ⟨arg, harg, -, rfl⟩
      · omega
      · have hlt := List.sizeOf_lt_of_mem harg
        omega
  | comprehension element clauses =>
      simp only [Expr.parts, List.mem_append, List.mem_singleton, Prod.mk.injEq] at h
      simp only [Expr.comprehension.sizeOf_spec]
      rcases h with hclauses | ⟨-, rfl⟩
      · have hlt := sizeOf_lt_of_mem_partsOfClauses hclauses
        omega
      · omega
  | conditional =>
      simp only [Expr.parts, List.mem_cons, Prod.mk.injEq, List.not_mem_nil, or_false] at h
      simp only [Expr.conditional.sizeOf_spec]
      rcases h with ⟨-, rfl⟩ | ⟨-, rfl⟩ | ⟨-, rfl⟩ <;> omega
  | index | binary | and | or =>
      simp only [Expr.parts, List.mem_cons, Prod.mk.injEq, List.not_mem_nil, or_false] at h
      simp only [Expr.index.sizeOf_spec, Expr.binary.sizeOf_spec, Expr.and.sizeOf_spec,
        Expr.or.sizeOf_spec]
      rcases h with ⟨-, rfl⟩ | ⟨-, rfl⟩ <;> omega
  | member | unary | lambda =>
      simp only [Expr.parts, List.mem_singleton, Prod.mk.injEq] at h
      obtain ⟨-, rfl⟩ := h
      simp only [Expr.member.sizeOf_spec, Expr.unary.sizeOf_spec, Expr.lambda.sizeOf_spec]
      omega

end Parts

/-- The identifiers of an expression, each with the names that are bound where it stands.  The walk
goes through the parts of an expression in their order: the clauses of a comprehension come before
its element, and all other parts stand as in the text. -/
def Expr.identifiers (scope : List String) (e : Expr) : List (List String × String) :=
  e.name?.toList.map (scope, ·) ++
    (e.parts scope).attach.flatMap fun part => part.1.2.identifiers part.1.1
termination_by e
decreasing_by exact Expr.sizeOf_lt_of_mem_parts part.2

/-- Nothing around the identifier binds it, and it is not the table of helpers. -/
def IsFree (place : List String × String) : Prop :=
  place.2 ∉ place.1 ∧ place.2 ≠ helpersName

instance (place : List String × String) : Decidable (IsFree place) :=
  inferInstanceAs (Decidable (_ ∧ _))

/-- The free identifiers of an expression in the order of the walk, as often as they occur. -/
def Expr.freeIdentifiers (e : Expr) : List String :=
  ((e.identifiers []).filter fun place => decide (IsFree place)).map Prod.snd

section Walk

variable {scope : List String} {whole e : Expr} {name : String}

theorem Expr.identifiers_eq (scope : List String) (e : Expr) :
    e.identifiers scope = e.name?.toList.map (scope, ·) ++
      (e.parts scope).flatMap fun part => part.2.identifiers part.1 := by
  rw [Expr.identifiers]
  congr 1
  conv_rhs => rw [← List.attach_map_subtype_val (e.parts scope), List.flatMap_map]

/-- The places of identifiers are the places where a part is one. -/
theorem Expr.mem_identifiers_iff {place : List String × String} :
    place ∈ whole.identifiers [] ↔
      ∃ range, whole.Within place.1 (.ident place.2 range) := by
  constructor
  · have hwithin : ∀ {scope : List String} {e : Expr}, whole.Within scope e →
        place ∈ e.identifiers scope → ∃ range, whole.Within place.1 (.ident place.2 range) := by
      intro scope e
      induction scope, e using Expr.identifiers.induct with
      | case1 scope e ih =>
          intro he hplace
          rw [Expr.identifiers_eq, List.mem_append, List.mem_flatMap] at hplace
          rcases hplace with hown | ⟨part, hpart, hinner⟩
          · cases e with
            | ident name range =>
                obtain rfl := List.mem_singleton.mp hown
                exact ⟨range, he⟩
            | _ => cases hown
          · exact ih ⟨part, hpart⟩ (.part he hpart) hinner
    exact hwithin .whole
  · rintro ⟨range, hwithin⟩
    have hsubset : ∀ {scope : List String} {e : Expr}, whole.Within scope e →
        e.identifiers scope ⊆ whole.identifiers [] := by
      intro scope e he
      induction he with
      | whole => exact List.Subset.refl _
      | @part scope inner e part _ hpart ih =>
          intro place hplace
          apply ih
          rw [Expr.identifiers_eq, List.mem_append, List.mem_flatMap]
          exact .inr ⟨_, hpart, hplace⟩
    apply hsubset hwithin
    rw [Expr.identifiers_eq]
    exact List.mem_append_left _ (List.mem_singleton_self _)

/-- The code of a name looks it up in the context exactly if it is free. -/
theorem globals_ofName (scope : List String) (name : String) :
    (Code.ofName scope name).globals =
      ([(scope, name)].filter fun place => decide (IsFree place)).map Prod.snd := by
  unfold Code.ofName
  cases hslot : slot? name scope with
  | some i =>
      have hbound : name ∈ scope := by
        by_contra hnot
        rw [slot?_eq_none_iff.mpr hnot] at hslot
        cases hslot
      simp [IsFree, Code.globals, hbound]
  | none =>
      have hunbound := slot?_eq_none_iff.mp hslot
      by_cases hhelpers : name = helpersName
      · simp [IsFree, Code.globals, hhelpers]
      · simp [IsFree, Code.globals, hunbound, hhelpers]

/-- The induction is along the walk: at a name the code looks up that name if it is free, and
everywhere else it looks up what the code of the parts does. -/
theorem globals_eq_identifiers (scope : List String) (e : Expr) :
    (Code.ofExpr scope e).globals =
      ((e.identifiers scope).filter fun place => decide (IsFree place)).map Prod.snd := by
  induction scope, e using Expr.identifiers.induct with
  | case1 scope e ih =>
      rw [Expr.identifiers_eq]
      cases hname : e.name? with
      | some name =>
          cases e with
          | ident =>
              cases hname
              rw [Code.ofExpr, globals_ofName]
              rfl
          | _ => cases hname
      | none =>
          rw [globals_eq_flatMap hname, Option.toList_none, List.map_nil, List.nil_append,
            List.filter_flatMap, List.map_flatMap]
          exact List.flatMap_congr fun part hpart => ih ⟨part, hpart⟩

end Walk

section Order

variable {α : Type} [DecidableEq α]

/-- Leaving out other items keeps the order of two items. -/
theorem idxOf_lt_of_filter {p : α → Bool} {l : List α} {a b : α} (ha : p a = true)
    (hb : p b = true) (h : (l.filter p).idxOf a < (l.filter p).idxOf b) :
    l.idxOf a < l.idxOf b := by
  induction l with
  | nil => exact absurd h (Nat.lt_irrefl _)
  | cons c rest ih =>
      by_cases hc : p c = true
      · rw [List.filter_cons_of_pos hc] at h
        by_cases hca : c = a
        · by_cases hcb : c = b
          · simp [hca ▸ hcb] at h
          · simp [hca, hca ▸ hcb]
        · by_cases hcb : c = b
          · simp [List.idxOf_cons, hcb] at h
          · simp only [List.idxOf_cons_ne _ hca, List.idxOf_cons_ne _ hcb] at h ⊢
            exact Nat.succ_lt_succ (ih (Nat.lt_of_succ_lt_succ h))
      · rw [List.filter_cons_of_neg hc] at h
        have hca : c ≠ a := fun heq => hc (heq ▸ ha)
        have hcb : c ≠ b := fun heq => hc (heq ▸ hb)
        rw [List.idxOf_cons_ne _ hca, List.idxOf_cons_ne _ hcb]
        exact Nat.succ_lt_succ (ih h)

/-- What is left of a list without repetitions stands in the order of the first occurrences. -/
theorem pairwise_eraseDups (l : List α) :
    l.eraseDups.Pairwise fun a b => l.idxOf a < l.idxOf b := by
  cases l with
  | nil => exact .nil
  | cons a rest =>
      rw [List.eraseDups_cons]
      have hne : ∀ b ∈ (rest.filter fun b => !b == a).eraseDups, b ≠ a := by
        intro b hb
        simpa using (List.mem_filter.mp (List.mem_eraseDups.mp hb)).2
      apply List.Pairwise.cons
      · intro b hb
        rw [List.idxOf_cons_self, List.idxOf_cons_ne _ (hne b hb).symm]
        exact Nat.succ_pos _
      · refine (pairwise_eraseDups (rest.filter fun b => !b == a)).imp_of_mem ?_
        intro b c hb hc hlt
        rw [List.idxOf_cons_ne _ (hne b hb).symm, List.idxOf_cons_ne _ (hne c hc).symm]
        apply Nat.succ_lt_succ
        exact idxOf_lt_of_filter (by simpa using hne b hb) (by simpa using hne c hc) hlt
termination_by l.length
decreasing_by
  rw [List.length_cons]
  exact Nat.lt_succ_of_le (List.length_filter_le _ _)

end Order

theorem Expr.mem_freeIdentifiers_iff {e : Expr} {name : String} :
    name ∈ e.freeIdentifiers ↔
      ∃ scope range, e.Within scope (.ident name range) ∧ name ∉ scope ∧ name ≠ helpersName := by
  simp only [Expr.freeIdentifiers, List.mem_map, List.mem_filter, Expr.mem_identifiers_iff,
    decide_eq_true_eq, Prod.exists, exists_eq_right]
  constructor
  · rintro ⟨scope, ⟨range, hwithin⟩, hfree⟩
    exact ⟨scope, range, hwithin, hfree⟩
  · rintro ⟨scope, range, hwithin, hfree⟩
    exact ⟨scope, ⟨range, hwithin⟩, hfree⟩

theorem freeNames_eq_eraseDups (source : List Char) (e : Expr) :
    (Expression.ofExpr source e).freeNames = e.freeIdentifiers.eraseDups :=
  congrArg List.eraseDups (globals_eq_identifiers [] e)

/-- An expression reports a name exactly if the name stands at a place where nothing around it
binds it, unless it is the name of the helpers; each name once, in the order of the first places at
which the walk meets it free. -/
theorem freeNames_exact (source : List Char) (e : Expr) :
    (∀ name, name ∈ (Expression.ofExpr source e).freeNames ↔
      ∃ scope range, e.Within scope (.ident name range) ∧ name ∉ scope ∧ name ≠ helpersName) ∧
    (Expression.ofExpr source e).freeNames.Nodup ∧
    (Expression.ofExpr source e).freeNames.Pairwise fun name later =>
      e.freeIdentifiers.idxOf name < e.freeIdentifiers.idxOf later := by
  have horder := pairwise_eraseDups e.freeIdentifiers
  rw [freeNames_eq_eraseDups]
  refine ⟨fun name => ?_, ?_, horder⟩
  · rw [List.mem_eraseDups, Expr.mem_freeIdentifiers_iff]
  · exact horder.imp fun hlt heq => absurd (heq ▸ hlt) (Nat.lt_irrefl _)

/-- `[x + y for x in x for y in z if x]`: the iterable of the first clause is outside the scope of
its target, and the condition of the second one is inside. -/
example : (Expression.ofExpr [] (.comprehension (.binary .add (.ident "x" {}) (.ident "y" {}) {})
    [.mk ["x"] (.ident "x" {}) [], .mk ["y"] (.ident "z" {}) [.ident "x" {}]] {})).freeNames =
      ["x", "z"] := by
  decide

end Stencil
