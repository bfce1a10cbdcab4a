/-
Syntax trees by their parts: what a node is made of, how each part is reached, and the measures
of a tree that are taken from its parts.
-/
import Mathlib.Data.List.MinMax
import Mathlib.Order.Nat
import Stencil.Proofs.Expr.Levels

namespace Stencil

/-- How the parser reaches a part of an expression from the whole. -/
inductive Step where
  /-- With one level more. -/
  | opened
  /-- On the same level: what was read before its chain or its conditional was known. -/
  | unopened
  /-- On the same level: a source or a condition of a comprehension. -/
  | clause

namespace Expr

/-- The expression has no parts. -/
def isLeaf : Expr → Bool
  | literal .. | ident .. | list [] _ | dict [] _ => true
  | _ => false

/-- How a first operand is reached.  Nothing is below a leaf, so that the level that its
operator opens may count for it. -/
def firstStep (operand : Expr) : Step := if operand.isLeaf then .opened else .unopened

/-- The parts of an expression in the order of the text, and how each is reached. -/
def steps : Expr → List (Step × Expr)
  | literal .. | ident .. => []
  | list items _ => items.map (.opened, ·)
  | dict entries _ => entries.flatMap fun (key, value) => [(.opened, key), (.opened, value)]
  | member value _ _ => [(value.firstStep, value)]
  | index value position _ => [(value.firstStep, value), (.opened, position)]
  | call callee args _ => (callee.firstStep, callee) :: args.map (.opened, ·)
  | unary _ operand _ => [(.opened, operand)]
  | binary _ lhs rhs _ | and lhs rhs _ | or lhs rhs _ =>
      [(lhs.firstStep, lhs), (.opened, rhs)]
  | conditional yes cond no _ =>
      [(yes.firstStep, yes), (cond.firstStep, cond), (.opened, no)]
  | lambda _ body _ => [(.opened, body)]
  | comprehension element clauses _ =>
      (.opened, element) :: clauses.flatMap fun
        | .mk _ source conditions => (.clause, source) :: conditions.map (.clause, ·)

section Fold

variable {β : Type} (f : Expr → List β → β)

mutual

/-- A measure of an expression from the measures of its parts. -/
def fold : Expr → β
  | literal value r => f (literal value r) []
  | ident name r => f (ident name r) []
  | list items r => f (list items r) (foldAll items)
  | dict entries r => f (dict entries r) (foldEntries entries)
  | member value name r => f (member value name r) [value.fold]
  | index value position r => f (index value position r) [value.fold, position.fold]
  | call callee args r => f (call callee args r) (callee.fold :: foldAll args)
  | unary op operand r => f (unary op operand r) [operand.fold]
  | binary op lhs rhs r => f (binary op lhs rhs r) [lhs.fold, rhs.fold]
  | and lhs rhs r => f (and lhs rhs r) [lhs.fold, rhs.fold]
  | or lhs rhs r => f (or lhs rhs r) [lhs.fold, rhs.fold]
  | conditional yes cond no r => f (conditional yes cond no r) [yes.fold, cond.fold, no.fold]
  | lambda params body r => f (lambda params body r) [body.fold]
  | comprehension element clauses r =>
      f (comprehension element clauses r) (element.fold :: foldClauses clauses)

def foldAll : List Expr → List β
  | [] => []
  | e :: rest => e.fold :: foldAll rest

def foldEntries : List (Expr × Expr) → List β
  | [] => []
  | (key, value) :: rest => key.fold :: value.fold :: foldEntries rest

def foldClauses : List Clause → List β
  | [] => []
  | .mk _ source conditions :: rest =>
      source.fold :: (foldAll conditions ++ foldClauses rest)

end

theorem foldAll_eq_map (items : List Expr) : foldAll f items = items.map (·.fold f) := by
  induction items with
  | nil => rfl
  | cons e rest ih => rw [foldAll, List.map_cons, ih]

theorem foldAll_step (step : Step) (items : List Expr) :
    foldAll f items = (items.map (step, ·)).map fun part => part.2.fold f := by
  rw [foldAll_eq_map, List.map_map]
  rfl

/-- A measure is taken from the parts. -/
theorem fold_eq (e : Expr) : e.fold f = f e (e.steps.map fun part => part.2.fold f) := by
  cases e with
  | list items r => rw [fold, steps, foldAll_step f .opened]
  | call callee args r => rw [fold, steps, foldAll_step f .opened, List.map_cons]
  | dict entries r =>
      rw [fold, steps]
      congr 1
      induction entries with
      | nil => rfl
      | cons entry rest ih =>
          obtain ⟨key, value⟩ := entry
          rw [foldEntries, List.flatMap_cons, List.map_append, ← ih]
          rfl
  | comprehension element clauses r =>
      rw [fold, steps, List.map_cons]
      congr 2
      induction clauses with
      | nil => rfl
      | cons clause rest ih =>
          obtain ⟨targets, source, conditions⟩ := clause
          rw [foldClauses, List.flatMap_cons, List.map_append, ← ih, List.map_cons,
            foldAll_step f .clause]
          rfl
  | _ => rfl

end Fold

section Shares

variable (range : Range)

/-- Parts that are all reached in the same way. -/
def reached (step : Step) (shares : List Share) : List (Step × Expr) :=
  shares.map fun p => (step, p.tree)

theorem map_reached (step : Step) (shares : List Share) :
    (reached step shares).map (·.2) = shares.map (·.tree) := List.map_map ..

theorem forall_mem_reached {step : Step} {shares : List Share} {P : Step × Expr → Prop} :
    (∀ part ∈ reached step shares, P part) ↔ ∀ p ∈ shares, P (step, p.tree) :=
  List.forall_mem_map

theorem steps_list (items : List Share) :
    (list (items.map (·.tree)) range).steps = reached .opened items := List.map_map ..

theorem steps_call (callee : Expr) (args : List Share) :
    (call callee (args.map (·.tree)) range).steps =
      (callee.firstStep, callee) :: reached .opened args :=
  congrArg _ (List.map_map ..)

theorem steps_dict (entries : List EntryShare) :
    (dict (entries.map EntryShare.tree) range).steps =
      reached .opened (entries.flatMap EntryShare.parts) := by
  rw [steps, reached, List.flatMap_map, List.map_flatMap]
  rfl

theorem steps_comprehension (element : Expr) (clauses : List ClauseShare) :
    (comprehension element (clauses.map ClauseShare.tree) range).steps =
      (.opened, element) :: reached .clause (clauses.flatMap ClauseShare.parts) := by
  rw [steps, reached, List.flatMap_map, List.map_flatMap]
  congr 2
  funext c
  simp [ClauseShare.tree, ClauseShare.parts]

end Shares

/-- The greatest of some numbers, and 0 of none. -/
def greatest (numbers : List Nat) : Nat := numbers.foldr max 0

theorem le_greatest {numbers : List Nat} {n : Nat} (h : n ∈ numbers) : n ≤ greatest numbers :=
  List.le_max_of_le' 0 h le_rfl

theorem greatest_le {numbers : List Nat} {n : Nat} (h : ∀ m ∈ numbers, m ≤ n) :
    greatest numbers ≤ n :=
  List.max_le_of_forall_le numbers n h

end Expr
end Stencil
