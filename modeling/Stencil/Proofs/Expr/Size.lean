/-
How large a syntax tree is.  A node is made of at least one token, but a chain of comparisons
repeats its inner operands, and operands that repeat operands double the tree each time.
-/
import Mathlib.Algebra.Order.Monoid.Unbundled.Pow
import Stencil.Code.Compile
import Stencil.Proofs.Expr.Building
import Stencil.Proofs.Expr.Parts

namespace Stencil
namespace Expr

/-- The number of nodes of a tree. -/
def nodes (e : Expr) : Nat := e.fold fun _ parts => parts.sum + 1

/-- The right operand of a comparison, or of the last comparison of a chain. -/
def lastCompared? : Expr → Option Expr
  | binary op _ rhs _ => if op.level = .comparison then some rhs else none
  | and _ rhs _ => rhs.lastCompared?
  | _ => none

/-- The comparison `rhs` starts with the operand that `lhs` ends with: both are read from the
same place. -/
def repeats (lhs rhs : Expr) : Bool :=
  match lhs.lastCompared?, rhs with
  | some last, binary op first _ _ => op.level = .comparison && last.range = first.range
  | _, _ => false

/-- How many repeated operands lie in one another, from what the parts have.  The first operand
of a comparison counts if it is said to be repeated. -/
def copiesAt (e : Expr) (parts : List (Bool → Nat)) (again : Bool) : Nat :=
  match e, parts with
  | binary .., [lhs, rhs] => max (lhs false + again.toNat) (rhs false)
  | and lhs rhs _, [left, right] => max (left false) (right (lhs.repeats rhs))
  | _, parts => greatest (parts.map (· false))

def copiesWith (e : Expr) : Bool → Nat := e.fold copiesAt

/-- The greatest number of repeated operands of chains of comparisons that lie in one
another. -/
def copies (e : Expr) : Nat := e.copiesWith false

theorem nodes_eq (e : Expr) : e.nodes = (e.steps.map fun part => part.2.nodes).sum + 1 :=
  fold_eq ..

theorem nodes_withRange (r : Range) (e : Expr) : (e.withRange r).nodes = e.nodes := by
  cases e <;> rfl

theorem copies_withRange (r : Range) (e : Expr) : (e.withRange r).copies = e.copies := by
  cases e <;> rfl

theorem copiesWith_binary (op : BinaryOp) (lhs rhs : Expr) (r : Range) (again : Bool) :
    (binary op lhs rhs r).copiesWith again = max (lhs.copies + again.toNat) rhs.copies := rfl

theorem nodes_binary (op : BinaryOp) (lhs rhs : Expr) (r : Range) :
    (binary op lhs rhs r).nodes = lhs.nodes + rhs.nodes + 1 := rfl

theorem nodes_and (lhs rhs : Expr) (r : Range) :
    (and lhs rhs r).nodes = lhs.nodes + rhs.nodes + 1 := rfl

theorem copies_and (lhs rhs : Expr) (r : Range) :
    (and lhs rhs r).copies = max lhs.copies (rhs.copiesWith (lhs.repeats rhs)) := rfl

theorem copies_le_copiesWith (e : Expr) (again : Bool) : e.copies ≤ e.copiesWith again := by
  cases e with
  | binary op lhs rhs r =>
      rw [copies, copiesWith_binary, copiesWith_binary]
      exact max_le_max_right _ (Nat.add_le_add_left (Nat.zero_le _) _)
  | _ => exact Nat.le_refl _

theorem copies_eq (e : Expr) :
    e.copies = copiesAt e (e.steps.map fun part => part.2.copiesWith) false :=
  congrFun (fold_eq copiesAt e) false

theorem copies_part_le {e : Expr} {part : Step × Expr} (h : part ∈ e.steps) :
    part.2.copies ≤ e.copies := by
  have hmem := List.mem_map_of_mem (f := fun part => part.2.copiesWith) h
  rw [copies_eq e]
  cases e with
  | binary op lhs rhs r =>
      simp only [steps, List.mem_cons, List.not_mem_nil, or_false] at h
      rcases h with rfl | rfl
      · exact le_max_left ..
      · exact le_max_right ..
  | and lhs rhs r =>
      simp only [steps, List.mem_cons, List.not_mem_nil, or_false] at h
      rcases h with rfl | rfl
      · exact le_max_left ..
      · exact le_max_of_le_right (copies_le_copiesWith ..)
  | _ => exact le_greatest (List.mem_map.mpr ⟨_, hmem, rfl⟩)

/-- A link of a chain repeats the last operand. -/
theorem copies_lt_link {e last : Expr} {op : BinaryOp} (hlast : e.lastCompared? = some last)
    (hop : op.level = .comparison) (rhs : Expr) (pairRange range : Range) :
    last.copies < (and e (binary op last rhs pairRange) range).copies := by
  have hrepeats : e.repeats (binary op last rhs pairRange) = true := by
    simp [repeats, hlast, hop]
  rw [copies_and, hrepeats, copiesWith_binary]
  exact lt_max_of_lt_right (lt_max_of_lt_left (Nat.lt_succ_self _))

/-- The tree is no larger than its `n` tokens, if each of them counts twice for every repeated
operand that it may lie in. -/
def Fits (n : Nat) (e : Expr) : Prop := ∀ k, e.copies ≤ k → e.nodes ≤ n * 2 ^ k

theorem Fits.withRange {n : Nat} {e : Expr} (h : Fits n e) (r : Range) :
    Fits (n + 2) (e.withRange r) := by
  intro k hk
  rw [copies_withRange] at hk
  rw [nodes_withRange]
  exact Nat.le_trans (h k hk) (Nat.mul_le_mul_right _ (Nat.le_add_right n 2))

/-- A node takes a token of its own. -/
theorem fits_of_parts {e : Expr} {n : Nat} (shares : List Share)
    (hparts : e.steps.map (·.2) = shares.map (·.tree))
    (hfits : ∀ p ∈ shares, Fits p.tokens p.tree) (htotal : totalTokens shares < n) :
    Fits n e := by
  intro k hk
  have hsum : ∀ xs : List Share, xs ⊆ shares →
      (xs.map fun p => p.tree.nodes).sum ≤ totalTokens xs * 2 ^ k := by
    intro xs hxs
    induction xs with
    | nil => exact Nat.zero_le _
    | cons p xs ih =>
        obtain ⟨hp, hxs⟩ := List.cons_subset.mp hxs
        have hpart : p.tree ∈ e.steps.map (·.2) := hparts ▸ List.mem_map.mpr ⟨p, hp, rfl⟩
        obtain ⟨part, hmem, htree⟩ := List.mem_map.mp hpart
        have hcopies := copies_part_le hmem
        rw [htree] at hcopies
        have hfirst := hfits p hp k (hcopies.trans hk)
        rw [List.map_cons, List.sum_cons, totalTokens_cons, Nat.add_mul]
        exact Nat.add_le_add hfirst (ih hxs)
  have hnodes : e.nodes = (shares.map fun p => p.tree.nodes).sum + 1 := by
    have hmap := congrArg (List.map nodes) hparts
    rw [List.map_map, List.map_map] at hmap
    rw [nodes_eq]
    exact congrArg (List.sum · + 1) hmap
  calc e.nodes = (shares.map fun p => p.tree.nodes).sum + 1 := hnodes
    _ ≤ totalTokens shares * 2 ^ k + 2 ^ k :=
        Nat.add_le_add (hsum shares (List.Subset.refl _)) (Nat.one_le_two_pow)
    _ = (totalTokens shares + 1) * 2 ^ k := (Nat.succ_mul ..).symm
    _ ≤ n * 2 ^ k := Nat.mul_le_mul_right _ htotal

theorem fits_unary {n k : Nat} {e operand : Expr} (hoperand : Fits n operand)
    (hparts : e.steps.map (·.2) = [operand]) (hk : n < k) : Fits k e := by
  apply fits_of_parts [⟨n, operand⟩] hparts
  · simp [hoperand]
  · simpa using hk

theorem fits_binary {n m k : Nat} {e lhs rhs : Expr} (hlhs : Fits n lhs) (hrhs : Fits m rhs)
    (hparts : e.steps.map (·.2) = [lhs, rhs]) (hk : n + m < k) : Fits k e := by
  apply fits_of_parts [⟨n, lhs⟩, ⟨m, rhs⟩] hparts
  · simp [hlhs, hrhs]
  · simpa using hk

/-- The trees of a stage fit.  A chain of comparisons has room for its last operand once
more. -/
def FitsStage : Stage → Nat → Expr → Prop
  | .comparison last, n, e => Fits n e ∧ e.lastCompared? = some last ∧
      ∀ k, e.copies ≤ k → last.copies < k → e.nodes + last.nodes < n * 2 ^ k
  | _, n, e => Fits n e

section Chains

variable {n m k : Nat} {e last lhs rhs : Expr} {op : BinaryOp}

/-- One more level of repetition pays for the tree twice. -/
theorem Fits.twice (h : Fits n e) (hk : e.copies < k) : 2 * e.nodes ≤ n * 2 ^ k := by
  obtain ⟨k, rfl⟩ := Nat.exists_eq_succ_of_ne_zero (Nat.ne_zero_of_lt hk)
  have hnodes := h k (Nat.le_of_lt_succ hk)
  rw [Nat.pow_succ, ← Nat.mul_assoc, Nat.mul_comm _ 2]
  exact Nat.mul_le_mul_left 2 hnodes

theorem two_le_spelling (op : BinaryOp) (hk : 0 < k) : 2 ≤ op.spelling.length * 2 ^ k := by
  have hspelling := List.length_pos_iff.mpr op.spelling_ne_nil
  have hpow : 2 ≤ 2 ^ k := Nat.le_self_pow hk.ne' 2
  exact Nat.le_trans hpow (Nat.le_mul_of_pos_left _ hspelling)

theorem fitsStage_pair (hlhs : Fits n lhs) (hop : op.level = .comparison) (hrhs : Fits m rhs)
    (range : Range) :
    FitsStage (.comparison rhs) (n + op.spelling.length + m) (binary op lhs rhs range) := by
  have hspelling := List.length_pos_iff.mpr op.spelling_ne_nil
  refine ⟨?_, ?_, ?_⟩
  · exact fits_binary hlhs hrhs rfl (by omega)
  · rw [lastCompared?, if_pos hop]
  · intro k hk hlast
    have hfirst := hlhs k (Nat.le_trans (le_max_left ..) hk)
    have htwice := hrhs.twice hlast
    have hroom := two_le_spelling op (Nat.zero_lt_of_lt hlast)
    rw [nodes_binary, Nat.add_mul, Nat.add_mul]
    omega

theorem fitsStage_link (he : FitsStage (.comparison last) n e) (hop : op.level = .comparison)
    (hrhs : Fits m rhs) (pairRange range : Range) :
    FitsStage (.comparison rhs) (n + op.spelling.length + m)
      (and e (binary op last rhs pairRange) range) := by
  obtain ⟨-, hlast, hroom⟩ := he
  have hlink := copies_lt_link hlast hop rhs pairRange range
  have hleft : e.copies ≤ (and e (binary op last rhs pairRange) range).copies := le_max_left ..
  have hright : rhs.copies ≤ (and e (binary op last rhs pairRange) range).copies := by
    rw [copies_and, copiesWith_binary]
    exact le_max_of_le_right (le_max_right ..)
  refine ⟨?_, ?_, ?_⟩
  · intro k hk
    have hbefore := hroom k (hleft.trans hk) (hlink.trans_le hk)
    have hafter := hrhs k (hright.trans hk)
    have hspelling := two_le_spelling op (Nat.zero_lt_of_lt (hlink.trans_le hk))
    rw [nodes_and, nodes_binary, Nat.add_mul, Nat.add_mul]
    omega
  · rw [lastCompared?, lastCompared?, if_pos hop]
  · intro k hk hagain
    have hbefore := hroom k (hleft.trans hk) (hlink.trans_le hk)
    have htwice := hrhs.twice hagain
    have hspelling := two_le_spelling op (Nat.zero_lt_of_lt hagain)
    rw [nodes_and, nodes_binary, Nat.add_mul, Nat.add_mul]
    omega

end Chains

theorem Builds.fits {stage : Stage} {depth chain n : Nat} {e : Expr}
    (h : Builds stage depth chain n e) : FitsStage stage n e := by
  induction h with
  | literal | name => exact fits_of_parts [] rfl nofun Nat.one_pos
  | paren range _ ih => exact ih.withRange range
  | list _ range _ _ htotal ih =>
      apply fits_of_parts _ _ ih (by omega)
      rw [steps_list, map_reached]
  | dict range _ _ htotal ih =>
      apply fits_of_parts _ _ _ (Nat.lt_of_succ_le (Nat.le_of_succ_le htotal))
      · rw [steps_dict, map_reached]
      · intro p hp
        obtain ⟨entry, hentry, hp⟩ := List.mem_flatMap.mp hp
        exact ih entry hentry p hp
  | @comprehension _ m _ element _ range _ _ htotal ih ihc =>
      apply fits_of_parts (⟨m, element⟩ :: _)
      · rw [steps_comprehension, List.map_cons, map_reached, List.map_cons]
      · refine List.forall_mem_cons.mpr ⟨ih, fun p hp => ?_⟩
        obtain ⟨c, hc, hp⟩ := List.mem_flatMap.mp hp
        exact ihc c hc p hp
      · simp only [totalTokens_cons]
        omega
  | @call _ _ n _ callee _ range _ _ _ htotal ih iha =>
      apply fits_of_parts (⟨n, callee⟩ :: _)
      · rw [steps_call, List.map_cons, map_reached, List.map_cons]
      · exact List.forall_mem_cons.mpr ⟨ih, iha⟩
      · simp only [totalTokens_cons]
        omega
  | member _ _ _ _ ih | sign _ _ _ ih | not _ _ ih => exact fits_unary ih rfl (by omega)
  | lambda params range _ hle ih => exact fits_unary ih rfl (by omega)
  | index range _ _ ihl ihr | pow range _ _ ihl ihr | and range _ _ ihl ihr
  | or range _ _ ihl ihr => exact fits_binary ihl ihr rfl (by omega)
  | term op range _ _ ihl ihr =>
      have hspelling := List.length_pos_iff.mpr op.spelling_ne_nil
      exact fits_binary ihl ihr rfl (by omega)
  | @conditional _ n m k yes cond no range _ _ _ ihy ihc ihn =>
      apply fits_of_parts [⟨n, yes⟩, ⟨m, cond⟩, ⟨k, no⟩] rfl
      · simpa using ⟨ihy, ihc, ihn⟩
      · simp only [totalTokens_cons, totalTokens_nil]
        omega
  | pair range _ hop _ ihl ihr => exact fitsStage_pair ihl hop ihr range
  | link pairRange range _ hop _ ih ihr => exact fitsStage_link ih hop ihr pairRange range
  | compared _ ih => exact ih.1
  | suffixed _ ih | power _ ih | unary _ ih | arithmetic _ ih | operand _ ih | conjunction _ ih
  | disjuncts _ ih | disjunction _ ih | expr _ ih => exact ih

theorem Builds.nodes_le {depth n : Nat} {e : Expr} (h : Builds .expr depth 0 n e) :
    e.nodes ≤ n * 2 ^ e.copies :=
  h.fits e.copies (Nat.le_refl _)

end Expr

mutual

/-- The number of nodes of the code. -/
def Code.nodes : Code → Nat
  | .literal _ | .slot .. | .helpers | .global _ => 1
  | .list items => nodesOfAll items + 1
  | .dict entries => nodesOfEntries entries + 1
  | .member value _ => value.nodes + 1
  | .index value position => value.nodes + position.nodes + 1
  | .call callee args => callee.nodes + nodesOfAll args + 1
  | .unary _ operand => operand.nodes + 1
  | .binary _ lhs rhs | .and lhs rhs | .or lhs rhs => lhs.nodes + rhs.nodes + 1
  | .conditional yes cond no => yes.nodes + cond.nodes + no.nodes + 1
  | .lambda _ body => body.nodes + 1
  | .comprehension element clauses => element.nodes + nodesOfClauses clauses + 1

def nodesOfAll : List Code → Nat
  | [] => 0
  | code :: rest => code.nodes + nodesOfAll rest

def nodesOfEntries : List (Code × Code) → Nat
  | [] => 0
  | (key, value) :: rest => key.nodes + value.nodes + nodesOfEntries rest

def nodesOfClauses : List CodeClause → Nat
  | [] => 0
  | .mk _ source conditions :: rest =>
      source.nodes + nodesOfAll conditions + nodesOfClauses rest

end

mutual

/-- Every node of a tree becomes one node of code. -/
theorem nodes_ofExpr : (e : Expr) → (scope : List String) → (Code.ofExpr scope e).nodes = e.nodes
  | .literal .., _ => rfl
  | .ident name _, scope => by
      rw [Code.ofExpr, Code.ofName]
      split
      · rfl
      · split <;> rfl
  | .list items _, scope => by
      rw [Code.ofExpr, Code.nodes, nodesOfAll_ofExprs items scope]
      rfl
  | .dict entries _, scope => by
      rw [Code.ofExpr, Code.nodes, nodesOfEntries_ofEntries entries scope]
      rfl
  | .member value _ _, scope | .unary _ value _, scope => by
      rw [Code.ofExpr, Code.nodes, nodes_ofExpr value scope]
      rfl
  | .lambda params body _, scope => by
      rw [Code.ofExpr, Code.nodes, nodes_ofExpr body]
      rfl
  | .index lhs rhs _, scope | .binary _ lhs rhs _, scope | .and lhs rhs _, scope
  | .or lhs rhs _, scope => by
      rw [Code.ofExpr, Code.nodes, nodes_ofExpr lhs scope, nodes_ofExpr rhs scope]
      rfl
  | .call callee args _, scope => by
      rw [Code.ofExpr, Code.nodes, nodes_ofExpr callee scope, nodesOfAll_ofExprs args scope]
      rfl
  | .conditional yes cond no _, scope => by
      rw [Code.ofExpr, Code.nodes, nodes_ofExpr yes scope, nodes_ofExpr cond scope,
        nodes_ofExpr no scope, Nat.add_assoc yes.nodes]
      rfl
  | .comprehension element clauses _, scope => by
      rw [Code.ofExpr, Code.nodes, nodes_ofExpr element, nodesOfClauses_ofClauses clauses scope]
      rfl

theorem nodesOfAll_ofExprs : (items : List Expr) → (scope : List String) →
    nodesOfAll (codesOfExprs scope items) =
      (Expr.foldAll (fun _ parts => parts.sum + 1) items).sum
  | [], _ => rfl
  | e :: rest, scope => by
      rw [codesOfExprs, nodesOfAll, nodes_ofExpr e, nodesOfAll_ofExprs rest]
      rfl

theorem nodesOfEntries_ofEntries : (entries : List (Expr × Expr)) → (scope : List String) →
    nodesOfEntries (codesOfEntries scope entries) =
      (Expr.foldEntries (fun _ parts => parts.sum + 1) entries).sum
  | [], _ => rfl
  | (key, value) :: rest, scope => by
      rw [codesOfEntries, nodesOfEntries, nodes_ofExpr key, nodes_ofExpr value,
        nodesOfEntries_ofEntries rest, Nat.add_assoc]
      rfl

theorem nodesOfClauses_ofClauses : (clauses : List Clause) → (scope : List String) →
    nodesOfClauses (codesOfClauses scope clauses) =
      (Expr.foldClauses (fun _ parts => parts.sum + 1) clauses).sum
  | [], _ => rfl
  | .mk targets source conditions :: rest, scope => by
      rw [codesOfClauses, nodesOfClauses, nodes_ofExpr source, nodesOfAll_ofExprs conditions,
        nodesOfClauses_ofClauses rest, Expr.foldClauses, List.sum_cons, List.sum_append,
        Nat.add_assoc]
      rfl

end

namespace Expr

/-- An accepted tree has at most as many nodes as tokens, twice as many for every repeated
operand that lies in another: four times as many, while no more than two lie in one another.  The
code of the tree has just as many nodes. -/
theorem ofTokens?_nodes_le {tokens : List Token} {e : Expr} (h : ofTokens? tokens = .ok e) :
    e.nodes ≤ tokens.length * 2 ^ e.copies ∧
      (e.copies ≤ 2 → e.nodes ≤ 4 * tokens.length) ∧
      ∀ scope, (Code.ofExpr scope e).nodes = e.nodes := by
  obtain ⟨n, hn, htree⟩ := builds_of_ofTokens? h
  refine ⟨?_, ?_, nodes_ofExpr e⟩
  · exact Nat.le_trans htree.nodes_le (Nat.mul_le_mul_right _ hn)
  · intro hcopies
    calc e.nodes ≤ n * 2 ^ 2 := htree.fits 2 hcopies
      _ ≤ tokens.length * 2 ^ 2 := Nat.mul_le_mul_right _ hn
      _ = 4 * tokens.length := Nat.mul_comm ..

namespace RepetitionWitness

/-- The tokens of `a<a<a`, as the middle operand of as many chains `a<(…)<a` as given. -/
def chains : Nat → List TokenKind
  | 0 => [.ident "a", .mark .less, .ident "a", .mark .less, .ident "a"]
  | n + 1 =>
      [.ident "a", .mark .less, .mark .leftParen] ++ chains n
        ++ [.mark .rightParen, .mark .less, .ident "a"]

def tokens (n : Nat) : List Token := placed 1 (chains n ++ [.eof])

/-- Five chains in one another: the 30 tokens of `a<(a<(a<(a<(a<a<a)<a)<a)<a)<a` with their end
are accepted, and make 187 nodes. -/
theorem ofTokens?_chains_exceeds :
    ∃ e, ofTokens? (tokens 4) = .ok e ∧ ¬ e.nodes ≤ 4 * (tokens 4).length := by
  have hnodes : (ofTokens? (tokens 4)).toOption.map nodes = some 187 := by decide +kernel
  obtain ⟨e, hok, he⟩ := ok_of_map_toOption hnodes
  refine ⟨e, hok, ?_⟩
  rw [he]
  decide

/-- One chain in another, `a<(a<a<a)<a`: 12 tokens and 19 nodes. -/
theorem ofTokens?_chains_nodes_le :
    ∃ e, ofTokens? (tokens 1) = .ok e ∧ e.copies = 2 ∧ e.nodes = 19 ∧
      e.nodes ≤ 4 * (tokens 1).length := by
  have hmeasures : (ofTokens? (tokens 1)).toOption.map (fun e => (e.copies, e.nodes)) =
      some (2, 19) := by decide +kernel
  obtain ⟨e, hok, he⟩ := ok_of_map_toOption hmeasures
  obtain ⟨hcopies, hnodes⟩ := Prod.mk.inj he
  exact ⟨e, hok, hcopies, hnodes, (ofTokens?_nodes_le hok).2.1 hcopies.le⟩

end RepetitionWitness

end Expr
end Stencil
