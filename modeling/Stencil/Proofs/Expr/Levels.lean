/-
How an expression is read: how many levels are open while each part of it is read, and how many
tokens the part takes.
-/
import Mathlib.Algebra.GroupWithZero.Nat
import Stencil.Expr.Stream
import Stencil.Proofs.Expr.Grammar

namespace Stencil
namespace Expr

/-- What is being read.  A chain keeps the level of each of its operators open until it ends. -/
inductive Stage where
  | expr | disjunction | disjuncts | conjunction | negation
  /-- Comparisons; the last of their operands is `last`. -/
  | comparison (last : Expr)
  | arithmetic | unary | power | suffixed | primary

/-- A part of an expression, and the number of tokens that it takes. -/
structure Share where
  tokens : Nat
  tree : Expr

/-- The number of tokens that some parts take together. -/
def totalTokens (shares : List Share) : Nat := (shares.map (·.tokens)).sum

@[simp] theorem totalTokens_nil : totalTokens [] = 0 := rfl

@[simp] theorem totalTokens_cons (p : Share) (shares : List Share) :
    totalTokens (p :: shares) = p.tokens + totalTokens shares := rfl

theorem totalTokens_append (xs ys : List Share) :
    totalTokens (xs ++ ys) = totalTokens xs + totalTokens ys := by
  rw [totalTokens, List.map_append, List.sum_append]
  rfl

/-- One `for targets in source if condition …`. -/
structure ClauseShare where
  targets : List String
  source : Share
  conditions : List Share

namespace ClauseShare

def tree (c : ClauseShare) : Clause := .mk c.targets c.source.tree (c.conditions.map (·.tree))

/-- The parts of a clause that are expressions. -/
def parts (c : ClauseShare) : List Share := c.source :: c.conditions

end ClauseShare

/-- An entry of a dict. -/
structure EntryShare where
  key : Share
  value : Share

namespace EntryShare

def tree (entry : EntryShare) : Expr × Expr := (entry.key.tree, entry.value.tree)

def parts (entry : EntryShare) : List Share := [entry.key, entry.value]

end EntryShare

/-- `Builds stage depth chain n e`: where `depth` levels are open, `n` tokens are read as `e`,
and `chain` more levels are open behind them.  The number of commas is left open. -/
inductive Builds : Stage → (depth chain n : Nat) → Expr → Prop where
  | literal {depth : Nat} (value : Literal) (range : Range) :
      depth ≤ maxDepth → Builds .primary depth 0 1 (.literal value range)
  | name {depth : Nat} (name : String) (range : Range) :
      depth ≤ maxDepth → Builds .primary depth 0 1 (.ident name range)
  | paren {depth n : Nat} {e : Expr} (range : Range) :
      Builds .expr (depth + 1) 0 n e → Builds .primary depth 0 (n + 2) (e.withRange range)
  | list {depth n : Nat} (items : List Share) (range : Range) :
      depth ≤ maxDepth → (∀ p ∈ items, Builds .expr (depth + 1) 0 p.tokens p.tree) →
        totalTokens items + 2 ≤ n →
          Builds .primary depth 0 n (.list (items.map (·.tree)) range)
  | dict {depth n : Nat} {entries : List EntryShare} (range : Range) :
      depth ≤ maxDepth →
        (∀ entry ∈ entries, ∀ p ∈ entry.parts, Builds .expr (depth + 1) 0 p.tokens p.tree) →
          totalTokens (entries.flatMap EntryShare.parts) + 2 ≤ n →
            Builds .primary depth 0 n (.dict (entries.map EntryShare.tree) range)
  | comprehension {depth m n : Nat} {element : Expr} {clauses : List ClauseShare}
      (range : Range) :
      Builds .expr (depth + 1) 0 m element →
        (∀ c ∈ clauses, ∀ p ∈ c.parts, Builds .disjunction depth 0 p.tokens p.tree) →
          m + totalTokens (clauses.flatMap ClauseShare.parts) + 2 ≤ n →
            Builds .primary depth 0 n
              (.comprehension element (clauses.map ClauseShare.tree) range)
  | suffixed {depth n : Nat} {e : Expr} :
      Builds .primary depth 0 n e → Builds .suffixed depth 0 n e
  | member {depth chain n : Nat} {e : Expr} (name : String) (range : Range) :
      Builds .suffixed depth chain n e → depth + chain < maxDepth →
        Builds .suffixed depth (chain + 1) (n + 2) (.member e name range)
  | index {depth chain n m : Nat} {e position : Expr} (range : Range) :
      Builds .suffixed depth chain n e → Builds .expr (depth + chain + 2) 0 m position →
        Builds .suffixed depth (chain + 1) (n + m + 2) (.index e position range)
  | call {depth chain n m : Nat} {e : Expr} {args : List Share} (range : Range) :
      Builds .suffixed depth chain n e → depth + chain < maxDepth →
        (∀ p ∈ args, Builds .expr (depth + chain + 2) 0 p.tokens p.tree) →
          totalTokens args + 2 ≤ m →
            Builds .suffixed depth (chain + 1) (n + m) (.call e (args.map (·.tree)) range)
  | power {depth chain n : Nat} {e : Expr} :
      Builds .suffixed depth chain n e → Builds .power depth 0 n e
  | pow {depth chain n m : Nat} {base exponent : Expr} (range : Range) :
      Builds .suffixed depth chain n base → Builds .unary (depth + 1) 0 m exponent →
        Builds .power depth 0 (n + 1 + m) (.binary .pow base exponent range)
  | sign {depth n : Nat} {e : Expr} (op : UnaryOp) (range : Range) :
      Builds .unary (depth + 1) 0 n e → Builds .unary depth 0 (n + 1) (.unary op e range)
  | unary {depth n : Nat} {e : Expr} : Builds .power depth 0 n e → Builds .unary depth 0 n e
  | arithmetic {depth n : Nat} {e : Expr} :
      Builds .unary depth 0 n e → Builds .arithmetic depth 0 n e
  | term {depth chain more n m : Nat} {lhs rhs : Expr} (op : BinaryOp) (range : Range) :
      Builds .arithmetic depth chain n lhs →
        Builds .arithmetic (depth + chain + 1) more m rhs →
          Builds .arithmetic depth (chain + 1) (n + op.spelling.length + m)
            (.binary op lhs rhs range)
  | pair {depth chain more n m : Nat} {lhs rhs : Expr} {op : BinaryOp} (range : Range) :
      Builds .arithmetic depth chain n lhs → op.level = .comparison →
        Builds .arithmetic (depth + 1) more m rhs →
          Builds (.comparison rhs) depth 1 (n + op.spelling.length + m)
            (.binary op lhs rhs range)
  /-- The last operand is compared once more. -/
  | link {depth chain more n m : Nat} {e last rhs : Expr} {op : BinaryOp}
      (pairRange range : Range) :
      Builds (.comparison last) depth chain n e → op.level = .comparison →
        Builds .arithmetic (depth + chain + 1) more m rhs →
          Builds (.comparison rhs) depth (chain + 1) (n + op.spelling.length + m)
            (.and e (.binary op last rhs pairRange) range)
  | operand {depth chain n : Nat} {e : Expr} :
      Builds .arithmetic depth chain n e → Builds .negation depth 0 n e
  | compared {depth chain n : Nat} {e last : Expr} :
      Builds (.comparison last) depth chain n e → Builds .negation depth 0 n e
  | not {depth n : Nat} {e : Expr} (range : Range) :
      Builds .negation (depth + 1) 0 n e →
        Builds .negation depth 0 (n + 1) (.unary .not e range)
  | conjunction {depth n : Nat} {e : Expr} :
      Builds .negation depth 0 n e → Builds .conjunction depth 0 n e
  | and {depth chain n m : Nat} {lhs rhs : Expr} (range : Range) :
      Builds .conjunction depth chain n lhs → Builds .negation (depth + chain + 1) 0 m rhs →
        Builds .conjunction depth (chain + 1) (n + 1 + m) (.and lhs rhs range)
  | disjuncts {depth chain n : Nat} {e : Expr} :
      Builds .conjunction depth chain n e → Builds .disjuncts depth 0 n e
  | or {depth chain more n m : Nat} {lhs rhs : Expr} (range : Range) :
      Builds .disjuncts depth chain n lhs →
        Builds .conjunction (depth + chain + 1) more m rhs →
          Builds .disjuncts depth (chain + 1) (n + 1 + m) (.or lhs rhs range)
  | disjunction {depth chain n : Nat} {e : Expr} :
      Builds .disjuncts depth chain n e → Builds .disjunction depth 0 n e
  | expr {depth n : Nat} {e : Expr} :
      Builds .disjunction depth 0 n e → Builds .expr depth 0 n e
  | conditional {depth n m k : Nat} {yes cond no : Expr} (range : Range) :
      Builds .disjunction depth 0 n yes → Builds .disjunction depth 0 m cond →
        Builds .expr (depth + 1) 0 k no →
          Builds .expr depth 0 (n + m + k + 2) (.conditional yes cond no range)
  | lambda {depth n m : Nat} {body : Expr} (params : List String) (range : Range) :
      Builds .expr (depth + 1) 0 n body → n + 2 ≤ m →
        Builds .expr depth 0 m (.lambda params body range)

/-- No more levels are open than there are. -/
theorem Builds.depth_le {stage : Stage} {depth chain n : Nat} {e : Expr}
    (h : Builds stage depth chain n e) : depth + chain ≤ maxDepth := by
  induction h with
  | literal _ _ hdepth => exact hdepth
  | name _ _ hdepth => exact hdepth
  | list _ _ hdepth _ _ _ => exact hdepth
  | dict _ hdepth _ _ _ => exact hdepth
  | _ => omega

end Expr
end Stencil
