/-
The grammar of expressions, over what tokens are and over syntax trees without ranges.
-/
import Stencil.Expr.Parser

namespace Stencil

mutual

/-- The tree without its ranges. -/
def Expr.bare : Expr → Expr
  | .literal value _ => .literal value {}
  | .ident name _ => .ident name {}
  | .list items _ => .list (bareAll items) {}
  | .dict entries _ => .dict (bareEntries entries) {}
  | .member value name _ => .member value.bare name {}
  | .index value position _ => .index value.bare position.bare {}
  | .call callee args _ => .call callee.bare (bareAll args) {}
  | .unary op operand _ => .unary op operand.bare {}
  | .binary op lhs rhs _ => .binary op lhs.bare rhs.bare {}
  | .and lhs rhs _ => .and lhs.bare rhs.bare {}
  | .or lhs rhs _ => .or lhs.bare rhs.bare {}
  | .conditional yes cond no _ => .conditional yes.bare cond.bare no.bare {}
  | .lambda params body _ => .lambda params body.bare {}
  | .comprehension element clauses _ => .comprehension element.bare (bareClauses clauses) {}

def bareAll : List Expr → List Expr
  | [] => []
  | e :: rest => e.bare :: bareAll rest

def bareEntries : List (Expr × Expr) → List (Expr × Expr)
  | [] => []
  | (key, value) :: rest => (key.bare, value.bare) :: bareEntries rest

def Clause.bare : Clause → Clause
  | .mk targets source conditions => .mk targets source.bare (bareAll conditions)

def bareClauses : List Clause → List Clause
  | [] => []
  | c :: rest => c.bare :: bareClauses rest

end

theorem bareAll_eq_map (items : List Expr) : bareAll items = items.map Expr.bare := by
  induction items with
  | nil => rfl
  | cons e rest ih => rw [bareAll, ih, List.map_cons]

theorem bareEntries_eq_map (entries : List (Expr × Expr)) :
    bareEntries entries = entries.map (Prod.map Expr.bare Expr.bare) := by
  induction entries with
  | nil => rfl
  | cons entry rest ih =>
      obtain ⟨key, value⟩ := entry
      rw [bareEntries, ih, List.map_cons]
      rfl

theorem bareClauses_eq_map (clauses : List Clause) :
    bareClauses clauses = clauses.map Clause.bare := by
  induction clauses with
  | nil => rfl
  | cons c rest ih => rw [bareClauses, ih, List.map_cons]

@[simp] theorem Expr.bare_withRange (e : Expr) (r : Range) : (e.withRange r).bare = e.bare := by
  cases e <;> simp only [Expr.withRange, Expr.bare]

namespace Expr

/-- The levels of the grammar, from the loosest to the tightest. -/
inductive Level where
  | expr | disjunction | conjunction | negation | comparison | sum | product | unary | power
  | suffixed | primary
deriving DecidableEq, Repr

end Expr

namespace BinaryOp

open Stencil.Expr

/-- The tokens that write an operator. -/
def spelling : BinaryOp → List TokenKind
  | eq => [.mark .equalEqual]
  | ne => [.mark .notEqual]
  | lt => [.mark .less]
  | le => [.mark .lessEqual]
  | gt => [.mark .greater]
  | ge => [.mark .greaterEqual]
  | isIn => [.mark .inWord]
  | notIn => [.mark .notWord, .mark .inWord]
  | add => [.mark .plus]
  | sub => [.mark .minus]
  | mul => [.mark .star]
  | div => [.mark .slash]
  | floorDiv => [.mark .doubleSlash]
  | mod => [.mark .percent]
  | pow => [.mark .doubleStar]

/-- The level of what an operator joins. -/
def level : BinaryOp → Level
  | eq | ne | lt | le | gt | ge | isIn | notIn => .comparison
  | add | sub => .sum
  | mul | div | floorDiv | mod => .product
  | pow => .power

end BinaryOp

namespace Expr

/-- A stretch of tokens and the tree that it writes. -/
structure Phrase where
  text : List TokenKind
  tree : Expr

/-- Items with commas between them; a comma may follow the last. -/
def separated (trailing : Bool) : List (List TokenKind) → List TokenKind
  | [] => []
  | [item] => if trailing then item ++ [.mark .comma] else item
  | item :: rest => item ++ .mark .comma :: separated trailing rest

/-- Names with commas between them. -/
def nameList (names : List String) : List TokenKind :=
  separated false (names.map fun name => [.ident name])

theorem nameList_cons (name : String) {names : List String} (hne : names ≠ []) :
    nameList (name :: names) = .ident name :: .mark .comma :: nameList names := by
  obtain ⟨other, others, rfl⟩ := List.exists_cons_of_ne_nil hne
  rfl

/-- The first of the names joins those that were seen before. -/
theorem fresh_cons_iff {name : String} {names seen : List String} :
    ((name :: names).Nodup ∧ ∀ other ∈ name :: names, other ∉ seen) ↔
      name ∉ seen ∧ names.Nodup ∧ ∀ other ∈ names, other ∉ name :: seen := by
  rw [List.nodup_cons, List.forall_mem_cons]
  constructor
  · rintro ⟨⟨hname, hnodup⟩, hseen, hfresh⟩
    refine ⟨hseen, hnodup, fun other hother hmem => ?_⟩
    rcases List.mem_cons.mp hmem with rfl | hold
    · exact hname hother
    · exact hfresh other hother hold
  · rintro ⟨hseen, hnodup, hfresh⟩
    exact ⟨⟨fun hmem => hfresh name hmem List.mem_cons_self, hnodup⟩, hseen,
      fun other hother hold => hfresh other hother (List.mem_cons_of_mem _ hold)⟩

/-- Operators, each with the operand that follows it. -/
abbrev Operands := List (BinaryOp × Phrase)

namespace Operands

def text (operands : Operands) : List TokenKind :=
  operands.flatMap fun (op, operand) => op.spelling ++ operand.text

theorem text_cons (op : BinaryOp) (operand : Phrase) (operands : Operands) :
    text ((op, operand) :: operands) = op.spelling ++ operand.text ++ text operands := rfl

/-- The operators are applied from the left. -/
def leftmost (operands : Operands) (lhs : Expr) : Expr :=
  operands.foldl (fun lhs (op, operand) => .binary op lhs operand.tree {}) lhs

/-- Every operand is compared with the one before it. -/
def pairs : Operands → Expr → List Expr
  | [], _ => []
  | (op, operand) :: rest, lhs => .binary op lhs operand.tree {} :: pairs rest operand.tree

end Operands

/-- All comparisons have to hold, the first two joined first; a lone operand stands for
itself. -/
def conjoined (operand : Expr) : List Expr → Expr
  | [] => operand
  | pair :: pairs => pairs.foldl (.and · · {}) pair

/-- Operands with the same word in front of each. -/
def repeated (word : Mark) (operands : List Phrase) : List TokenKind :=
  operands.flatMap fun operand => .mark word :: operand.text

/-- What can follow a value. -/
inductive Suffix where
  | member (name : String)
  | index (position : Phrase)
  | call (args : List Phrase) (trailing : Bool)

namespace Suffix

def text : Suffix → List TokenKind
  | member name => [.mark .dot, .ident name]
  | index position => .mark .leftBracket :: position.text ++ [.mark .rightBracket]
  | call args trailing =>
      .mark .leftParen :: separated trailing (args.map (·.text)) ++ [.mark .rightParen]

def apply (value : Expr) : Suffix → Expr
  | member name => .member value name {}
  | index position => .index value position.tree {}
  | call args _ => .call value (args.map (·.tree)) {}

/-- The expressions inside a suffix. -/
def phrases : Suffix → List Phrase
  | member _ => []
  | index position => [position]
  | call args _ => args

end Suffix

/-- One `for targets in source if condition …`. -/
structure ClausePhrase where
  targets : List String
  source : Phrase
  conditions : List Phrase

namespace ClausePhrase

/-- What follows the word `for`. -/
def body (c : ClausePhrase) : List TokenKind :=
  nameList c.targets ++ .mark .inWord :: c.source.text ++ repeated .ifWord c.conditions

def tree (c : ClausePhrase) : Clause :=
  .mk c.targets c.source.tree (c.conditions.map (·.tree))

end ClausePhrase

/-- An entry of a dict. -/
structure EntryPhrase where
  key : Phrase
  value : Phrase

namespace EntryPhrase

def text (entry : EntryPhrase) : List TokenKind :=
  entry.key.text ++ .mark .colon :: entry.value.text

def tree (entry : EntryPhrase) : Expr × Expr := (entry.key.tree, entry.value.tree)

end EntryPhrase

/-- The constant that a token writes. -/
def TokenKind.literal? : TokenKind → Option Literal
  | .number n => some (.number n)
  | .string s => some (.string s)
  | .mark .trueWord => some (.bool true)
  | .mark .falseWord => some (.bool false)
  | .mark .noneWord => some .none
  | _ => none

/-- `Derives level text tree`: at this level of the grammar the tokens `text` write `tree`.
Where a rule repeats a part, the parts stand in a list. -/
inductive Derives : Level → List TokenKind → Expr → Prop where
  | lambda {params : List String} {text : List TokenKind} {body : Expr} :
      params.Nodup → Derives .expr text body →
        Derives .expr (.mark .lambdaWord :: nameList params ++ .mark .colon :: text)
          (.lambda params body {})
  | conditional {yes cond no : Phrase} :
      Derives .disjunction yes.text yes.tree → Derives .disjunction cond.text cond.tree →
        Derives .expr no.text no.tree →
          Derives .expr
            (yes.text ++ .mark .ifWord :: cond.text ++ .mark .elseWord :: no.text)
            (.conditional yes.tree cond.tree no.tree {})
  | expr {text : List TokenKind} {tree : Expr} :
      Derives .disjunction text tree → Derives .expr text tree
  | disjunction {first : Phrase} {more : List Phrase} :
      Derives .conjunction first.text first.tree →
        (∀ p ∈ more, Derives .conjunction p.text p.tree) →
          Derives .disjunction (first.text ++ repeated .orWord more)
            (more.foldl (fun lhs p => .or lhs p.tree {}) first.tree)
  | conjunction {first : Phrase} {more : List Phrase} :
      Derives .negation first.text first.tree →
        (∀ p ∈ more, Derives .negation p.text p.tree) →
          Derives .conjunction (first.text ++ repeated .andWord more)
            (more.foldl (fun lhs p => .and lhs p.tree {}) first.tree)
  | not {text : List TokenKind} {operand : Expr} :
      Derives .negation text operand →
        Derives .negation (.mark .notWord :: text) (.unary .not operand {})
  | negation {text : List TokenKind} {tree : Expr} :
      Derives .comparison text tree → Derives .negation text tree
  | comparison {first : Phrase} {more : Operands} :
      Derives .sum first.text first.tree →
        (∀ p ∈ more, p.1.level = .comparison) →
          (∀ p ∈ more, Derives .sum p.2.text p.2.tree) →
            Derives .comparison (first.text ++ more.text)
              (conjoined first.tree (more.pairs first.tree))
  | sum {first : Phrase} {more : Operands} :
      Derives .product first.text first.tree →
        (∀ p ∈ more, p.1.level = .sum) →
          (∀ p ∈ more, Derives .product p.2.text p.2.tree) →
            Derives .sum (first.text ++ more.text) (more.leftmost first.tree)
  | product {first : Phrase} {more : Operands} :
      Derives .unary first.text first.tree →
        (∀ p ∈ more, p.1.level = .product) →
          (∀ p ∈ more, Derives .unary p.2.text p.2.tree) →
            Derives .product (first.text ++ more.text) (more.leftmost first.tree)
  | minus {text : List TokenKind} {operand : Expr} :
      Derives .unary text operand →
        Derives .unary (.mark .minus :: text) (.unary .neg operand {})
  | plus {text : List TokenKind} {operand : Expr} :
      Derives .unary text operand →
        Derives .unary (.mark .plus :: text) (.unary .pos operand {})
  | unary {text : List TokenKind} {tree : Expr} :
      Derives .power text tree → Derives .unary text tree
  | pow {base exponent : Phrase} :
      Derives .suffixed base.text base.tree → Derives .unary exponent.text exponent.tree →
        Derives .power (base.text ++ .mark .doubleStar :: exponent.text)
          (.binary .pow base.tree exponent.tree {})
  | power {text : List TokenKind} {tree : Expr} :
      Derives .suffixed text tree → Derives .power text tree
  | suffixed {value : Phrase} {suffixes : List Suffix} :
      Derives .primary value.text value.tree →
        (∀ suffix ∈ suffixes, ∀ p ∈ suffix.phrases, Derives .expr p.text p.tree) →
          Derives .suffixed (value.text ++ suffixes.flatMap Suffix.text)
            (suffixes.foldl Suffix.apply value.tree)
  | literal {kind : TokenKind} {value : Literal} :
      kind.literal? = some value → Derives .primary [kind] (.literal value {})
  | name (name : String) : Derives .primary [.ident name] (.ident name {})
  | paren {text : List TokenKind} {tree : Expr} :
      Derives .expr text tree →
        Derives .primary (.mark .leftParen :: text ++ [.mark .rightParen]) tree
  | list {items : List Phrase} (trailing : Bool) :
      (∀ p ∈ items, Derives .expr p.text p.tree) →
        Derives .primary
          (.mark .leftBracket :: separated trailing (items.map (·.text))
            ++ [.mark .rightBracket])
          (.list (items.map (·.tree)) {})
  | comprehension {element : Phrase} {clauses : List ClausePhrase} :
      Derives .expr element.text element.tree → clauses ≠ [] →
        (∀ c ∈ clauses, c.targets ≠ []) →
          (∀ c ∈ clauses, ∀ p ∈ c.source :: c.conditions, Derives .disjunction p.text p.tree) →
            Derives .primary
              (.mark .leftBracket :: element.text
                ++ clauses.flatMap (fun c => .mark .forWord :: c.body) ++ [.mark .rightBracket])
              (.comprehension element.tree (clauses.map ClausePhrase.tree) {})
  | dict {entries : List EntryPhrase} (trailing : Bool) :
      (∀ entry ∈ entries, Derives .expr entry.key.text entry.key.tree) →
        (∀ entry ∈ entries, Derives .expr entry.value.text entry.value.tree) →
          Derives .primary
            (.mark .leftBrace :: separated trailing (entries.map EntryPhrase.text)
              ++ [.mark .rightBrace])
            (.dict (entries.map EntryPhrase.tree) {})

end Expr
end Stencil
