/-
How an expression is read: which tokens each part of it takes, how many levels are open while it
is read, and the range that it gets from its tokens.
-/
import Stencil.Proofs.Expr.Levels

namespace Stencil
namespace Expr

/-- A token that is the mark `m`. -/
def Marked (m : Mark) : Type := { token : Token // token.kind = .mark m }

/-- Tokens that write an operator. -/
structure Spelled (op : BinaryOp) where
  tokens : List Token
  spells : tokens.map (·.kind) = op.spelling

/-- The sign that a unary operator is written with. -/
def signOf? : UnaryOp → Option Mark
  | .neg => some .minus
  | .pos => some .plus
  | .not => none

/-- The end of the last of some tokens that stand behind `place`. -/
def endBehind (place : Position) (tokens : List Token) : Position :=
  tokens.foldl (fun _ token => token.range.stop) place

/-- The range from the start of the first token to the end of the last. -/
def hull (tokens : List Token) : Range :=
  ⟨(tokens.head?.map (·.range.start)).getD {}, endBehind {} tokens⟩

/-- Tokens and the part of an expression that is read from them. -/
structure Stretch where
  tokens : List Token
  tree : Expr

/-- Tokens that are names with commas between them. -/
structure NameStretch where
  tokens : List Token
  names : List String
  spells : tokens.map (·.kind) = nameList names

/-- An entry of a dict. -/
structure EntryStretch where
  key : Stretch
  colon : Marked .colon
  value : Stretch

namespace EntryStretch

def tokens (entry : EntryStretch) : List Token :=
  entry.key.tokens ++ entry.colon.1 :: entry.value.tokens

def tree (entry : EntryStretch) : Expr × Expr := (entry.key.tree, entry.value.tree)

def parts (entry : EntryStretch) : List Stretch := [entry.key, entry.value]

end EntryStretch

/-- The tokens of parts with a word in front of each. -/
def headed {π : Type} {word : Mark} (text : π → List Token) (parts : List (Marked word × π)) :
    List Token :=
  parts.flatMap fun part => part.1.1 :: text part.2

/-- What follows the word `for` in a comprehension. -/
structure ClauseStretch where
  targets : NameStretch
  named : targets.names ≠ []
  inWord : Marked .inWord
  source : Stretch
  conditions : List (Marked .ifWord × Stretch)

namespace ClauseStretch

def tokens (c : ClauseStretch) : List Token :=
  c.targets.tokens ++ c.inWord.1 :: (c.source.tokens ++ headed Stretch.tokens c.conditions)

def tree (c : ClauseStretch) : Clause :=
  .mk c.targets.names c.source.tree (c.conditions.map (·.2.tree))

/-- The parts of a clause that are expressions. -/
def parts (c : ClauseStretch) : List Stretch := c.source :: c.conditions.map (·.2)

end ClauseStretch

/-- Items with commas between them, and the mark `close` behind them; a comma may follow the
last. -/
inductive Listing {π : Type} (text : π → List Token) (close : Mark) :
    List Token → List π → Prop where
  | nil (t : Marked close) : Listing text close [t.1] []
  | single (p : π) (t : Marked close) : Listing text close (text p ++ [t.1]) [p]
  | cons (p : π) (t : Marked .comma) {tokens : List Token} {ps : List π} :
      Listing text close tokens ps → Listing text close (text p ++ t.1 :: tokens) (p :: ps)

/-- What is being read.  A chain keeps the level of each of its operators open until it ends. -/
inductive Layer where
  | expr | disjunction | disjuncts | conjunction | negation
  /-- Comparisons; the last of their operands is `last`. -/
  | comparison (last : Stretch)
  | sum | product | unary | power | suffixed | primary

/-- `Parses layer depth chain tokens e`: where `depth` levels are open, `tokens` are read as `e`,
and `chain` more levels are open behind them. -/
inductive Parses : Layer → (depth chain : Nat) → List Token → Expr → Prop where
  | literal {depth : Nat} {t : Token} {value : Literal} :
      depth ≤ maxDepth → t.kind.literal? = some value →
        Parses .primary depth 0 [t] (.literal value (hull [t]))
  | name {depth : Nat} {t : Token} {name : String} :
      depth ≤ maxDepth → t.kind = .ident name →
        Parses .primary depth 0 [t] (.ident name (hull [t]))
  | paren {depth : Nat} (l : Marked .leftParen) {tokens : List Token} {e : Expr}
      (r : Marked .rightParen) :
      Parses .expr (depth + 1) 0 tokens e →
        Parses .primary depth 0 (l.1 :: (tokens ++ [r.1]))
          (e.withRange (hull (l.1 :: (tokens ++ [r.1]))))
  | list {depth : Nat} (l : Marked .leftBracket) {tokens : List Token} {items : List Stretch} :
      depth ≤ maxDepth → Listing Stretch.tokens .rightBracket tokens items →
        (∀ p ∈ items, Parses .expr (depth + 1) 0 p.tokens p.tree) →
          Parses .primary depth 0 (l.1 :: tokens)
            (.list (items.map (·.tree)) (hull (l.1 :: tokens)))
  | dict {depth : Nat} (l : Marked .leftBrace) {tokens : List Token}
      {entries : List EntryStretch} :
      depth ≤ maxDepth → Listing EntryStretch.tokens .rightBrace tokens entries →
        (∀ entry ∈ entries, ∀ p ∈ entry.parts, Parses .expr (depth + 1) 0 p.tokens p.tree) →
          Parses .primary depth 0 (l.1 :: tokens)
            (.dict (entries.map EntryStretch.tree) (hull (l.1 :: tokens)))
  | comprehension {depth : Nat} (l : Marked .leftBracket) {element : Stretch}
      {clauses : List (Marked .forWord × ClauseStretch)} (r : Marked .rightBracket) :
      Parses .expr (depth + 1) 0 element.tokens element.tree → clauses ≠ [] →
        (∀ c ∈ clauses, ∀ p ∈ c.2.parts, Parses .disjunction depth 0 p.tokens p.tree) →
          Parses .primary depth 0
            (l.1 :: (element.tokens ++ (headed ClauseStretch.tokens clauses ++ [r.1])))
            (.comprehension element.tree (clauses.map (·.2.tree))
              (hull (l.1 :: (element.tokens ++ (headed ClauseStretch.tokens clauses ++ [r.1])))))
  | suffixed {depth : Nat} {tokens : List Token} {e : Expr} :
      Parses .primary depth 0 tokens e → Parses .suffixed depth 0 tokens e
  | member {depth chain : Nat} {tokens : List Token} {e : Expr} (dot : Marked .dot) {t : Token}
      {name : String} :
      Parses .suffixed depth chain tokens e → depth + chain < maxDepth → t.kind = .ident name →
        Parses .suffixed depth (chain + 1) (tokens ++ [dot.1, t])
          (.member e name (hull (tokens ++ [dot.1, t])))
  | index {depth chain : Nat} {tokens inside : List Token} {e position : Expr}
      (l : Marked .leftBracket) (r : Marked .rightBracket) :
      Parses .suffixed depth chain tokens e →
        Parses .expr (depth + chain + 2) 0 inside position →
          Parses .suffixed depth (chain + 1) (tokens ++ l.1 :: (inside ++ [r.1]))
            (.index e position (hull (tokens ++ l.1 :: (inside ++ [r.1]))))
  | call {depth chain : Nat} {tokens inside : List Token} {e : Expr} (l : Marked .leftParen)
      {args : List Stretch} :
      Parses .suffixed depth chain tokens e → depth + chain < maxDepth →
        Listing Stretch.tokens .rightParen inside args →
          (∀ p ∈ args, Parses .expr (depth + chain + 2) 0 p.tokens p.tree) →
            Parses .suffixed depth (chain + 1) (tokens ++ l.1 :: inside)
              (.call e (args.map (·.tree)) (hull (tokens ++ l.1 :: inside)))
  | power {depth chain : Nat} {tokens : List Token} {e : Expr} :
      Parses .suffixed depth chain tokens e → Parses .power depth 0 tokens e
  | pow {depth chain : Nat} {tokens more : List Token} {base exponent : Expr}
      (w : Marked .doubleStar) :
      Parses .suffixed depth chain tokens base → Parses .unary (depth + 1) 0 more exponent →
        Parses .power depth 0 (tokens ++ w.1 :: more)
          (.binary .pow base exponent (hull (tokens ++ w.1 :: more)))
  | sign {depth : Nat} {tokens : List Token} {e : Expr} {op : UnaryOp} {m : Mark}
      (w : Marked m) :
      signOf? op = some m → Parses .unary (depth + 1) 0 tokens e →
        Parses .unary depth 0 (w.1 :: tokens) (.unary op e (hull (w.1 :: tokens)))
  | unary {depth : Nat} {tokens : List Token} {e : Expr} :
      Parses .power depth 0 tokens e → Parses .unary depth 0 tokens e
  | product {depth : Nat} {tokens : List Token} {e : Expr} :
      Parses .unary depth 0 tokens e → Parses .product depth 0 tokens e
  | factor {depth chain : Nat} {tokens more : List Token} {lhs rhs : Expr} {op : BinaryOp}
      (w : Spelled op) :
      Parses .product depth chain tokens lhs → op.level = .product →
        Parses .unary (depth + chain + 1) 0 more rhs →
          Parses .product depth (chain + 1) (tokens ++ (w.tokens ++ more))
            (.binary op lhs rhs (hull (tokens ++ (w.tokens ++ more))))
  | sum {depth chain : Nat} {tokens : List Token} {e : Expr} :
      Parses .product depth chain tokens e → Parses .sum depth chain tokens e
  | term {depth chain deeper : Nat} {tokens more : List Token} {lhs rhs : Expr} {op : BinaryOp}
      (w : Spelled op) :
      Parses .sum depth chain tokens lhs → op.level = .sum →
        Parses .product (depth + chain + 1) deeper more rhs →
          Parses .sum depth (chain + 1) (tokens ++ (w.tokens ++ more))
            (.binary op lhs rhs (hull (tokens ++ (w.tokens ++ more))))
  | pair {depth chain deeper : Nat} {tokens more : List Token} {lhs rhs : Expr} {op : BinaryOp}
      (w : Spelled op) :
      Parses .sum depth chain tokens lhs → op.level = .comparison →
        Parses .sum (depth + 1) deeper more rhs →
          Parses (.comparison ⟨more, rhs⟩) depth 1 (tokens ++ (w.tokens ++ more))
            (.binary op lhs rhs (hull (tokens ++ (w.tokens ++ more))))
  /-- The last operand is compared once more. -/
  | link {depth chain deeper : Nat} {tokens more : List Token} {e rhs : Expr} {last : Stretch}
      {op : BinaryOp} (w : Spelled op) :
      Parses (.comparison last) depth chain tokens e → op.level = .comparison →
        Parses .sum (depth + chain + 1) deeper more rhs →
          Parses (.comparison ⟨more, rhs⟩) depth (chain + 1) (tokens ++ (w.tokens ++ more))
            (.and e (.binary op last.tree rhs (hull (last.tokens ++ (w.tokens ++ more))))
              (hull (tokens ++ (w.tokens ++ more))))
  | operand {depth chain : Nat} {tokens : List Token} {e : Expr} :
      Parses .sum depth chain tokens e → Parses .negation depth 0 tokens e
  | compared {depth chain : Nat} {tokens : List Token} {e : Expr} {last : Stretch} :
      Parses (.comparison last) depth chain tokens e → Parses .negation depth 0 tokens e
  | not {depth : Nat} {tokens : List Token} {e : Expr} (w : Marked .notWord) :
      Parses .negation (depth + 1) 0 tokens e →
        Parses .negation depth 0 (w.1 :: tokens) (.unary .not e (hull (w.1 :: tokens)))
  | conjunction {depth : Nat} {tokens : List Token} {e : Expr} :
      Parses .negation depth 0 tokens e → Parses .conjunction depth 0 tokens e
  | and {depth chain : Nat} {tokens more : List Token} {lhs rhs : Expr} (w : Marked .andWord) :
      Parses .conjunction depth chain tokens lhs →
        Parses .negation (depth + chain + 1) 0 more rhs →
          Parses .conjunction depth (chain + 1) (tokens ++ w.1 :: more)
            (.and lhs rhs (hull (tokens ++ w.1 :: more)))
  | disjuncts {depth chain : Nat} {tokens : List Token} {e : Expr} :
      Parses .conjunction depth chain tokens e → Parses .disjuncts depth 0 tokens e
  | or {depth chain deeper : Nat} {tokens more : List Token} {lhs rhs : Expr}
      (w : Marked .orWord) :
      Parses .disjuncts depth chain tokens lhs →
        Parses .conjunction (depth + chain + 1) deeper more rhs →
          Parses .disjuncts depth (chain + 1) (tokens ++ w.1 :: more)
            (.or lhs rhs (hull (tokens ++ w.1 :: more)))
  | disjunction {depth chain : Nat} {tokens : List Token} {e : Expr} :
      Parses .disjuncts depth chain tokens e → Parses .disjunction depth 0 tokens e
  | expr {depth : Nat} {tokens : List Token} {e : Expr} :
      Parses .disjunction depth 0 tokens e → Parses .expr depth 0 tokens e
  | conditional {depth : Nat} {yes cond no : Stretch} (i : Marked .ifWord) (j : Marked .elseWord) :
      Parses .disjunction depth 0 yes.tokens yes.tree →
        Parses .disjunction depth 0 cond.tokens cond.tree →
          Parses .expr (depth + 1) 0 no.tokens no.tree →
            Parses .expr depth 0
              (yes.tokens ++ i.1 :: (cond.tokens ++ j.1 :: no.tokens))
              (.conditional yes.tree cond.tree no.tree
                (hull (yes.tokens ++ i.1 :: (cond.tokens ++ j.1 :: no.tokens))))
  | lambda {depth : Nat} {tokens : List Token} {body : Expr} (w : Marked .lambdaWord)
      (params : NameStretch) (colon : Marked .colon) :
      params.names.Nodup → Parses .expr (depth + 1) 0 tokens body →
        Parses .expr depth 0 (w.1 :: (params.tokens ++ colon.1 :: tokens))
          (.lambda params.names body (hull (w.1 :: (params.tokens ++ colon.1 :: tokens))))

section Hulls

variable {tokens more : List Token}

theorem endBehind_append (place : Position) (tokens more : List Token) :
    endBehind place (tokens ++ more) = endBehind (endBehind place tokens) more :=
  List.foldl_append

/-- What stands before some tokens does not matter for their end. -/
theorem endBehind_of_ne_nil (h : tokens ≠ []) (place other : Position) :
    endBehind place tokens = endBehind other tokens := by
  obtain ⟨t, tokens, rfl⟩ := List.exists_cons_of_ne_nil h
  rfl

theorem hull_append (h : tokens ≠ []) (hmore : more ≠ []) :
    hull (tokens ++ more) = ⟨(hull tokens).start, (hull more).stop⟩ := by
  obtain ⟨t, tokens, rfl⟩ := List.exists_cons_of_ne_nil h
  rw [hull, endBehind_append, endBehind_of_ne_nil hmore _ {}]
  rfl

end Hulls

theorem Spelled.tokens_ne_nil {op : BinaryOp} (w : Spelled op) : w.tokens ≠ [] := by
  intro hnil
  have hspells := w.spells
  rw [hnil] at hspells
  cases op <;> cases hspells

@[simp] theorem range_withRange (e : Expr) (r : Range) : (e.withRange r).range = r := by
  cases e <;> rfl

namespace Parses

variable {layer : Layer} {depth chain : Nat} {tokens : List Token} {e : Expr} {last : Stretch}

/-- Every part has tokens, and its range is theirs. -/
theorem range_eq (h : Parses layer depth chain tokens e) : tokens ≠ [] ∧ e.range = hull tokens := by
  induction h with
  | paren => exact ⟨by simp, range_withRange ..⟩
  | suffixed _ ih | power _ ih | unary _ ih | product _ ih | sum _ ih | operand _ ih
  | compared _ ih | conjunction _ ih | disjuncts _ ih | disjunction _ ih | expr _ ih => exact ih
  | factor _ _ _ _ ih _ | term _ _ _ _ ih _ | pair _ _ _ _ ih _ | link _ _ _ _ ih _ =>
      exact ⟨List.append_ne_nil_of_left_ne_nil ih.1 _, rfl⟩
  | _ => exact ⟨by simp, rfl⟩

/-- The range from one part to another, whatever stands between them. -/
theorem span_eq {layer' : Layer} {depth' chain' : Nat} {more : List Token} {e' : Expr}
    (h : Parses layer depth chain tokens e) (h' : Parses layer' depth' chain' more e')
    (between : List Token) : e.span e' = hull (tokens ++ (between ++ more)) := by
  obtain ⟨hne, hrange⟩ := h.range_eq
  obtain ⟨hne', hrange'⟩ := h'.range_eq
  have hmore : hull (between ++ more) = ⟨(hull (between ++ more)).start, (hull more).stop⟩ := by
    rw [hull, hull, endBehind_append, endBehind_of_ne_nil hne' _ {}]
  rw [hull_append hne (List.append_ne_nil_of_right_ne_nil _ hne'), hmore, Expr.span, hrange,
    hrange']

/-- The operand that may be compared once more stands behind an operator. -/
theorem of_comparison (h : Parses (.comparison last) depth chain tokens e) :
    ∃ deeper chain' front op, ∃ w : Spelled op, tokens = front ++ (w.tokens ++ last.tokens) ∧
      Parses .sum deeper chain' last.tokens last.tree ∧ depth ≤ deeper := by
  cases h with
  | pair w _ _ hrhs => exact ⟨_, _, _, _, w, rfl, hrhs, Nat.le_succ depth⟩
  | link w _ _ hrhs => exact ⟨_, _, _, _, w, rfl, hrhs, by omega⟩

end Parses

section Builds

/-- The stage of a layer; sums and products are one stage. -/
def Layer.stage : Layer → Stage
  | .expr => .expr
  | .disjunction => .disjunction
  | .disjuncts => .disjuncts
  | .conjunction => .conjunction
  | .negation => .negation
  | .comparison last => .comparison last.tree
  | .sum | .product => .arithmetic
  | .unary => .unary
  | .power => .power
  | .suffixed => .suffixed
  | .primary => .primary

def Stretch.share (p : Stretch) : Share := ⟨p.tokens.length, p.tree⟩

def EntryStretch.share (entry : EntryStretch) : EntryShare := ⟨entry.key.share, entry.value.share⟩

def ClauseStretch.share (c : ClauseStretch) : ClauseShare :=
  ⟨c.targets.names, c.source.share, c.conditions.map (·.2.share)⟩

theorem EntryStretch.share_parts (entry : EntryStretch) :
    entry.share.parts = entry.parts.map Stretch.share := rfl

theorem ClauseStretch.share_parts (c : ClauseStretch) :
    c.share.parts = c.parts.map Stretch.share := by
  rw [parts, List.map_cons, List.map_map]
  rfl

theorem ClauseStretch.share_tree (c : ClauseStretch) : c.share.tree = c.tree :=
  congrArg (Clause.mk c.targets.names c.source.tree) (List.map_map ..)

theorem Spelled.length_eq {op : BinaryOp} (w : Spelled op) :
    w.tokens.length = op.spelling.length := by
  rw [← w.spells, List.length_map]

/-- The parts have no more tokens than what they stand in. -/
theorem Listing.total_lt {π : Type} {text : π → List Token} {close : Mark} {tokens : List Token}
    {ps : List π} (h : Listing text close tokens ps) (shares : π → List Share)
    (hshares : ∀ p, totalTokens (shares p) ≤ (text p).length) :
    totalTokens (ps.flatMap shares) < tokens.length := by
  induction h with
  | nil => exact Nat.one_pos
  | single p t =>
      have hp := hshares p
      rw [List.flatMap_singleton, List.length_append, List.length_singleton]
      omega
  | cons p t _ ih =>
      have hp := hshares p
      rw [List.flatMap_cons, totalTokens_append, List.length_append, List.length_cons]
      omega

theorem totalTokens_headed_le {π : Type} {text : π → List Token} {word : Mark}
    (shares : π → List Share) (hshares : ∀ p, totalTokens (shares p) ≤ (text p).length)
    (ps : List (Marked word × π)) :
    totalTokens (ps.flatMap fun p => shares p.2) ≤ (headed text ps).length := by
  induction ps with
  | nil => exact Nat.le_refl 0
  | cons p ps ih =>
      have hp := hshares p.2
      rw [headed] at ih ⊢
      rw [List.flatMap_cons, List.flatMap_cons, totalTokens_append, List.length_append,
        List.length_cons]
      omega

theorem EntryStretch.total_le (entry : EntryStretch) :
    totalTokens entry.share.parts ≤ entry.tokens.length := by
  change entry.key.tokens.length + (entry.value.tokens.length + 0) ≤
    (entry.key.tokens ++ entry.colon.1 :: entry.value.tokens).length
  rw [List.length_append, List.length_cons]
  omega

theorem ClauseStretch.total_le (c : ClauseStretch) :
    totalTokens c.share.parts ≤ c.tokens.length := by
  have hle : totalTokens (c.conditions.flatMap fun p => [p.2.share]) ≤ _ :=
    totalTokens_headed_le (fun p => [p.share]) (fun p => Nat.le_refl _) c.conditions
  rw [← List.map_eq_flatMap] at hle
  change c.source.tokens.length + totalTokens (c.conditions.map (·.2.share)) ≤
    (c.targets.tokens ++ c.inWord.1 :: (c.source.tokens ++ headed _ c.conditions)).length
  rw [List.length_append, List.length_cons, List.length_append]
  omega

theorem length_around (before : List Token) (t : Token) (behind : List Token) :
    (before ++ t :: behind).length = before.length + 1 + behind.length := by
  rw [List.length_append, List.length_cons, Nat.add_right_comm, Nat.add_assoc]

theorem Spelled.length_around {op : BinaryOp} (w : Spelled op) (before behind : List Token) :
    (before ++ (w.tokens ++ behind)).length =
      before.length + op.spelling.length + behind.length := by
  rw [List.length_append, List.length_append, w.length_eq, Nat.add_assoc]

/-- What is read is built, from as many tokens. -/
theorem Parses.builds {layer : Layer} {depth chain : Nat} {tokens : List Token} {e : Expr}
    (h : Parses layer depth chain tokens e) :
    Builds layer.stage depth chain tokens.length e := by
  induction h with
  | literal hdepth _ => exact .literal _ _ hdepth
  | name hdepth _ => exact .name _ _ hdepth
  | paren l r _ ih => simpa [Layer.stage] using Builds.paren _ ih
  | @list _ l tokens items hdepth hlisting _ ih =>
      have htotal := hlisting.total_lt (fun p => [p.share]) fun p => Nat.le_refl _
      rw [← List.map_eq_flatMap] at htotal
      have hlist := Builds.list (items.map Stretch.share) (hull (l.1 :: tokens)) hdepth
        (List.forall_mem_map.mpr ih) (Nat.succ_le_succ htotal)
      rwa [List.map_map] at hlist
  | @dict depth l tokens entries hdepth hlisting _ ih =>
      have htotal := hlisting.total_lt _ EntryStretch.total_le
      rw [← List.flatMap_map] at htotal
      have hparts : ∀ entry ∈ entries.map EntryStretch.share, ∀ p ∈ entry.parts,
          Builds .expr (depth + 1) 0 p.tokens p.tree :=
        List.forall_mem_map.mpr fun entry hentry =>
          entry.share_parts ▸ List.forall_mem_map.mpr (ih entry hentry)
      have hdict := Builds.dict (hull (l.1 :: tokens)) hdepth hparts (Nat.succ_le_succ htotal)
      rwa [List.map_map] at hdict
  | @comprehension depth l element clauses r _ _ _ ih ihs =>
      have htotal : totalTokens (clauses.flatMap fun c => c.2.share.parts) ≤ _ :=
        totalTokens_headed_le _ ClauseStretch.total_le clauses
      rw [← List.flatMap_map] at htotal
      have hparts : ∀ c ∈ clauses.map (·.2.share), ∀ p ∈ c.parts,
          Builds .disjunction depth 0 p.tokens p.tree :=
        List.forall_mem_map.mpr fun c hc =>
          c.2.share_parts ▸ List.forall_mem_map.mpr (ihs c hc)
      have htrees : (clauses.map (·.2.share)).map ClauseShare.tree = clauses.map (·.2.tree) := by
        rw [List.map_map]
        exact List.map_congr_left fun c _ => c.2.share_tree
      refine htrees ▸ Builds.comprehension _ ih hparts ?_
      rw [List.length_cons, List.length_append, List.length_append, List.length_singleton]
      omega
  | suffixed _ ih => exact .suffixed ih
  | member dot _ hdepth _ ih => exact List.length_append ▸ Builds.member _ _ ih hdepth
  | @index _ _ tokens inside _ _ l r _ _ ih ihi =>
      have hlength : (tokens ++ l.1 :: (inside ++ [r.1])).length =
          tokens.length + inside.length + 2 := by
        rw [length_around, List.length_append, List.length_singleton]
        omega
      exact hlength ▸ Builds.index _ ih ihi
  | @call _ _ tokens inside _ l args _ hdepth hlisting _ ih ihs =>
      have htotal := hlisting.total_lt (fun p => [p.share]) fun p => Nat.le_refl _
      rw [← List.map_eq_flatMap] at htotal
      have hcall := Builds.call (hull (tokens ++ l.1 :: inside)) ih hdepth
        (List.forall_mem_map.mpr ihs) (Nat.succ_le_succ htotal)
      rw [List.map_map] at hcall
      exact List.length_append ▸ hcall
  | power _ ih => exact .power ih
  | pow w _ _ ih ih' => exact length_around .. ▸ Builds.pow _ ih ih'
  | sign w _ _ ih => exact .sign _ _ ih
  | unary _ ih => exact .unary ih
  | product _ ih => exact .arithmetic ih
  | factor w _ _ _ ih ih' => exact w.length_around .. ▸ Builds.term _ _ ih (.arithmetic ih')
  | sum _ ih => exact ih
  | term w _ _ _ ih ih' => exact w.length_around .. ▸ Builds.term _ _ ih ih'
  | pair w _ hop _ ih ih' => exact w.length_around .. ▸ Builds.pair _ ih hop ih'
  | link w _ hop _ ih ih' => exact w.length_around .. ▸ Builds.link _ _ ih hop ih'
  | operand _ ih => exact .operand ih
  | compared _ ih => exact .compared ih
  | not w _ ih => exact .not _ ih
  | conjunction _ ih => exact .conjunction ih
  | and w _ _ ih ih' => exact length_around .. ▸ Builds.and _ ih ih'
  | disjuncts _ ih => exact .disjuncts ih
  | or w _ _ ih ih' => exact length_around .. ▸ Builds.or _ ih ih'
  | disjunction _ ih => exact .disjunction ih
  | expr _ ih => exact .expr ih
  | @conditional _ yes cond no i j _ _ _ ih ih' ih'' =>
      have hlength : (yes.tokens ++ i.1 :: (cond.tokens ++ j.1 :: no.tokens)).length =
          yes.tokens.length + cond.tokens.length + no.tokens.length + 2 := by
        rw [length_around, length_around]
        omega
      exact hlength ▸ Builds.conditional _ ih ih' ih''
  | lambda w params colon _ _ ih =>
      refine .lambda _ _ ih ?_
      rw [List.length_cons, length_around]
      omega

end Builds

end Expr
end Stencil
