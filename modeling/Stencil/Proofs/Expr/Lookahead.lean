/-
What one token of lookahead tells: which tokens a phrase of a level can begin with, and
which tokens would continue it.
-/
import Stencil.Proofs.Expr.Grammar

namespace Stencil
namespace Expr

/-- `text` stands at the front of `tokens`, and `rest` is what comes after it. -/
def Spells (text : List TokenKind) (tokens rest : List Token) : Prop :=
  ∃ taken, tokens = taken ++ rest ∧ taken.map (·.kind) = text

namespace Spells

variable {text more : List TokenKind} {tokens mid rest rest' : List Token} {kind : TokenKind}

@[simp] theorem nil_iff : Spells [] tokens rest ↔ tokens = rest := by
  constructor
  · rintro ⟨taken, rfl, htaken⟩
    rw [List.map_eq_nil_iff.mp htaken, List.nil_append]
  · rintro rfl
    exact ⟨[], rfl, rfl⟩

theorem cons_iff : Spells (kind :: text) tokens rest ↔
    ∃ token mid, tokens = token :: mid ∧ token.kind = kind ∧ Spells text mid rest := by
  constructor
  · rintro ⟨taken, rfl, htaken⟩
    obtain ⟨token, taken, rfl, hkind, htext⟩ := List.map_eq_cons_iff.mp htaken
    exact ⟨token, taken ++ rest, rfl, hkind, taken, rfl, htext⟩
  · rintro ⟨token, mid, rfl, hkind, taken, rfl, htext⟩
    exact ⟨token :: taken, rfl, by rw [List.map_cons, hkind, htext]⟩

theorem append_iff : Spells (text ++ more) tokens rest ↔
    ∃ mid, Spells text tokens mid ∧ Spells more mid rest := by
  constructor
  · rintro ⟨taken, rfl, htaken⟩
    obtain ⟨first, last, rfl, hfirst, hlast⟩ := List.map_eq_append_iff.mp htaken
    exact ⟨last ++ rest, ⟨first, List.append_assoc .., hfirst⟩, last, rfl, hlast⟩
  · rintro ⟨mid, ⟨first, rfl, hfirst⟩, last, rfl, hlast⟩
    exact ⟨first ++ last, (List.append_assoc ..).symm, by rw [List.map_append, hfirst, hlast]⟩

theorem append (h : Spells text tokens mid) (h' : Spells more mid rest) :
    Spells (text ++ more) tokens rest :=
  append_iff.mpr ⟨mid, h, h'⟩

theorem length_eq (h : Spells text tokens rest) : tokens.length = text.length + rest.length := by
  obtain ⟨taken, rfl, rfl⟩ := h
  rw [List.length_append, List.length_map]

theorem length_le (h : Spells text tokens rest) : rest.length ≤ tokens.length := by
  rw [h.length_eq]
  exact Nat.le_add_left ..

theorem length_lt (h : Spells (kind :: text) tokens rest) : rest.length < tokens.length := by
  rw [h.length_eq, List.length_cons]
  omega

theorem length_lt_of_cons (h : Spells (kind :: text) tokens rest) (h' : Spells text mid rest) :
    mid.length < tokens.length := by
  rw [h.length_eq, h'.length_eq, List.length_cons]
  omega

/-- What comes after a text is determined by it. -/
theorem unique (h : Spells text tokens rest) (h' : Spells text tokens rest') : rest = rest' := by
  obtain ⟨taken, rfl, htaken⟩ := h
  obtain ⟨taken', heq, htaken'⟩ := h'
  have hlength : taken.length = taken'.length := by
    rw [← List.length_map (f := (·.kind)), htaken, ← htaken', List.length_map]
  exact (List.append_inj heq hlength).2

end Spells

/-- The number of levels that are looser. -/
def Level.rank : Level → Nat
  | .expr => 0
  | .disjunction => 1
  | .conjunction => 2
  | .negation => 3
  | .comparison => 4
  | .sum => 5
  | .product => 6
  | .unary => 7
  | .power => 8
  | .suffixed => 9
  | .primary => 10

/-- How tightly the operators of a level bind; 0 if they are not read by precedence. -/
def Level.precedence : Level → Nat
  | .comparison => 1
  | .sum => 2
  | .product => 3
  | _ => 0

def TokenKind.precedence : TokenKind → Nat
  | .mark m => m.precedence
  | _ => 0

/-- How tightly the next token binds. -/
def frontPrecedence : List Token → Nat
  | [] => 0
  | token :: _ => token.kind.precedence

theorem Level.eq_comparison {level : Level} (h : level.precedence = 1) : level = .comparison := by
  cases level <;> first | rfl | cases h

theorem Level.eq_sum {level : Level} (h : level.precedence = 2) : level = .sum := by
  cases level <;> first | rfl | cases h

/-- What binds tighter than a comparison. -/
theorem Level.eq_product_or_sum {level : Level} (h : 2 ≤ level.precedence) :
    level = .product ∨ level = .sum := by
  cases level <;> first | exact .inl rfl | exact .inr rfl | exact absurd h (by decide)

theorem TokenKind.precedence_le (kind : TokenKind) : kind.precedence ≤ 3 := by
  cases kind with
  | mark m => cases m <;> decide
  | _ => exact Nat.zero_le 3

theorem frontPrecedence_le (tokens : List Token) : frontPrecedence tokens ≤ 3 := by
  cases tokens with
  | nil => exact Nat.zero_le 3
  | cons token rest => exact token.kind.precedence_le

theorem frontPrecedence_of_spells {kind : TokenKind} {text : List TokenKind}
    {tokens rest : List Token} (h : Spells (kind :: text) tokens rest) :
    frontPrecedence tokens = kind.precedence := by
  obtain ⟨token, mid, rfl, rfl, -⟩ := Spells.cons_iff.mp h
  rfl

/-- The tightest level that a token can begin. -/
def TokenKind.begins? : TokenKind → Option Level
  | .mark .lambdaWord => some .expr
  | .mark .notWord => some .negation
  | .mark .minus | .mark .plus => some .unary
  | .number _ | .string _ | .ident _ => some .primary
  | .mark .trueWord | .mark .falseWord | .mark .noneWord => some .primary
  | .mark .leftParen | .mark .leftBracket | .mark .leftBrace => some .primary
  | _ => none

/-- The tightest level whose phrases go on with a token. -/
def TokenKind.continues? : TokenKind → Option Level
  | .mark .ifWord => some .expr
  | .mark .orWord => some .disjunction
  | .mark .andWord => some .conjunction
  | .mark .equalEqual | .mark .notEqual | .mark .less | .mark .lessEqual | .mark .greater
  | .mark .greaterEqual | .mark .inWord | .mark .notWord => some .comparison
  | .mark .plus | .mark .minus => some .sum
  | .mark .star | .mark .slash | .mark .doubleSlash | .mark .percent => some .product
  | .mark .doubleStar => some .power
  | .mark .dot | .mark .leftBracket | .mark .leftParen => some .suffixed
  | _ => none

end Expr

namespace BinaryOp

/-- The first token of an operator tells its level. -/
theorem spelling_eq_cons (op : BinaryOp) :
    ∃ kind more, op.spelling = kind :: more ∧ kind.precedence = op.level.precedence ∧
      kind.continues? = some op.level := by
  cases op <;> exact ⟨_, _, rfl, rfl, rfl⟩

theorem spelling_ne_nil (op : BinaryOp) : op.spelling ≠ [] := by
  cases op <;> nofun

end BinaryOp

namespace Expr

/-- Operators of one level, each with an operand that the grammar derives. -/
def Operands.Derived (level operand : Level) (operands : Operands) : Prop :=
  ∀ p ∈ operands, p.1.level = level ∧ Derives operand p.2.text p.2.tree

namespace Operands.Derived

variable {level operand : Level} {operands : Operands} {op : BinaryOp} {p : Phrase}

theorem nil : Derived level operand [] := nofun

theorem cons (hop : op.level = level) (hp : Derives operand p.text p.tree)
    (h : Derived level operand operands) : Derived level operand ((op, p) :: operands) :=
  List.forall_mem_cons.mpr ⟨⟨hop, hp⟩, h⟩

/-- Operators in front of some tokens tell how tightly the tokens bind. -/
theorem text_eq_cons (h : Derived level operand operands) (hne : operands ≠ []) :
    ∃ kind more, operands.text = kind :: more ∧ kind.precedence = level.precedence ∧
      kind.continues? = some level := by
  obtain ⟨⟨op, p⟩, operands, rfl⟩ := List.exists_cons_of_ne_nil hne
  obtain ⟨kind, more, hspelling, hprecedence, hcontinues⟩ := op.spelling_eq_cons
  obtain rfl : op.level = level := (h _ List.mem_cons_self).1
  refine ⟨kind, more ++ p.text ++ text operands, ?_, hprecedence, hcontinues⟩
  rw [text, List.flatMap_cons]
  dsimp only
  rw [hspelling]
  rfl

theorem frontPrecedence_eq (h : Derived level operand operands) (hne : operands ≠ [])
    {tokens rest : List Token} (hspells : Spells operands.text tokens rest) :
    frontPrecedence tokens = level.precedence := by
  obtain ⟨kind, _, htext, hprecedence, -⟩ := h.text_eq_cons hne
  rw [htext] at hspells
  rw [frontPrecedence_of_spells hspells, hprecedence]

end Operands.Derived

section Operands

variable {text : List TokenKind} {first : Expr} {operands : Operands}

theorem Derives.comparisons (hfirst : Derives .sum text first)
    (h : operands.Derived .comparison .sum) :
    Derives .comparison (text ++ operands.text) (conjoined first (operands.pairs first)) :=
  @Derives.comparison ⟨text, first⟩ operands hfirst (fun p hp => (h p hp).1)
    fun p hp => (h p hp).2

theorem Derives.terms (hfirst : Derives .product text first) (h : operands.Derived .sum .product) :
    Derives .sum (text ++ operands.text) (operands.leftmost first) :=
  @Derives.sum ⟨text, first⟩ operands hfirst (fun p hp => (h p hp).1) fun p hp => (h p hp).2

theorem Derives.factors (hfirst : Derives .unary text first)
    (h : operands.Derived .product .unary) :
    Derives .product (text ++ operands.text) (operands.leftmost first) :=
  @Derives.product ⟨text, first⟩ operands hfirst (fun p hp => (h p hp).1) fun p hp => (h p hp).2

/-- A product is an operand and the factors that go on with it. -/
theorem Derives.eq_factors {tree : Expr} (h : Derives .product text tree) :
    ∃ (first : Phrase) (factors : Operands), Derives .unary first.text first.tree ∧
      factors.Derived .product .unary ∧ text = first.text ++ factors.text ∧
        tree = factors.leftmost first.tree := by
  cases h with
  | @product first factors hfirst hlevels hfactors =>
      exact ⟨first, factors, hfirst, fun p hp => ⟨hlevels p hp, hfactors p hp⟩, rfl, rfl⟩

end Operands

/-- A phrase of this level can begin with the token. -/
def Level.Begins (level : Level) (kind : TokenKind) : Prop :=
  ∃ tightest, kind.begins? = some tightest ∧ level.rank ≤ tightest.rank

/-- No phrase of this level goes on with the token. -/
def Level.Ends (level : Level) (kind : TokenKind) : Prop :=
  ∀ tightest, kind.continues? = some tightest → tightest.rank < level.rank

/-- No phrase of this level goes on with `tokens`. -/
def Stops (level : Level) (tokens : List Token) : Prop :=
  ∀ token ∈ tokens.head?, level.Ends token.kind

theorem Level.ends_of_continues {level tightest : Level} {kind : TokenKind}
    (hkind : kind.continues? = some tightest) (hrank : tightest.rank < level.rank) :
    level.Ends kind := by
  intro other hother
  rw [hkind] at hother
  cases hother
  exact hrank

theorem Stops.mono {level tighter : Level} {tokens : List Token} (h : Stops level tokens)
    (hrank : level.rank ≤ tighter.rank) : Stops tighter tokens :=
  fun token htoken tightest hkind => Nat.lt_of_lt_of_le (h token htoken tightest hkind) hrank

/-- What goes on with an operand of a power goes on with a suffix or a power. -/
theorem Stops.unary {tokens : List Token} (h : Stops .power tokens) : Stops .unary tokens := by
  intro token htoken tightest hkind
  have hne : tightest ≠ .unary := by
    rintro rfl
    unfold TokenKind.continues? at hkind
    split at hkind <;> cases hkind
  have hlt := h token htoken tightest hkind
  cases tightest <;> first | exact absurd rfl hne | exact absurd hlt (by decide) | decide

theorem Stops.of_spells {level : Level} {kind : TokenKind} {text : List TokenKind}
    {tokens rest : List Token} (h : Spells (kind :: text) tokens rest) (hkind : level.Ends kind) :
    Stops level tokens := by
  obtain ⟨token, mid, rfl, rfl, -⟩ := Spells.cons_iff.mp h
  intro other hother
  cases hother
  exact hkind

theorem TokenKind.continues?_of_precedence {kind : TokenKind} (h : 0 < kind.precedence) :
    ∃ level, kind.continues? = some level ∧ level.precedence = kind.precedence := by
  cases kind with
  | mark m => cases m <;> first | exact ⟨_, rfl, rfl⟩ | exact absurd h (by decide)
  | _ => exact absurd h (Nat.lt_irrefl 0)

/-- What stops a level binds less tightly than its operators. -/
theorem Stops.frontPrecedence_lt {level : Level} {tokens : List Token} (h : Stops level tokens)
    (hlevel : 0 < level.precedence) : frontPrecedence tokens < level.precedence := by
  cases tokens with
  | nil => exact hlevel
  | cons token rest =>
      change token.kind.precedence < level.precedence
      by_cases hkind : 0 < token.kind.precedence
      · obtain ⟨tightest, hcontinues, heq⟩ := TokenKind.continues?_of_precedence hkind
        have hrank := h token rfl tightest hcontinues
        rw [← heq]
        revert hlevel hrank
        cases level <;> cases tightest <;> decide
      · omega

/-- Operators stop what is tighter than they are. -/
theorem Operands.Derived.stops {level operand tighter : Level} {operands : Operands}
    (h : operands.Derived level operand) (hrank : level.rank < tighter.rank)
    {tokens rest : List Token} (hspells : Spells operands.text tokens rest)
    (hstop : Stops tighter rest) : Stops tighter tokens := by
  by_cases hne : operands = []
  · subst hne
    exact Spells.nil_iff.mp hspells ▸ hstop
  · obtain ⟨kind, more, htext, -, hcontinues⟩ := h.text_eq_cons hne
    rw [htext] at hspells
    exact .of_spells hspells (Level.ends_of_continues hcontinues hrank)

/-- A phrase is not empty, and begins with a token of its level. -/
theorem Derives.begins {level : Level} {text : List TokenKind} {tree : Expr}
    (h : Derives level text tree) : ∃ kind more, text = kind :: more ∧ level.Begins kind := by
  have looser : ∀ {level tighter : Level} {text : List TokenKind} (more : List TokenKind),
      level.rank ≤ tighter.rank →
        (∃ kind more, text = kind :: more ∧ tighter.Begins kind) →
          ∃ kind rest, text ++ more = kind :: rest ∧ level.Begins kind := by
    rintro level tighter _ more hrank ⟨kind, rest, rfl, tightest, hkind, htightest⟩
    exact ⟨kind, rest ++ more, rfl, tightest, hkind, Nat.le_trans hrank htightest⟩
  induction h with
  | lambda _ _ _ => exact ⟨_, _, rfl, _, rfl, Nat.le_refl _⟩
  | conditional _ _ _ ih _ _ =>
      rw [List.append_assoc]
      exact looser _ (by decide) ih
  | expr _ ih => simpa using looser [] (by decide) ih
  | disjunction _ _ ih _ => exact looser _ (by decide) ih
  | conjunction _ _ ih _ => exact looser _ (by decide) ih
  | not _ _ => exact ⟨_, _, rfl, _, rfl, Nat.le_refl _⟩
  | negation _ ih => simpa using looser [] (by decide) ih
  | comparison _ _ _ ih _ => exact looser _ (by decide) ih
  | sum _ _ _ ih _ => exact looser _ (by decide) ih
  | product _ _ _ ih _ => exact looser _ (by decide) ih
  | minus _ _ => exact ⟨_, _, rfl, _, rfl, Nat.le_refl _⟩
  | plus _ _ => exact ⟨_, _, rfl, _, rfl, Nat.le_refl _⟩
  | unary _ ih => simpa using looser [] (by decide) ih
  | pow _ _ ih _ => exact looser _ (by decide) ih
  | power _ ih => simpa using looser [] (by decide) ih
  | suffixed _ _ ih _ => exact looser _ (by decide) ih
  | @literal kind value hkind =>
      refine ⟨kind, [], rfl, .primary, ?_, Nat.le_refl _⟩
      unfold TokenKind.literal? at hkind
      split at hkind <;> first | rfl | cases hkind
  | name name => exact ⟨_, _, rfl, _, rfl, Nat.le_refl _⟩
  | paren _ _ => exact ⟨_, _, rfl, _, rfl, by decide⟩
  | list _ _ _ => exact ⟨_, _, rfl, _, rfl, by decide⟩
  | comprehension _ _ _ _ _ _ => exact ⟨_, _, rfl, _, rfl, by decide⟩
  | dict _ _ _ _ _ => exact ⟨_, _, rfl, _, rfl, by decide⟩

end Expr
end Stencil
