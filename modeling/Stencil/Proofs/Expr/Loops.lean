/-
The loops of the parser in general: items between commas up to a mark, items with a word in
front of each, and operands joined from the left.
-/
import Mathlib.Logic.Basic
import Stencil.Proofs.Expr.Runs

namespace Stencil
namespace Expr

/-- Phrases of some kind: their tokens, what they write, and which of them the grammar
derives.  Results of a parser are compared with what phrases write by `bare`. -/
structure Part (π α τ : Type) where
  text : π → List TokenKind
  tree : π → τ
  bare : α → τ
  Derived : π → Prop

namespace Part

variable {π α τ : Type}

/-- The parser takes one phrase. -/
def Taken (part : Part π α τ) (item : Parse α) : Prop :=
  ∀ s, Takes item s fun text a =>
    ∃ p, part.Derived p ∧ part.text p = text ∧ part.bare a = part.tree p

/-- The parser reads all phrases in streams of fewer than `bound` tokens that stop the given
level. -/
def Readable (part : Part π α τ) (level : Level) (bound : Nat) (item : Parse α) : Prop :=
  ∀ p, part.Derived p → ∀ s rest, s.tokens.length < bound → Spells (part.text p) s.tokens rest →
    Stops level rest → Reads item s rest fun a => part.bare a = part.tree p

end Part

section Loops

variable {π α τ : Type} (item : Parse α) (close word : Mark)

/-- Reads items between commas up to the mark `close`; a comma may follow the last. -/
def listOf : Nat → Parse (List α)
  | 0 => throw .unexpectedEof
  | fuel + 1 => do
      if ← consume close then return []
      let first ← item
      if ← consume .comma then
        let rest ← listOf fuel
        return first :: rest
      else
        expect close
        return [first]

/-- Reads items with a word in front of each. -/
def collect : Nat → Parse (List α)
  | 0 => return []
  | fuel + 1 => do
      if ← consume word then
        let first ← item
        let rest ← collect fuel
        return first :: rest
      else return []

/-- Reads operands with a word in front of each, and joins them to `lhs` one by one. -/
def joins (operand : Parse Expr) (join : Expr → Expr → Expr) (lhs : Expr) : Nat → Parse Expr
  | 0 => return lhs
  | fuel + 1 => do
      if ← consume word then
        enter
        let rhs ← operand
        joins operand join (join lhs rhs) fuel
      else return lhs

end Loops

/-- One entry of a dict. -/
def entry (item : Parse Expr) : Parse (Expr × Expr) := do
  let key ← item
  expect .colon
  let value ← item
  return (key, value)

/-- One clause of a comprehension after the word `for`. -/
def clause (disjunction : Parse Expr) : Parse Clause := do
  let names ← targets (← rounds)
  expect .inWord
  let source ← disjunction
  let tests ← conditions disjunction (← rounds)
  return .mk names source tests

theorem sequence_eq (item : Parse Expr) (close : Mark) (fuel : Nat) :
    sequence item close fuel = listOf item close fuel := by
  induction fuel with
  | zero => rfl
  | succ fuel ih => simp only [sequence, listOf, ih]

theorem entries_eq (item : Parse Expr) (fuel : Nat) :
    entries item fuel = listOf (entry item) .rightBrace fuel := by
  induction fuel with
  | zero => rfl
  | succ fuel ih => simp only [entries, listOf, entry, ih, bind_assoc, pure_bind]

theorem conditions_eq (condition : Parse Expr) (fuel : Nat) :
    conditions condition fuel = collect condition .ifWord fuel := by
  induction fuel with
  | zero => rfl
  | succ fuel ih => simp only [conditions, collect, ih]

theorem clauses_eq (disjunction : Parse Expr) (fuel : Nat) :
    clauses disjunction fuel = collect (clause disjunction) .forWord fuel := by
  induction fuel with
  | zero => rfl
  | succ fuel ih => simp only [clauses, collect, clause, ih, bind_assoc, pure_bind]

theorem conjuncts_eq (d : Descent) (lhs : Expr) (fuel : Nat) :
    d.conjuncts lhs fuel =
      joins .andWord d.negation (fun lhs rhs => .and lhs rhs (lhs.span rhs)) lhs fuel := by
  induction fuel generalizing lhs with
  | zero => rfl
  | succ fuel ih => simp only [Descent.conjuncts, joins, ih]

theorem disjuncts_eq (d : Descent) (lhs : Expr) (fuel : Nat) :
    d.disjuncts lhs fuel =
      joins .orWord d.conjunction (fun lhs rhs => .or lhs rhs (lhs.span rhs)) lhs fuel := by
  induction fuel generalizing lhs with
  | zero => rfl
  | succ fuel ih => simp only [Descent.disjuncts, joins, ih]

/-- After an item comes the end, if it is the last, or a comma. -/
theorem separated_cons_append (trailing : Bool) (item : List TokenKind)
    (items : List (List TokenKind)) (close : List TokenKind) :
    ∃ tail, separated trailing (item :: items) ++ close = item ++ tail ∧
      (items = [] ∧ tail = close ∨
        tail = .mark .comma :: (separated trailing items ++ close)) := by
  cases items with
  | nil =>
      cases trailing with
      | false => exact ⟨close, rfl, .inl ⟨rfl, rfl⟩⟩
      | true => exact ⟨.mark .comma :: close, List.append_assoc .., .inr rfl⟩
  | cons _ _ => exact ⟨_, List.append_assoc .., .inr rfl⟩

theorem exists_separated_cons (trailing : Bool) (item : List TokenKind)
    (items : List (List TokenKind)) :
    ∃ last, separated last (item :: items) = item ++ .mark .comma :: separated trailing items := by
  cases items with
  | nil => exact ⟨true, rfl⟩
  | cons _ _ => exact ⟨trailing, rfl⟩

section Taking

variable {π α τ : Type} {part : Part π α τ} {item : Parse α}

theorem takes_listOf (hitem : part.Taken item) (close : Mark) (fuel : Nat) (s : Stream) :
    Takes (listOf item close fuel) s fun text as =>
      ∃ (ps : List π) (trailing : Bool), (∀ p ∈ ps, part.Derived p) ∧
        text = separated trailing (ps.map part.text) ++ [.mark close] ∧
          as.map part.bare = ps.map part.tree := by
  induction fuel generalizing s with
  | zero => exact Runs.throw nofun
  | succ fuel ih =>
      refine Runs.ifConsume (fun s₁ hclose => ?_) fun _ => ?_
      · exact Runs.pure ⟨_, hclose, [], false, nofun, rfl, rfl⟩
      · apply Takes.bind (hitem s)
        rintro a _ s₁ htook ⟨p, hp, rfl, ha⟩
        refine Runs.ifConsume (fun s₂ hcomma => ?_) fun _ => ?_
        · apply Takes.bind (ih s₂)
          rintro as _ s₃ hrest ⟨ps, trailing, hps, rfl, has⟩
          obtain ⟨last, hlast⟩ := exists_separated_cons trailing (part.text p) (ps.map part.text)
          refine Runs.pure ⟨_, htook.trans (hcomma.cons hrest), p :: ps, last, ?_, ?_, ?_⟩
          · exact List.forall_mem_cons.mpr ⟨hp, hps⟩
          · rw [List.map_cons, hlast, List.append_assoc, List.cons_append]
          · exact congrArg₂ List.cons ha has
        · refine Takes.expect fun s₂ hclose => ?_
          refine Runs.pure ⟨_, htook.trans hclose, [p], false, by simpa using hp, rfl, ?_⟩
          exact congrArg (fun a => [a]) ha

/-- With a word in front of the next token there is an item. -/
theorem takes_collect (hitem : part.Taken item) (word : Mark) (fuel : Nat) (s : Stream) :
    Takes (collect item word fuel) s fun text as =>
      ∃ ps : List π, (∀ p ∈ ps, part.Derived p) ∧
        text = ps.flatMap (fun p => .mark word :: part.text p) ∧
          as.map part.bare = ps.map part.tree ∧
            (0 < fuel → FrontIs word s.tokens → ps ≠ []) := by
  induction fuel generalizing s with
  | zero => exact Runs.pure ⟨_, .refl s, [], nofun, rfl, rfl, nofun⟩
  | succ fuel ih =>
      refine Runs.ifConsume (fun s₁ hword => ?_) fun hfront => ?_
      · apply Takes.bind (hitem s₁)
        rintro a _ s₂ htook ⟨p, hp, rfl, ha⟩
        apply Takes.bind (ih s₂)
        rintro as _ s₃ hrest ⟨ps, hps, rfl, has, -⟩
        refine Runs.pure ⟨_, (hword.cons htook).trans hrest, p :: ps, ?_, rfl, ?_, nofun⟩
        · exact List.forall_mem_cons.mpr ⟨hp, hps⟩
        · exact congrArg₂ List.cons ha has
      · exact Runs.pure ⟨_, .refl s, [], nofun, rfl, rfl, fun _ h => absurd h hfront⟩

end Taking

/-- Phrases of a level of the grammar. -/
def phrases (level : Level) : Part Phrase Expr Expr where
  text := Phrase.text
  tree := Phrase.tree
  bare := Expr.bare
  Derived p := Derives level p.text p.tree

/-- Entries of a dict. -/
def entryPhrases : Part EntryPhrase (Expr × Expr) (Expr × Expr) where
  text := EntryPhrase.text
  tree := EntryPhrase.tree
  bare := Prod.map Expr.bare Expr.bare
  Derived entry :=
    Derives .expr entry.key.text entry.key.tree ∧ Derives .expr entry.value.text entry.value.tree

/-- Clauses of a comprehension, after the word `for`. -/
def clausePhrases : Part ClausePhrase Clause Clause where
  text := ClausePhrase.body
  tree := ClausePhrase.tree
  bare := Clause.bare
  Derived c := c.targets ≠ [] ∧ ∀ p ∈ c.source :: c.conditions, Derives .disjunction p.text p.tree

/-- The parser takes a text of the level, and gives the tree that it writes. -/
def Accepts (level : Level) (p : Parse Expr) : Prop :=
  ∀ s, Takes p s fun text e => Derives level text e.bare

theorem Accepts.taken {level : Level} {p : Parse Expr} (h : Accepts level p) :
    (phrases level).Taken p :=
  fun s => (h s).imp fun text e he => ⟨⟨text, e.bare⟩, he, rfl, rfl⟩

/-- The parser reads all texts of the level in streams of fewer than `bound` tokens. -/
def Covers (level : Level) (bound : Nat) (p : Parse Expr) : Prop :=
  ∀ {text tree}, Derives level text tree → ∀ {s : Stream} {rest}, s.tokens.length < bound →
    Spells text s.tokens rest → Stops level rest → Reads p s rest fun e => e.bare = tree

theorem Covers.readable {level : Level} {bound : Nat} {p : Parse Expr} (h : Covers level bound p) :
    (phrases level).Readable level bound p :=
  fun _ hp _ _ => h hp

theorem takes_joins {level : Level} {operand : Parse Expr}
    (hoperand : Accepts level operand) (word : Mark) (join joinBare : Expr → Expr → Expr)
    (hjoin : ∀ lhs rhs, (join lhs rhs).bare = joinBare lhs.bare rhs.bare) (fuel : Nat)
    (lhs : Expr) (s : Stream) :
    Takes (joins word operand join lhs fuel) s fun text e =>
      ∃ ps : List Phrase, (∀ p ∈ ps, Derives level p.text p.tree) ∧ text = repeated word ps ∧
        e.bare = ps.foldl (fun lhs p => joinBare lhs p.tree) lhs.bare := by
  induction fuel generalizing lhs s with
  | zero => exact Runs.pure ⟨_, .refl s, [], nofun, rfl, rfl⟩
  | succ fuel ih =>
      refine Runs.ifConsume (fun s₁ hword => ?_) fun _ => ?_
      · refine Takes.enter fun s₂ hs₂ => ?_
        apply Takes.bind (hoperand s₂)
        intro rhs text s₃ htook hrhs
        have hfirst := hword.cons (.of_tokens_eq hs₂ htook)
        apply Runs.imp (ih (join lhs rhs) s₃)
        rintro e s₄ ⟨_, hrest, ps, hps, rfl, he⟩
        refine ⟨_, hfirst.trans hrest, ⟨text, rhs.bare⟩ :: ps, ?_, rfl, ?_⟩
        · exact List.forall_mem_cons.mpr ⟨hrhs, hps⟩
        · rw [he, hjoin, List.foldl_cons]
      · exact Runs.pure ⟨_, .refl s, [], nofun, rfl, rfl⟩

/-- The marks that close a list. -/
def Mark.Closes (m : Mark) : Prop := m = .rightParen ∨ m = .rightBracket ∨ m = .rightBrace

theorem Mark.Closes.ends {m : Mark} (h : m.Closes) : Level.expr.Ends (.mark m) := by
  rcases h with rfl | rfl | rfl <;> rintro tightest ⟨⟩

theorem Mark.Closes.ne_comma {m : Mark} (h : m.Closes) : m ≠ .comma := by
  rcases h with rfl | rfl | rfl <;> nofun

theorem Mark.Closes.ne_of_begins {m : Mark} (h : m.Closes) {kind : TokenKind}
    (hkind : Level.expr.Begins kind) : kind ≠ .mark m := by
  rintro rfl
  obtain ⟨tightest, hbegins, -⟩ := hkind
  rcases h with rfl | rfl | rfl <;> cases hbegins

theorem ends_comma : Level.expr.Ends (.mark .comma) := by
  rintro tightest ⟨⟩

/-- A word that ends the phrases of a level stops them, and so does what comes after. -/
theorem Stops.of_repeated {π : Type} {level : Level} {word : Mark} {text : π → List TokenKind}
    {ps : List π} {tokens rest : List Token} (hstop : Stops level rest)
    (hword : level.Ends (.mark word))
    (h : Spells (ps.flatMap fun p => .mark word :: text p) tokens rest) : Stops level tokens := by
  cases ps with
  | nil => exact Spells.nil_iff.mp h ▸ hstop
  | cons p ps => exact .of_spells h hword

section Reading

variable {π α τ : Type} {part : Part π α τ} {item : Parse α} {bound : Nat}

theorem reads_listOf (hitem : part.Readable .expr bound item)
    (hbegins : ∀ p, part.Derived p →
      ∃ kind more, part.text p = kind :: more ∧ Level.expr.Begins kind)
    {close : Mark} (hclose : close.Closes) (trailing : Bool) (ps : List π)
    (hps : ∀ p ∈ ps, part.Derived p) (fuel : Nat) (s : Stream) (rest : List Token)
    (hfuel : s.tokens.length < fuel) (hbound : s.tokens.length < bound)
    (h : Spells (separated trailing (ps.map part.text) ++ [.mark close]) s.tokens rest) :
    Reads (listOf item close fuel) s rest fun as => as.map part.bare = ps.map part.tree := by
  induction ps generalizing fuel s with
  | nil =>
      obtain ⟨fuel, rfl⟩ := Nat.exists_eq_succ_of_ne_zero (Nat.ne_zero_of_lt hfuel)
      refine Reads.ifConsume h fun s' hs' => ?_
      exact Runs.pure ⟨Spells.nil_iff.mp hs', rfl⟩
  | cons p ps ih =>
      obtain ⟨fuel, rfl⟩ := Nat.exists_eq_succ_of_ne_zero (Nat.ne_zero_of_lt hfuel)
      obtain ⟨hp, hps⟩ := List.forall_mem_cons.mp hps
      obtain ⟨kind, more, htext, hkind⟩ := hbegins p hp
      obtain ⟨tail, heq, htail⟩ :=
        separated_cons_append trailing (part.text p) (ps.map part.text) [.mark close]
      rw [List.map_cons, heq] at h
      obtain ⟨mid, hfirst, hmid⟩ := Spells.append_iff.mp h
      have hstop : Stops .expr mid := by
        rcases htail with ⟨-, rfl⟩ | rfl
        · exact .of_spells hmid hclose.ends
        · exact .of_spells hmid ends_comma
      rw [htext, List.cons_append] at h
      apply Reads.unlessConsume (not_frontIs_of_spells h (hclose.ne_of_begins hkind))
      apply Reads.bind (hitem p hp s mid hbound hfirst hstop)
      rintro a s₁ rfl ha
      have hle := hfirst.length_le
      rcases htail with ⟨hnil, rfl⟩ | rfl
      · have hcomma : TokenKind.mark close ≠ .mark .comma := by simpa using hclose.ne_comma
        apply Reads.unlessConsume (not_frontIs_of_spells hmid hcomma)
        rw [List.map_eq_nil_iff.mp hnil]
        refine Reads.expect hmid fun s₂ hs₂ => ?_
        exact Runs.pure ⟨Spells.nil_iff.mp hs₂, congrArg (fun a => [a]) ha⟩
      · refine Reads.ifConsume hmid fun s₂ hs₂ => ?_
        have hlt := hmid.length_lt_of_cons hs₂
        apply Reads.bind (ih hps fuel s₂ (by omega) (by omega) hs₂)
        rintro as s₃ hs₃ has
        exact Runs.pure ⟨hs₃, congrArg₂ List.cons ha has⟩

theorem reads_collect {level : Level} (hitem : part.Readable level bound item) {word : Mark}
    (hword : level.Ends (.mark word)) (ps : List π) (hps : ∀ p ∈ ps, part.Derived p)
    (fuel : Nat) (s : Stream) (rest : List Token) (hfuel : s.tokens.length < fuel)
    (hbound : s.tokens.length ≤ bound) (hstop : Stops level rest)
    (hrest : ¬ FrontIs word rest)
    (h : Spells (ps.flatMap fun p => .mark word :: part.text p) s.tokens rest) :
    Reads (collect item word fuel) s rest fun as => as.map part.bare = ps.map part.tree := by
  induction ps generalizing fuel s with
  | nil =>
      obtain ⟨fuel, rfl⟩ := Nat.exists_eq_succ_of_ne_zero (Nat.ne_zero_of_lt hfuel)
      obtain rfl := Spells.nil_iff.mp h
      exact Reads.unlessConsume hrest (Runs.pure ⟨rfl, rfl⟩)
  | cons p ps ih =>
      obtain ⟨fuel, rfl⟩ := Nat.exists_eq_succ_of_ne_zero (Nat.ne_zero_of_lt hfuel)
      obtain ⟨hp, hps⟩ := List.forall_mem_cons.mp hps
      rw [List.flatMap_cons, List.cons_append] at h
      refine Reads.ifConsume h fun s₁ hs₁ => ?_
      have hlt := h.length_lt_of_cons hs₁
      obtain ⟨mid, hfirst, hmid⟩ := Spells.append_iff.mp hs₁
      have hnext := hstop.of_repeated hword hmid
      apply Reads.bind (hitem p hp s₁ mid (by omega) hfirst hnext)
      rintro a s₂ rfl ha
      have hle := hfirst.length_le
      apply Reads.bind (ih hps fuel s₂ (by omega) (by omega) hmid)
      rintro as s₃ hs₃ has
      exact Runs.pure ⟨hs₃, congrArg₂ List.cons ha has⟩

theorem reads_joins {level : Level} {operand : Parse Expr}
    (hoperand : Covers level bound operand) {word : Mark}
    (hword : level.Ends (.mark word)) (join joinBare : Expr → Expr → Expr)
    (hjoin : ∀ lhs rhs, (join lhs rhs).bare = joinBare lhs.bare rhs.bare) (ps : List Phrase)
    (hps : ∀ p ∈ ps, Derives level p.text p.tree) (fuel : Nat) (lhs : Expr) (s : Stream)
    (rest : List Token) (hfuel : s.tokens.length < fuel) (hbound : s.tokens.length ≤ bound)
    (hstop : Stops level rest) (hrest : ¬ FrontIs word rest)
    (h : Spells (repeated word ps) s.tokens rest) :
    Reads (joins word operand join lhs fuel) s rest fun e =>
      e.bare = ps.foldl (fun lhs p => joinBare lhs p.tree) lhs.bare := by
  induction ps generalizing fuel lhs s with
  | nil =>
      obtain ⟨fuel, rfl⟩ := Nat.exists_eq_succ_of_ne_zero (Nat.ne_zero_of_lt hfuel)
      obtain rfl := Spells.nil_iff.mp h
      exact Reads.unlessConsume hrest (Runs.pure ⟨rfl, rfl⟩)
  | cons p ps ih =>
      obtain ⟨fuel, rfl⟩ := Nat.exists_eq_succ_of_ne_zero (Nat.ne_zero_of_lt hfuel)
      obtain ⟨hp, hps⟩ := List.forall_mem_cons.mp hps
      rw [repeated, List.flatMap_cons, List.cons_append] at h
      refine Reads.ifConsume h fun s₁ hs₁ => ?_
      have hlt := h.length_lt_of_cons hs₁
      refine Reads.enter fun s₂ hs₂ => ?_
      rw [← hs₂] at hs₁ hlt
      obtain ⟨mid, hfirst, hmid⟩ := Spells.append_iff.mp hs₁
      have hnext := hstop.of_repeated hword hmid
      apply Reads.bind (hoperand hp (by omega) hfirst hnext)
      rintro rhs s₃ rfl hrhs
      have hle := hfirst.length_le
      apply Reads.imp (ih hps fuel (join lhs rhs) s₃ (by omega) (by omega) hmid)
      intro e he
      rw [he, hjoin, hrhs, List.foldl_cons]

end Reading

end Expr
end Stencil
