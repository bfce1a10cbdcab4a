/-
What a parser was on the way to when it failed.  Whatever it has taken before the token that it
refuses can be completed, in every state that it can be in.
-/
import Mathlib.Data.Fintype.EquivFin
import Stencil.Proofs.Expr.Acceptance
import Stencil.Proofs.Expr.Echo

namespace Stencil
namespace Expr

/-- A text of which `P` holds begins with `text`. -/
def Opens (P : List TokenKind → Prop) (text : List TokenKind) : Prop := ∃ more, P (text ++ more)

/-- The error about what stands in front. -/
def refusal : List Token → ExprError
  | [] => .unexpectedEof
  | token :: _ => unexpected token

/-- An error behind a text that opens one of which `P` holds, about the token that comes next; or
there are not levels enough, or a parameter stands twice. -/
def Stuck (P : List TokenKind → Prop) (tokens : List Token) (e : ExprError) : Prop :=
  TooDeep e ∨ (∃ name, e = .duplicateParameter name) ∨
    ∃ text rest, Spells text tokens rest ∧ .eof ∉ text ∧ Opens P text ∧ e = refusal rest

/-- Where it fails at `s₁`, the parser is stuck in `tokens`. -/
def HaltsAt {α : Type} (P : List TokenKind → Prop) (tokens : List Token) (p : Parse α)
    (s₁ : Stream) : Prop :=
  Runs p s₁ (fun _ _ => True) (Stuck P tokens)

/-- Where it fails on fewer than `n` tokens, the parser is stuck on the way to a text of which `P`
holds. -/
def Halts {α : Type} (n : Nat) (P : List TokenKind → Prop) (p : Parse α) : Prop :=
  ∀ s, s.tokens.length < n → HaltsAt P s.tokens p s

/-- The texts of a level. -/
def Writes (level : Level) (text : List TokenKind) : Prop := ∃ tree, Derives level text tree

theorem Halts.mono {α : Type} {n m : Nat} {P : List TokenKind → Prop} {p : Parse α}
    (h : Halts n P p) (hm : m ≤ n) : Halts m P p :=
  fun s hs => h s (Nat.lt_of_lt_of_le hs hm)

namespace HaltsAt

variable {α β : Type} {P C : List TokenKind → Prop} {s s₁ : Stream} {pre : List TokenKind}
  {p : Parse α} {m : Mark}

theorem stuck_behind {e : ExprError} (hpre : Took s pre s₁)
    (hP : ∀ text, C text → Opens P (pre ++ text)) (h : Stuck C s₁.tokens e) :
    Stuck P s.tokens e := by
  rcases h with hdeep | htwice | ⟨text, rest, hspells, heof, ⟨more, hC⟩, rfl⟩
  · exact .inl hdeep
  · exact .inr (.inl htwice)
  · obtain ⟨last, hlast⟩ := hP _ hC
    refine .inr (.inr ⟨_, rest, hpre.spells.append hspells, ?_, ⟨more ++ last, ?_⟩, rfl⟩)
    · exact List.not_mem_append hpre.noEof heof
    · simpa using hlast

theorem stuck_here (hpre : Took s pre s₁) (hP : Opens P pre) :
    Stuck P s.tokens (refusal s₁.tokens) :=
  .inr (.inr ⟨pre, s₁.tokens, hpre.spells, hpre.noEof, hP, rfl⟩)

theorem pure {a : α} : HaltsAt P s.tokens (pure a) s₁ := trivial

/-- A part that fails is on the way to a text that is part of a greater one. -/
theorem bind {f : α → Parse β} {Q : α → Stream → Prop} (hpre : Took s pre s₁)
    (hhalts : HaltsAt C s₁.tokens p s₁) (hsound : Runs p s₁ Q (· ≠ .empty))
    (hP : ∀ text, C text → Opens P (pre ++ text))
    (hf : ∀ a s₂, Q a s₂ → HaltsAt P s.tokens (f a) s₂) : HaltsAt P s.tokens (p >>= f) s₁ := by
  refine Runs.bind (Q := Q) ?_ hf
  unfold HaltsAt Runs at hhalts
  unfold Runs at hsound ⊢
  split <;> rename_i heq <;> rw [heq] at hhalts hsound
  · exact hsound
  · exact stuck_behind hpre hP hhalts

/-- What goes on behind the tokens that were taken. -/
theorem tail (hpre : Took s pre s₁) (hhalts : HaltsAt C s₁.tokens p s₁)
    (hP : ∀ text, C text → Opens P (pre ++ text)) : HaltsAt P s.tokens p s₁ := by
  unfold HaltsAt Runs at hhalts ⊢
  split <;> rename_i heq <;> rw [heq] at hhalts
  · trivial
  · exact stuck_behind hpre hP hhalts

theorem expect {f : Unit → Parse β} (hpre : Took s pre s₁) (hP : Opens P pre)
    (hf : ∀ s₂, Took s (pre ++ [.mark m]) s₂ → HaltsAt P s.tokens (f ()) s₂) :
    HaltsAt P s.tokens (expect m >>= f) s₁ := by
  have hstuck := stuck_here hpre hP
  refine Runs.bind (Q := fun _ s₂ => Took s (pre ++ [.mark m]) s₂) ?_ fun _ s₂ h => hf s₂ h
  refine Runs.next (fun hnil => ?_) fun token s₂ htokens htook => Runs.ite ?_ ?_
  · rwa [hnil] at hstuck
  · intro hmark
    rw [Token.isMark_iff.mp hmark] at htook
    exact hpre.trans (htook nofun)
  · intro _
    rw [htokens] at hstuck
    exact Runs.throw hstuck

theorem expectIdent {f : String → Parse β} (hpre : Took s pre s₁) (hP : Opens P pre)
    (hf : ∀ name s₂, Took s (pre ++ [.ident name]) s₂ → HaltsAt P s.tokens (f name) s₂) :
    HaltsAt P s.tokens (expectIdent >>= f) s₁ := by
  have hstuck := stuck_here hpre hP
  refine Runs.bind (Q := fun name s₂ => Took s (pre ++ [.ident name]) s₂) ?_
    fun name s₂ h => hf name s₂ h
  refine Runs.next (fun hnil => ?_) fun token s₂ htokens htook => ?_
  · rwa [hnil] at hstuck
  · split
    · next name hkind =>
        rw [hkind] at htook
        exact Runs.pure (hpre.trans (htook nofun))
    · rw [htokens] at hstuck
      exact Runs.throw hstuck

theorem ifConsume {yes no : Parse β} (hpre : Took s pre s₁)
    (hyes : ∀ s₂, Took s (pre ++ [.mark m]) s₂ → HaltsAt P s.tokens yes s₂)
    (hno : HaltsAt P s.tokens no s₁) :
    HaltsAt P s.tokens (do if ← consume m then yes else no) s₁ :=
  Runs.ifConsume (fun s₂ htook => hyes s₂ (hpre.trans htook)) fun _ => hno

theorem enter {f : Unit → Parse β} (hpre : Took s pre s₁)
    (hf : ∀ s₂, Took s pre s₂ → s₂.tokens = s₁.tokens → HaltsAt P s.tokens (f ()) s₂) :
    HaltsAt P s.tokens (enter >>= f) s₁ := by
  refine Runs.enter (fun limit position => .inl ⟨limit, position, rfl⟩) fun s₂ hs₂ => ?_
  exact hf s₂ ⟨hs₂ ▸ hpre.spells, hpre.noEof⟩ hs₂

theorem restoringDepth (h : HaltsAt P s.tokens p s₁) :
    HaltsAt P s.tokens (restoringDepth p) s₁ :=
  Runs.restoringDepth h

theorem rangeFrom {f : Range → Parse β} {start : Position}
    (h : ∀ range, HaltsAt P s.tokens (f range) s₁) :
    HaltsAt P s.tokens (rangeFrom start >>= f) s₁ :=
  Runs.rangeFrom h

theorem rounds {f : Nat → Parse β} (h : HaltsAt P s.tokens (f (s₁.tokens.length + 1)) s₁) :
    HaltsAt P s.tokens (rounds >>= f) s₁ :=
  Runs.rounds h

end HaltsAt

section Leaves

/-- The names that can stand behind those `seen`. -/
def FreshNames (seen : List String) (text : List TokenKind) : Prop :=
  ∃ names : List String, names ≠ [] ∧ text = nameList names ∧ names.Nodup ∧
    ∀ name ∈ names, name ∉ seen

theorem exists_fresh (seen : List String) : ∃ name : String, name ∉ seen := by
  obtain ⟨name, hname⟩ := Infinite.exists_notMem_finset seen.toFinset
  exact ⟨name, by simpa using hname⟩

theorem halts_parameters (seen : List String) (fuel : Nat) :
    Halts fuel (FreshNames seen) (parameters seen fuel) := by
  induction fuel generalizing seen with
  | zero => exact fun s hs => absurd hs (Nat.not_lt_zero _)
  | succ fuel ih =>
      intro s hs
      obtain ⟨fresh, hfresh⟩ := exists_fresh seen
      apply HaltsAt.expectIdent (.refl s)
      · exact ⟨[.ident fresh], [fresh], nofun, rfl, by simp, by simpa using hfresh⟩
      intro name s₁ hname
      refine Runs.ite (fun _ => Runs.throw (.inr (.inl ⟨name, rfl⟩))) fun hseen => ?_
      apply HaltsAt.ifConsume hname _ .pure
      intro s₂ hcomma
      have hlt := hcomma.length_lt nofun
      apply HaltsAt.bind hcomma (ih (name :: seen) s₂ (by omega)) (takes_parameters s₂ _ fuel)
      · rintro _ ⟨names, hne, rfl, hnodup, hnot⟩
        exact ⟨[], name :: names, nofun, by simp [nameList_cons name hne],
          fresh_cons_iff.mpr ⟨hseen, hnodup, hnot⟩⟩
      · exact fun _ _ _ => .pure

/-- The names that something can be bound to. -/
def TargetNames (text : List TokenKind) : Prop :=
  ∃ names : List String, names ≠ [] ∧ text = nameList names

theorem halts_targets (fuel : Nat) : Halts fuel TargetNames (targets fuel) := by
  induction fuel with
  | zero => exact fun s hs => absurd hs (Nat.not_lt_zero _)
  | succ fuel ih =>
      intro s hs
      apply HaltsAt.expectIdent (.refl s)
      · exact ⟨[.ident "x"], ["x"], nofun, rfl⟩
      intro name s₁ hname
      apply HaltsAt.ifConsume hname _ .pure
      intro s₂ hcomma
      have hlt := hcomma.length_lt nofun
      apply HaltsAt.bind hcomma (ih s₂ (by omega)) (takes_targets s₂ fuel)
      · rintro _ ⟨names, hne, rfl⟩
        exact ⟨[], name :: names, nofun, by simp [nameList_cons name hne]⟩
      · exact fun _ _ _ => .pure

end Leaves

section Loops

variable {π α τ : Type} {part : Part π α τ} {item : Parse α} {n : Nat}

/-- The text of one of the parts. -/
def Part.Writes (part : Part π α τ) (text : List TokenKind) : Prop :=
  ∃ p, part.Derived p ∧ part.text p = text

/-- Parts with commas between them, and the mark behind them. -/
def Part.Lists (part : Part π α τ) (close : Mark) (text : List TokenKind) : Prop :=
  ∃ (ps : List π) (trailing : Bool), (∀ p ∈ ps, part.Derived p) ∧
    text = separated trailing (ps.map part.text) ++ [.mark close]

/-- Parts with a word in front of each. -/
def Part.Repeats (part : Part π α τ) (word : Mark) (text : List TokenKind) : Prop :=
  ∃ ps : List π, (∀ p ∈ ps, part.Derived p) ∧ text = ps.flatMap fun p => .mark word :: part.text p

theorem Part.Lists.cons {close : Mark} {p : π} (hp : part.Derived p) {text : List TokenKind}
    (h : part.Lists close text) : part.Lists close (part.text p ++ .mark .comma :: text) := by
  obtain ⟨ps, trailing, hps, rfl⟩ := h
  obtain ⟨last, hlast⟩ := exists_separated_cons trailing (part.text p) (ps.map part.text)
  refine ⟨p :: ps, last, List.forall_mem_cons.mpr ⟨hp, hps⟩, ?_⟩
  rw [List.map_cons, hlast, List.append_assoc, List.cons_append]

theorem Part.Lists.single (close : Mark) {p : π} (hp : part.Derived p) :
    part.Lists close (part.text p ++ [.mark close]) :=
  ⟨[p], false, by simpa using hp, rfl⟩

theorem halts_listOf (hitem : Halts n part.Writes item) (hsound : part.Taken item) (close : Mark)
    {fuel : Nat} (hfuel : fuel ≤ n) :
    Halts fuel (part.Lists close) (listOf item close fuel) := by
  induction fuel with
  | zero => exact fun s hs => absurd hs (Nat.not_lt_zero _)
  | succ fuel ih =>
      intro s hs
      apply HaltsAt.ifConsume (.refl s)
      · exact fun _ _ => .pure
      apply HaltsAt.bind (.refl s) (hitem s (by omega)) (hsound s)
      · rintro _ ⟨p, hp, rfl⟩
        exact ⟨[.mark close], .single close hp⟩
      rintro a s₁ ⟨_, htook, p, hp, rfl, -⟩
      apply HaltsAt.ifConsume htook
      · intro s₂ hcomma
        have hlt := hcomma.length_lt (by simp)
        apply HaltsAt.bind hcomma (ih (by omega) s₂ (by omega)) (takes_listOf hsound close fuel s₂)
        · intro text htext
          exact ⟨[], by simpa using htext.cons hp⟩
        · exact fun _ _ _ => .pure
      · apply HaltsAt.expect htook
        · exact ⟨[.mark close], .single close hp⟩
        · exact fun _ _ => .pure

theorem halts_collect (hitem : Halts n part.Writes item) (hsound : part.Taken item) (word : Mark)
    (fuel : Nat) : Halts (n + 1) (part.Repeats word) (collect item word fuel) := by
  induction fuel with
  | zero => exact fun _ _ => .pure
  | succ fuel ih =>
      intro s hs
      apply HaltsAt.ifConsume (.refl s) _ .pure
      intro s₁ hword
      have hlt := hword.length_lt nofun
      apply HaltsAt.bind hword (hitem s₁ (by omega)) (hsound s₁)
      · rintro _ ⟨p, hp, rfl⟩
        exact ⟨[], [p], by simpa using hp, by simp⟩
      rintro a s₂ ⟨_, htook, p, hp, rfl, -⟩
      have hle := htook.length_le
      apply HaltsAt.bind (hword.trans htook) (ih s₂ (by omega)) (takes_collect hsound word fuel s₂)
      · rintro _ ⟨ps, hps, rfl⟩
        exact ⟨[], p :: ps, List.forall_mem_cons.mpr ⟨hp, hps⟩, by simp⟩
      · exact fun _ _ _ => .pure

theorem writes_phrases {level : Level} {text : List TokenKind} :
    (phrases level).Writes text ↔ Writes level text := by
  constructor
  · rintro ⟨p, hp, rfl⟩
    exact ⟨p.tree, hp⟩
  · rintro ⟨tree, htree⟩
    exact ⟨⟨text, tree⟩, htree, rfl⟩

theorem Halts.phrases {level : Level} {item : Parse Expr} (h : Halts n (Writes level) item) :
    Halts n (phrases level).Writes item := by
  intro s hs
  apply HaltsAt.tail (.refl s) (h s hs)
  intro text htext
  exact ⟨[], by simpa using writes_phrases.mpr htext⟩

theorem halts_joins {level : Level} {operand : Parse Expr}
    (hoperand : Halts n (Writes level) operand) (hsound : Accepts level operand) (word : Mark)
    (join : Expr → Expr → Expr) (fuel : Nat) (lhs : Expr) :
    Halts (n + 1) ((phrases level).Repeats word) (joins word operand join lhs fuel) := by
  induction fuel generalizing lhs with
  | zero => exact fun _ _ => .pure
  | succ fuel ih =>
      intro s hs
      apply HaltsAt.ifConsume (.refl s) _ .pure
      intro s₁ hword
      have hlt := hword.length_lt nofun
      apply HaltsAt.enter hword
      intro s₂ hopened hs₂
      rw [← hs₂] at hlt
      apply HaltsAt.bind hopened (hoperand s₂ (by omega)) (hsound s₂)
      · rintro text ⟨tree, htree⟩
        exact ⟨[], [⟨text, tree⟩], List.forall_mem_singleton.mpr htree, by simp [phrases]⟩
      rintro rhs s₃ ⟨text, htook, htree⟩
      have hle := htook.length_le
      apply HaltsAt.tail (hopened.trans htook) (ih _ s₃ (by omega))
      rintro _ ⟨ps, hps, rfl⟩
      exact ⟨[], ⟨text, rhs.bare⟩ :: ps, List.forall_mem_cons.mpr ⟨htree, hps⟩, by simp [phrases]⟩

end Loops

section Items

variable {item : Parse Expr} {n : Nat}

/-- A name alone is a phrase of every level. -/
theorem Derives.atom (level : Level) : Derives level [.ident "x"] (.ident "x" {}) := by
  have hprimary : Derives .primary [.ident "x"] (.ident "x" {}) := .name "x"
  have hsuffixed : Derives .suffixed [.ident "x"] (.ident "x" {}) :=
    @Derives.suffixed ⟨_, _⟩ [] hprimary (List.forall_mem_nil _)
  have hunary : Derives .unary [.ident "x"] (.ident "x" {}) := .unary (.power hsuffixed)
  have hproduct : Derives .product [.ident "x"] (.ident "x" {}) := hunary.factors .nil
  have hsum : Derives .sum [.ident "x"] (.ident "x" {}) := hproduct.terms .nil
  have hcomparison : Derives .comparison [.ident "x"] (.ident "x" {}) := hsum.comparisons .nil
  have hconjunction : Derives .conjunction [.ident "x"] (.ident "x" {}) :=
    @Derives.conjunction ⟨_, _⟩ [] (.negation hcomparison) (List.forall_mem_nil _)
  have hdisjunction : Derives .disjunction [.ident "x"] (.ident "x" {}) :=
    @Derives.disjunction ⟨_, _⟩ [] hconjunction (List.forall_mem_nil _)
  cases level with
  | expr => exact .expr hdisjunction
  | disjunction => exact hdisjunction
  | conjunction => exact hconjunction
  | negation => exact .negation hcomparison
  | comparison => exact hcomparison
  | sum => exact hsum
  | product => exact hproduct
  | unary => exact hunary
  | power => exact .power hsuffixed
  | suffixed => exact hsuffixed
  | primary => exact hprimary

theorem halts_entry (hitem : Halts n (Writes .expr) item) (hsound : Accepts .expr item) :
    Halts n entryPhrases.Writes (entry item) := by
  have hatom : Derives .expr [.ident "x"] _ := .atom .expr
  intro s hs
  apply HaltsAt.bind (.refl s) (hitem s hs) (hsound s)
  · rintro text ⟨key, hkey⟩
    exact ⟨[.mark .colon, .ident "x"], ⟨⟨text, key⟩, ⟨_, _⟩⟩, ⟨hkey, hatom⟩, rfl⟩
  rintro key s₁ ⟨text, htook, hkey⟩
  apply HaltsAt.expect htook
  · exact ⟨[.mark .colon, .ident "x"], ⟨⟨text, key.bare⟩, ⟨_, _⟩⟩, ⟨hkey, hatom⟩, rfl⟩
  intro s₂ hcolon
  have hle := hcolon.length_le
  apply HaltsAt.bind hcolon (hitem s₂ (by omega)) (hsound s₂)
  · rintro more ⟨value, hvalue⟩
    exact ⟨[], ⟨⟨text, key.bare⟩, ⟨more, value⟩⟩, ⟨hkey, hvalue⟩,
      by simp [entryPhrases, EntryPhrase.text]⟩
  · exact fun _ _ _ => .pure

theorem halts_clause (hitem : Halts n (Writes .disjunction) item)
    (hsound : Accepts .disjunction item) : Halts n clausePhrases.Writes (clause item) := by
  -- The clause of some names, a source, and conditions.
  have hwrites : ∀ {names : List String} {text : List TokenKind} {tree : Expr} (ps : List Phrase),
      names ≠ [] → Derives .disjunction text tree →
        (∀ p ∈ ps, Derives .disjunction p.text p.tree) →
          clausePhrases.Writes
            (nameList names ++ .mark .inWord :: text ++ repeated .ifWord ps) := by
    intro names text tree ps hne htree hps
    exact ⟨⟨names, ⟨text, tree⟩, ps⟩, ⟨hne, List.forall_mem_cons.mpr ⟨htree, hps⟩⟩, rfl⟩
  have hatom : ∀ {names : List String}, names ≠ [] →
      clausePhrases.Writes (nameList names ++ .mark .inWord :: [.ident "x"]) := by
    intro names hne
    simpa [repeated] using hwrites [] hne (.atom .disjunction) (List.forall_mem_nil _)
  intro s hs
  refine Runs.rounds ?_
  apply HaltsAt.bind (.refl s) (halts_targets _ s (Nat.lt_succ_self _)) (takes_targets s _)
  · rintro _ ⟨names, hne, rfl⟩
    exact ⟨_, hatom hne⟩
  rintro names s₁ ⟨_, hnames, hne, rfl⟩
  apply HaltsAt.expect hnames ⟨_, hatom hne⟩
  intro s₂ hin
  have hle := hin.length_le
  apply HaltsAt.bind hin (hitem s₂ (by omega)) (hsound s₂)
  · rintro text ⟨tree, htree⟩
    exact ⟨[], by simpa [repeated] using hwrites [] hne htree (List.forall_mem_nil _)⟩
  rintro source s₃ ⟨text, htook, htree⟩
  have hle' := htook.length_le
  refine Runs.rounds ?_
  rw [conditions_eq]
  apply HaltsAt.bind (hin.trans htook)
    (halts_collect hitem.phrases hsound.taken .ifWord _ s₃ (by omega))
    (takes_collect hsound.taken .ifWord _ s₃)
  · rintro _ ⟨ps, hps, rfl⟩
    exact ⟨[], by simpa [repeated, phrases] using hwrites ps hne htree hps⟩
  · exact fun _ _ _ => .pure

end Items

/-- On fewer than `n` tokens, the parsers that are called back into are stuck on the way to
phrases of their levels. -/
structure Descent.Halting (n : Nat) (d : Descent) : Prop where
  sound : d.Sound
  expr : Halts n (Writes .expr) d.expr
  notOperand : Halts n (Writes .negation) d.notOperand
  unaryOperand : Halts n (Writes .unary) d.unaryOperand
  disjunction : Halts n (Writes .disjunction) d.disjunction

section Texts

/-- What can follow a value. -/
def SuffixText (text : List TokenKind) : Prop :=
  ∃ xs : List Suffix, (∀ x ∈ xs, ∀ p ∈ x.phrases, Derives .expr p.text p.tree) ∧
    text = xs.flatMap Suffix.text

/-- Operators of a level, each with an operand. -/
def OperandText (level operand : Level) (text : List TokenKind) : Prop :=
  ∃ more : Operands, more.Derived level operand ∧ text = more.text

/-- What operators of at least the precedence `least` can come to: factors, and then terms. -/
def ClimbText (least : Nat) (text : List TokenKind) : Prop :=
  ∃ factors terms : Operands, factors.Derived .product .unary ∧ terms.Derived .sum .product ∧
    (2 < least → terms = []) ∧ text = factors.text ++ terms.text

variable {text more : List TokenKind} {tree : Expr}

theorem SuffixText.cons {x : Suffix} (hx : ∀ p ∈ x.phrases, Derives .expr p.text p.tree)
    (h : SuffixText text) : SuffixText (x.text ++ text) := by
  obtain ⟨xs, hxs, rfl⟩ := h
  exact ⟨x :: xs, List.forall_mem_cons.mpr ⟨hx, hxs⟩, rfl⟩

theorem OperandText.cons {level operand : Level} {op : BinaryOp} (hop : op.level = level)
    (hoperand : Derives operand text tree) (h : OperandText level operand more) :
    OperandText level operand (op.spelling ++ text ++ more) := by
  obtain ⟨operands, hoperands, rfl⟩ := h
  exact ⟨(op, ⟨text, tree⟩) :: operands, hoperands.cons hop hoperand, rfl⟩

theorem OperandText.nil {level operand : Level} : OperandText level operand [] := ⟨[], .nil, rfl⟩

theorem Derives.lists_single (close : Mark) (h : Derives .expr text tree) :
    (phrases .expr).Lists close (text ++ [.mark close]) :=
  .single close (show (phrases .expr).Derived ⟨text, tree⟩ from h)

theorem Derives.lists_cons {close : Mark} (h : Derives .expr text tree)
    (hmore : (phrases .expr).Lists close more) :
    (phrases .expr).Lists close (text ++ .mark .comma :: more) :=
  hmore.cons (show (phrases .expr).Derived ⟨text, tree⟩ from h)

theorem Derives.writes_list (h : (phrases .expr).Lists .rightBracket text) :
    Writes .primary (.mark .leftBracket :: text) := by
  obtain ⟨ps, trailing, hps, rfl⟩ := h
  exact ⟨_, @Derives.list ps trailing hps⟩

theorem Derives.writes_comprehension (htree : Derives .expr text tree)
    (h : clausePhrases.Repeats .forWord more) :
    Writes .primary (.mark .leftBracket :: text ++ more ++ [.mark .rightBracket]) := by
  obtain ⟨cs, hcs, rfl⟩ := h
  by_cases hnil : cs = []
  · subst hnil
    simpa using writes_list (htree.lists_single .rightBracket)
  · exact ⟨_, @Derives.comprehension ⟨text, tree⟩ cs htree hnil (fun c hc => (hcs c hc).1)
      fun c hc => (hcs c hc).2⟩

end Texts

namespace Descent.Halting

variable {d : Descent} {n : Nat}

theorem list (h : d.Halting n) (start : Position) {s s₁ : Stream}
    (hopen : Took s [.mark .leftBracket] s₁) (hs : s.tokens.length < n + 1) :
    HaltsAt (Writes .primary) s.tokens (d.list start) s₁ := by
  have hlt := hopen.length_lt nofun
  apply HaltsAt.ifConsume hopen
  · exact fun s₂ _ => .rangeFrom fun _ => .pure
  apply HaltsAt.bind hopen (h.expr s₁ (by omega)) (h.sound.expr s₁)
  · rintro text ⟨tree, htree⟩
    exact ⟨[.mark .rightBracket], Derives.writes_list (htree.lists_single .rightBracket)⟩
  rintro first s₂ ⟨text, hfirst, htree⟩
  have hle := hfirst.length_le
  have htook := hopen.cons hfirst
  refine Runs.ifPeek (fun _ => Runs.rounds ?_) fun _ => ?_
  · rw [clauses_eq]
    have hclause := halts_clause h.disjunction h.sound.disjunction
    apply HaltsAt.bind htook (halts_collect hclause (taken_clause h.sound.disjunction) .forWord _
      s₂ (by omega)) (takes_collect (taken_clause h.sound.disjunction) .forWord _ s₂)
    · intro more hmore
      exact ⟨[.mark .rightBracket], htree.writes_comprehension hmore⟩
    rintro parts s₃ ⟨_, hparts, cs, hcs, rfl, -, -⟩
    apply HaltsAt.expect (htook.trans hparts)
    · exact ⟨[.mark .rightBracket], htree.writes_comprehension ⟨cs, hcs, rfl⟩⟩
    · exact fun _ _ => .rangeFrom fun _ => .pure
  · apply HaltsAt.ifConsume htook
    · intro s₃ hcomma
      have hlt' := hcomma.length_lt nofun
      refine Runs.rounds ?_
      rw [sequence_eq]
      have hlist := halts_listOf h.expr.phrases h.sound.expr.taken .rightBracket
        (show s₃.tokens.length + 1 ≤ n by omega)
      apply HaltsAt.bind hcomma (hlist s₃ (Nat.lt_succ_self _))
        (takes_listOf h.sound.expr.taken .rightBracket _ s₃)
      · intro more hmore
        exact ⟨[], by simpa using Derives.writes_list (htree.lists_cons hmore)⟩
      · exact fun _ _ _ => .rangeFrom fun _ => .pure
    · apply HaltsAt.expect htook
      · exact ⟨[.mark .rightBracket], Derives.writes_list (htree.lists_single .rightBracket)⟩
      · exact fun _ _ => .rangeFrom fun _ => .pure

theorem primary (h : d.Halting n) : Halts (n + 1) (Writes .primary) d.primary := by
  intro s hs
  have hname : Writes .primary [.ident "x"] := ⟨_, .atom .primary⟩
  have hstuck := HaltsAt.stuck_here (.refl s) ⟨_, hname⟩
  refine Runs.next (fun hnil => ?_) fun token s₁ htokens htook => ?_
  · rw [hnil] at hstuck ⊢
    exact hstuck
  dsimp only
  split
  case h_7 hkind =>
    rw [hkind] at htook
    have hopen := htook nofun
    have hlt := hopen.length_lt nofun
    apply HaltsAt.bind hopen (h.expr s₁ (by omega)) (h.sound.expr s₁)
    · rintro text ⟨tree, htree⟩
      exact ⟨[.mark .rightParen], tree, .paren htree⟩
    rintro inner s₂ ⟨text, hinner, htree⟩
    apply HaltsAt.expect (hopen.cons hinner)
    · exact ⟨[.mark .rightParen], _, .paren htree⟩
    · exact fun _ _ => .rangeFrom fun _ => .pure
  case h_8 hkind =>
    rw [hkind] at htook
    exact h.list _ (htook nofun) hs
  case h_9 hkind =>
    rw [hkind] at htook
    have hopen := htook nofun
    have hlt := hopen.length_lt nofun
    apply HaltsAt.rounds
    rw [entries_eq]
    have hentries := halts_listOf (halts_entry h.expr h.sound.expr) (taken_entry h.sound.expr)
      .rightBrace (show s₁.tokens.length + 1 ≤ n by omega)
    apply HaltsAt.bind hopen (hentries s₁ (Nat.lt_succ_self _))
      (takes_listOf (taken_entry h.sound.expr) .rightBrace _ s₁)
    · rintro _ ⟨es, trailing, hes, rfl⟩
      have hderives := @Derives.dict es trailing (fun e he => (hes e he).1)
        (fun e he => (hes e he).2)
      exact ⟨[], _, by simpa [entryPhrases] using hderives⟩
    · exact fun _ _ _ => .rangeFrom fun _ => .pure
  case h_10 =>
    rw [htokens] at hstuck ⊢
    exact Runs.throw hstuck
  all_goals exact HaltsAt.rangeFrom fun _ => .pure

theorem suffixes (h : d.Halting n) (start : Position) (value : Expr) (fuel : Nat) :
    Halts (n + 1) SuffixText (d.suffixes start value fuel) := by
  induction fuel generalizing value with
  | zero => exact fun _ _ => .pure
  | succ fuel ih =>
      intro s hs
      have hcons : ∀ (x : Suffix) (value' : Expr) (s' : Stream),
          (∀ p ∈ x.phrases, Derives .expr p.text p.tree) → Took s x.text s' →
            HaltsAt SuffixText s.tokens (d.suffixes start value' fuel) s' := by
        intro x value' s' hx htook
        have hle := htook.length_le
        apply HaltsAt.tail htook (ih value' s' (by omega))
        intro text htext
        exact ⟨[], by simpa using htext.cons hx⟩
      apply HaltsAt.ifConsume (.refl s)
      · intro s₁ hdot
        apply HaltsAt.enter hdot
        intro s₂ hdot _
        apply HaltsAt.expectIdent hdot
        · exact ⟨[.ident "x"], [.member "x"],
            List.forall_mem_singleton.mpr (List.forall_mem_nil _), rfl⟩
        · exact fun name s₃ hname => .rangeFrom fun _ =>
            hcons (.member name) _ s₃ (List.forall_mem_nil _) hname
      apply HaltsAt.ifConsume (.refl s)
      · intro s₁ hopen
        have hlt := hopen.length_lt (List.cons_ne_nil _ _)
        apply HaltsAt.enter hopen
        intro s₂ hopen hs₂
        rw [← hs₂] at hlt
        have hindex : ∀ {text : List TokenKind} {tree : Expr}, Derives .expr text tree →
            SuffixText (.mark .leftBracket :: text ++ [.mark .rightBracket]) := by
          intro text tree htree
          exact ⟨[.index ⟨text, tree⟩], by simpa [Suffix.phrases] using htree,
            by simp [Suffix.text]⟩
        apply HaltsAt.bind hopen (h.expr s₂ (by omega)) (h.sound.expr s₂)
        · rintro text ⟨tree, htree⟩
          exact ⟨[.mark .rightBracket], hindex htree⟩
        rintro position s₃ ⟨text, hposition, htree⟩
        apply HaltsAt.expect (hopen.trans hposition)
        · exact ⟨[.mark .rightBracket], hindex htree⟩
        · exact fun s₄ hclose => .rangeFrom fun _ => hcons (.index ⟨text, position.bare⟩) _ s₄
            (by simpa [Suffix.phrases] using htree) hclose
      apply HaltsAt.ifConsume (.refl s)
      · intro s₁ hopen
        have hlt := hopen.length_lt (List.cons_ne_nil _ _)
        apply HaltsAt.enter hopen
        intro s₂ hopen hs₂
        rw [← hs₂] at hlt
        apply HaltsAt.rounds
        rw [sequence_eq]
        have hargs := halts_listOf h.expr.phrases h.sound.expr.taken .rightParen
          (show s₂.tokens.length + 1 ≤ n by omega)
        apply HaltsAt.bind hopen (hargs s₂ (Nat.lt_succ_self _))
          (takes_listOf h.sound.expr.taken .rightParen _ s₂)
        · rintro _ ⟨ps, trailing, hps, rfl⟩
          exact ⟨[], [.call ps trailing], List.forall_mem_singleton.mpr hps,
            by simp [Suffix.text, phrases]⟩
        rintro args s₃ ⟨_, hargs, ps, trailing, hps, rfl, -⟩
        exact .rangeFrom fun _ => hcons (.call ps trailing) _ s₃ hps (hopen.trans hargs)
      · exact .pure

theorem suffixed (h : d.Halting n) : Halts (n + 1) (Writes .suffixed) d.suffixed := by
  intro s hs
  refine HaltsAt.restoringDepth (Runs.peekStart fun start => ?_)
  apply HaltsAt.bind (.refl s) (h.primary s hs) (h.sound.primary s)
  · rintro text ⟨tree, htree⟩
    exact ⟨[], _, by simpa using @Derives.suffixed ⟨text, tree⟩ [] htree (List.forall_mem_nil _)⟩
  rintro value s₁ ⟨text, hvalue, htree⟩
  have hle := hvalue.length_le
  apply HaltsAt.rounds
  apply HaltsAt.tail hvalue (h.suffixes start value _ s₁ (by omega))
  rintro _ ⟨xs, hxs, rfl⟩
  exact ⟨[], _, by simpa using @Derives.suffixed ⟨text, value.bare⟩ xs htree hxs⟩

theorem power (h : d.Halting n) : Halts (n + 1) (Writes .power) d.power := by
  intro s hs
  apply HaltsAt.bind (.refl s) (h.suffixed s hs) (h.sound.suffixed s)
  · rintro text ⟨tree, htree⟩
    exact ⟨[], tree, by simpa using Derives.power htree⟩
  rintro base s₁ ⟨text, hbase, htree⟩
  have hle := hbase.length_le
  apply HaltsAt.ifConsume hbase _ .pure
  intro s₂ hpow
  have hlt := hpow.length_lt (by simp)
  apply HaltsAt.bind hpow (h.unaryOperand s₂ (by omega)) (h.sound.unaryOperand s₂)
  · rintro more ⟨tree, htree'⟩
    exact ⟨[], _, by simpa using @Derives.pow ⟨text, base.bare⟩ ⟨more, tree⟩ htree htree'⟩
  · exact fun _ _ _ => .pure

theorem unary (h : d.Halting n) : Halts (n + 1) (Writes .unary) d.unary := by
  intro s hs
  refine Runs.peekStart fun start => ?_
  apply HaltsAt.ifConsume (.refl s)
  · intro s₁ hminus
    have hlt := hminus.length_lt nofun
    apply HaltsAt.bind hminus (h.unaryOperand s₁ (by omega)) (h.sound.unaryOperand s₁)
    · rintro text ⟨tree, htree⟩
      exact ⟨[], _, by simpa using Derives.minus htree⟩
    · exact fun _ _ _ => .rangeFrom fun _ => .pure
  apply HaltsAt.ifConsume (.refl s)
  · intro s₁ hplus
    have hlt := hplus.length_lt nofun
    apply HaltsAt.bind hplus (h.unaryOperand s₁ (by omega)) (h.sound.unaryOperand s₁)
    · rintro text ⟨tree, htree⟩
      exact ⟨[], _, by simpa using Derives.plus htree⟩
    · exact fun _ _ _ => .rangeFrom fun _ => .pure
  apply HaltsAt.tail (.refl s) (h.power s hs)
  rintro text ⟨tree, htree⟩
  exact ⟨[], tree, by simpa using Derives.unary htree⟩

end Descent.Halting

/-- Only `not` can be without what has to follow it. -/
theorem halts_operator (s : Stream) (hfront : frontPrecedence s.tokens ≠ 0) :
    HaltsAt (fun text => ∃ op : BinaryOp, op.spelling = text ∧
      op.level.precedence = frontPrecedence s.tokens) s.tokens operator s := by
  refine Runs.next (fun hnil => ?_) fun token s₁ htokens htook => ?_
  · rw [hnil] at hfront
    exact absurd rfl hfront
  have hkind : token.kind.precedence = frontPrecedence s.tokens := by rw [htokens]; rfl
  split
  case h_8 hnot =>
    rw [hnot] at htook hkind
    apply HaltsAt.expect (htook nofun) ⟨[.mark .inWord], .notIn, rfl, hkind⟩
    exact fun _ _ => .pure
  case h_15 =>
    exfalso
    apply hfront
    rw [← hkind]
    rcases hmark : token.kind with n | s | name | m | _
    case mark => cases m <;> simp_all [TokenKind.precedence, Mark.precedence]
    all_goals rfl
  all_goals exact HaltsAt.pure

section Climbing

variable {least : Nat} {op : BinaryOp} {operand : Expr} {text : List TokenKind}
  {factors more : Operands}

/-- Operands that an operator of a sum or a product goes on with. -/
theorem ClimbText.step (hlevel : op.level = .product ∧ more = [] ∨ op.level = .sum)
    (hleast : least ≤ op.level.precedence) (htree : Derives .unary text operand)
    (hmore : more.Derived .product .unary) {rest : List TokenKind} (h : ClimbText least rest) :
    ClimbText least (op.spelling ++ text ++ more.text ++ rest) := by
  obtain ⟨factors, terms, hfactors, hterms, hnone, rfl⟩ := h
  rcases hlevel with ⟨hlevel, rfl⟩ | hlevel
  · refine ⟨(op, ⟨text, operand⟩) :: factors, terms, hfactors.cons hlevel htree, hterms, hnone, ?_⟩
    simp [Operands.text]
  · rw [hlevel] at hleast
    have hproduct := htree.factors (List.forall_mem_append.mpr ⟨hmore, hfactors⟩)
    refine ⟨[], (op, ⟨text ++ (more ++ factors).text, _⟩) :: terms, .nil,
      hterms.cons hlevel hproduct, fun hlt => absurd hleast (Nat.not_le.mpr hlt), ?_⟩
    simp [Operands.text]

theorem ClimbText.nil : ClimbText least [] := ⟨[], [], .nil, .nil, fun _ => rfl, rfl⟩

end Climbing

namespace Descent.Halting

variable {d : Descent} {n : Nat}

theorem operators (h : d.Halting n) {least : Nat} (hleast : 2 ≤ least) (lhs : Expr) (fuel : Nat)
    (s : Stream) (hs : s.tokens.length < n + 1) (hfuel : s.tokens.length < fuel) :
    HaltsAt (ClimbText least) s.tokens (d.operators least lhs fuel) s := by
  induction fuel generalizing least lhs s with
  | zero => exact absurd hfuel (Nat.not_lt_zero _)
  | succ fuel ih =>
      refine Runs.peekPrecedence (Runs.ite (fun _ => HaltsAt.pure) fun hgo => ?_)
      simp only [Bool.or_eq_true, decide_eq_true_eq, not_or, Nat.not_lt] at hgo
      have hmost := frontPrecedence_le s.tokens
      apply HaltsAt.enter (.refl s)
      intro s₁ hopened hs₁
      -- Which operators there can be.
      have hlevel : ∀ {op : BinaryOp}, op.level.precedence = frontPrecedence s₁.tokens →
          (op.level = .product ∨ op.level = .sum) ∧ least ≤ op.level.precedence := by
        rw [hs₁]
        intro op hop
        exact ⟨Level.eq_product_or_sum (by omega), hop ▸ hgo.2⟩
      have hoperand : ∀ {op : BinaryOp} {text : List TokenKind} {operand : Expr},
          op.level.precedence = frontPrecedence s₁.tokens → Derives .unary text operand →
            ClimbText least (op.spelling ++ text) := by
        intro op text operand hop htree
        obtain ⟨hwhich, hle⟩ := hlevel hop
        simpa [Operands.text] using
          ClimbText.nil.step (hwhich.imp_left (⟨·, rfl⟩)) hle htree .nil
      apply HaltsAt.bind hopened (halts_operator s₁ (hs₁ ▸ hgo.1)) (takes_operator s₁)
      · rintro _ ⟨op, rfl, hop⟩
        exact ⟨[.ident "x"], hoperand hop (.atom .unary)⟩
      rintro op s₂ ⟨htook, hop⟩
      have hlt := (hopened.trans htook).length_lt op.spelling_ne_nil
      apply HaltsAt.bind (hopened.trans htook) (h.unary s₂ (by omega)) (h.sound.unary s₂)
      · rintro text ⟨operand, htree⟩
        exact ⟨[], by simpa using hoperand hop htree⟩
      rintro operand s₃ ⟨text, hoperand, htree⟩
      have hle := hoperand.length_le
      obtain ⟨hwhich, hleast'⟩ := hlevel hop
      have hpre := (hopened.trans htook).trans hoperand
      refine Runs.peekPrecedence (Runs.ite (fun hfollowing => ?_) fun _ => ?_)
      · -- A factor follows the operand of a term.
        have hmost' := frontPrecedence_le s₃.tokens
        rw [hs₁] at hop
        have hsum : op.level = .sum := Level.eq_sum (by omega)
        have hsound : Runs (restoringDepth (d.operators (frontPrecedence s₃.tokens) operand fuel))
            s₃ (fun _ s₄ => ∃ more : Operands, Took s₃ more.text s₄ ∧
              more.Derived .product .unary) (· ≠ .empty) := by
          refine Runs.restoringDepth (Runs.imp
            (h.sound.operators (by omega) operand fuel s₃ (by omega)) ?_)
          intro rhs s₄ hclimbs
          obtain ⟨factors, hmore, hfactors, -⟩ := hclimbs.factors (by omega)
          exact ⟨factors, hmore.withDepth _, hfactors⟩
        have hinner := ih (show 2 ≤ frontPrecedence s₃.tokens by omega) operand s₃ (by omega)
          (by omega)
        apply HaltsAt.bind hpre hinner.restoringDepth hsound
        · rintro _ ⟨factors, terms, hfactors, -, hnone, rfl⟩
          obtain rfl := hnone (by omega)
          have hstep := ClimbText.nil.step (.inr hsum) hleast' htree hfactors
          exact ⟨[], by simpa [Operands.text] using hstep⟩
        rintro rhs s₄ ⟨more, hmore, hderived⟩
        have hle' := hmore.length_le
        apply HaltsAt.tail (hpre.trans hmore) (ih hleast _ s₄ (by omega) (by omega))
        intro rest hrest
        exact ⟨[], by simpa using hrest.step (.inr hsum) hleast' htree hderived⟩
      · apply HaltsAt.tail hpre (ih hleast _ s₃ (by omega) (by omega))
        intro rest hrest
        have hstep := hrest.step (hwhich.imp_left (⟨·, rfl⟩)) hleast' htree .nil
        exact ⟨[], by simpa [Operands.text] using hstep⟩

theorem arithmetic (h : d.Halting n) : Halts (n + 1) (Writes .sum) d.arithmetic := by
  intro s hs
  apply HaltsAt.bind (.refl s) (h.unary s hs) (h.sound.unary s)
  · rintro text ⟨tree, htree⟩
    exact ⟨[], _, by simpa [Operands.text] using (htree.factors .nil).terms .nil⟩
  rintro lhs s₁ ⟨text, hlhs, htree⟩
  have hle := hlhs.length_le
  refine HaltsAt.restoringDepth (HaltsAt.rounds ?_)
  apply HaltsAt.tail hlhs
    (h.operators (Nat.le_refl 2) lhs _ s₁ (by omega) (Nat.lt_succ_self _))
  rintro _ ⟨factors, terms, hfactors, hterms, -, rfl⟩
  exact ⟨[], _, by simpa using (htree.factors hfactors).terms hterms⟩

theorem comparisons (h : d.Halting n) (chain : Option Expr) (lhs : Expr) (fuel : Nat) :
    Halts (n + 1) (OperandText .comparison .sum) (d.comparisons chain lhs fuel) := by
  induction fuel generalizing chain lhs with
  | zero => exact fun _ _ => HaltsAt.pure
  | succ fuel ih =>
      intro s hs
      refine Runs.peekPrecedence (Runs.ite (fun _ => HaltsAt.pure) fun hone => ?_)
      rw [Decidable.not_not] at hone
      apply HaltsAt.enter (.refl s)
      intro s₁ hopened hs₁
      rw [← hs₁] at hone
      apply HaltsAt.bind hopened (halts_operator s₁ (by omega)) (takes_operator s₁)
      · rintro _ ⟨op, rfl, hop⟩
        have htext := OperandText.nil.cons (Level.eq_comparison (hop.trans hone)) (.atom .sum)
        exact ⟨[.ident "x"], by simpa using htext⟩
      rintro op s₂ ⟨htook, hop⟩
      have hlevel := Level.eq_comparison (hop.trans hone)
      have hle := htook.length_le
      have hle' := hopened.length_le
      apply HaltsAt.bind (hopened.trans htook) (h.arithmetic s₂ (by omega)) (h.sound.arithmetic s₂)
      · rintro text ⟨operand, htree⟩
        exact ⟨[], by simpa using OperandText.nil.cons hlevel htree⟩
      rintro rhs s₃ ⟨text, hrhs, htree⟩
      have hle'' := hrhs.length_le
      apply HaltsAt.tail ((hopened.trans htook).trans hrhs) (ih _ rhs s₃ (by omega))
      intro more hmore
      exact ⟨[], by simpa using hmore.cons hlevel htree⟩

theorem comparison (h : d.Halting n) : Halts (n + 1) (Writes .comparison) d.comparison := by
  intro s hs
  apply HaltsAt.restoringDepth
  apply HaltsAt.bind (.refl s) (h.arithmetic s hs) (h.sound.arithmetic s)
  · rintro text ⟨tree, htree⟩
    exact ⟨[], _, by simpa [Operands.text] using htree.comparisons .nil⟩
  rintro lhs s₁ ⟨text, hlhs, htree⟩
  have hle := hlhs.length_le
  apply HaltsAt.rounds
  apply HaltsAt.tail hlhs (h.comparisons none lhs _ s₁ (by omega))
  rintro _ ⟨more, hmore, rfl⟩
  exact ⟨[], _, by simpa using htree.comparisons hmore⟩

theorem negation (h : d.Halting n) : Halts (n + 1) (Writes .negation) d.negation := by
  intro s hs
  refine Runs.peekStart fun start => ?_
  apply HaltsAt.ifConsume (.refl s)
  · intro s₁ hnot
    have hlt := hnot.length_lt nofun
    apply HaltsAt.bind hnot (h.notOperand s₁ (by omega)) (h.sound.notOperand s₁)
    · rintro text ⟨tree, htree⟩
      exact ⟨[], _, by simpa using Derives.not htree⟩
    · exact fun _ _ _ => .rangeFrom fun _ => .pure
  apply HaltsAt.tail (.refl s) (h.comparison s hs)
  rintro text ⟨tree, htree⟩
  exact ⟨[], tree, by simpa using Derives.negation htree⟩

theorem conjunction (h : d.Halting n) : Halts (n + 1) (Writes .conjunction) d.conjunction := by
  intro s hs
  apply HaltsAt.restoringDepth
  apply HaltsAt.bind (.refl s) (h.negation s hs) (h.sound.negation s)
  · rintro text ⟨tree, htree⟩
    have hderives := @Derives.conjunction ⟨text, tree⟩ [] htree (List.forall_mem_nil _)
    exact ⟨[], tree, by simpa [repeated] using hderives⟩
  rintro lhs s₁ ⟨text, hlhs, htree⟩
  have hle := hlhs.length_le
  apply HaltsAt.rounds
  rw [conjuncts_eq]
  have hjoins := halts_joins (h.negation.mono (Nat.le_succ n)) h.sound.negation .andWord
    (fun lhs rhs => .and lhs rhs (lhs.span rhs)) (s₁.tokens.length + 1) lhs
  apply HaltsAt.tail hlhs (hjoins s₁ (by omega))
  rintro _ ⟨ps, hps, rfl⟩
  have hderives := @Derives.conjunction ⟨text, lhs.bare⟩ ps htree hps
  exact ⟨[], _, by simpa [repeated, phrases] using hderives⟩

theorem disjunctionOf (h : d.Halting n) : Halts (n + 1) (Writes .disjunction) d.disjunctionOf := by
  intro s hs
  apply HaltsAt.restoringDepth
  apply HaltsAt.bind (.refl s) (h.conjunction s hs) (h.sound.conjunction s)
  · rintro text ⟨tree, htree⟩
    have hderives := @Derives.disjunction ⟨text, tree⟩ [] htree (List.forall_mem_nil _)
    exact ⟨[], tree, by simpa [repeated] using hderives⟩
  rintro lhs s₁ ⟨text, hlhs, htree⟩
  have hle := hlhs.length_le
  apply HaltsAt.rounds
  rw [disjuncts_eq]
  have hjoins := halts_joins (h.conjunction.mono (Nat.le_succ n)) h.sound.conjunction .orWord
    (fun lhs rhs => .or lhs rhs (lhs.span rhs)) (s₁.tokens.length + 1) lhs
  apply HaltsAt.tail hlhs (hjoins s₁ (by omega))
  rintro _ ⟨ps, hps, rfl⟩
  have hderives := @Derives.disjunction ⟨text, lhs.bare⟩ ps htree hps
  exact ⟨[], _, by simpa [repeated, phrases] using hderives⟩

theorem lambda (h : d.Halting n) (start : Position) {s s₁ : Stream}
    (hword : Took s [.mark .lambdaWord] s₁) (hs : s.tokens.length < n + 1) :
    HaltsAt (Writes .expr) s.tokens (d.lambda start) s₁ := by
  have hlt := hword.length_lt nofun
  have hatom : ∀ {params : List String}, params.Nodup →
      Writes .expr (.mark .lambdaWord :: nameList params ++ [.mark .colon, .ident "x"]) :=
    fun hnodup => ⟨_, .lambda hnodup (.atom .expr)⟩
  have hbody : ∀ (params : List String) (s₂ : Stream),
      Took s (.mark .lambdaWord :: nameList params) s₂ → params.Nodup →
        HaltsAt (Writes .expr) s.tokens (do
          expect .colon
          let body ← d.expr
          return Expr.lambda params body (← Expr.rangeFrom start)) s₂ := by
    intro params s₂ hparams hnodup
    apply HaltsAt.expect hparams ⟨_, hatom hnodup⟩
    intro s₃ hcolon
    have hlt := hcolon.length_lt (by simp)
    apply HaltsAt.bind hcolon (h.expr s₃ (by omega)) (h.sound.expr s₃)
    · rintro text ⟨tree, htree⟩
      exact ⟨[], _, by simpa using Derives.lambda hnodup htree⟩
    · exact fun _ _ _ => .rangeFrom fun _ => .pure
  refine Runs.ifPeek (fun _ => hbody [] s₁ hword .nil) fun _ => HaltsAt.rounds ?_
  apply HaltsAt.bind hword (halts_parameters [] _ s₁ (Nat.lt_succ_self _))
    (takes_parameters s₁ [] _)
  · rintro _ ⟨params, -, rfl, hnodup, -⟩
    exact ⟨_, hatom hnodup⟩
  · rintro params s₂ ⟨_, hparams, -, rfl, hnodup, -⟩
    exact hbody params s₂ (hword.trans hparams) hnodup

theorem conditional (h : d.Halting n) : Halts (n + 1) (Writes .expr) d.conditional := by
  intro s hs
  refine Runs.peekStart fun start => ?_
  apply HaltsAt.ifConsume (.refl s)
  · exact fun s₁ hword => h.lambda start hword hs
  apply HaltsAt.bind (.refl s) (h.disjunctionOf s hs) (h.sound.disjunctionOf s)
  · rintro text ⟨tree, htree⟩
    exact ⟨[], tree, by simpa using Derives.expr htree⟩
  rintro yes s₁ ⟨text, hyes, htree⟩
  have hle := hyes.length_le
  -- The conditional of the phrases that are read and phrases still to come.
  have hwrites : ∀ {condText noText : List TokenKind} {cond no : Expr},
      Derives .disjunction condText cond → Derives .expr noText no →
        Writes .expr (text ++ .mark .ifWord :: condText ++ .mark .elseWord :: noText) :=
    fun hcond hno => ⟨_, @Derives.conditional ⟨text, yes.bare⟩ ⟨_, _⟩ ⟨_, _⟩ htree hcond hno⟩
  apply HaltsAt.ifConsume hyes _ .pure
  intro s₂ hif
  have hlt := hif.length_lt (by simp)
  apply HaltsAt.bind hif (h.disjunctionOf s₂ (by omega)) (h.sound.disjunctionOf s₂)
  · rintro condText ⟨cond, hcond⟩
    exact ⟨[.mark .elseWord, .ident "x"], by simpa using hwrites hcond (.atom .expr)⟩
  rintro cond s₃ ⟨condText, htook, hcond⟩
  have hle' := htook.length_le
  apply HaltsAt.expect (hif.trans htook)
  · exact ⟨[.mark .elseWord, .ident "x"], by simpa using hwrites hcond (.atom .expr)⟩
  intro s₄ helse
  have hlt' := helse.length_lt (by simp)
  apply HaltsAt.bind helse (h.expr s₄ (by omega)) (h.sound.expr s₄)
  · rintro noText ⟨no, hno⟩
    exact ⟨[], by simpa using hwrites hcond hno⟩
  · exact fun _ _ _ => .rangeFrom fun _ => .pure

end Descent.Halting

theorem Halts.nested {level : Level} {p : Parse Expr} {n : Nat} (h : Halts n (Writes level) p) :
    Halts n (Writes level) (nested p) := by
  intro s hs
  apply HaltsAt.restoringDepth
  apply HaltsAt.enter (.refl s)
  intro s₁ hopened hs₁
  apply HaltsAt.tail hopened (h s₁ (hs₁ ▸ hs))
  exact fun text htext => ⟨[], by simpa using htext⟩

/-- What is called back into is stuck on the way to a phrase, if there are as many levels of
calls as there are tokens. -/
theorem Descent.Halting.ofLength (n : Nat) : (Descent.ofLength n).Halting n := by
  have hsound := Descent.Sound.ofLength n
  induction n with
  | zero =>
      exact ⟨hsound, fun _ => nofun, fun _ => nofun, fun _ => nofun, fun _ => nofun⟩
  | succ n ih =>
      have h := ih (Descent.Sound.ofLength n)
      exact ⟨hsound, h.conditional.nested, h.negation.nested, h.unary.nested, h.disjunctionOf⟩

theorem halts_expression (s : Stream) : HaltsAt (Writes .expr) s.tokens expression s :=
  HaltsAt.rounds ((Descent.Halting.ofLength _).expr s (Nat.lt_succ_self _))

theorem halts_whole (s : Stream) (hne : ∀ token ∈ s.tokens.head?, token.isEof = false) :
    HaltsAt (Writes .expr) s.tokens whole s := by
  apply Runs.look (peekEof_of_head hne)
  apply HaltsAt.bind (.refl s) (halts_expression s) (accepts_expression s)
  · exact fun text htext => ⟨[], by simpa using htext⟩
  rintro e s₁ ⟨text, htook, htree⟩
  have hstuck := HaltsAt.stuck_here htook (P := Writes .expr) ⟨[], e.bare, by simpa using htree⟩
  refine Runs.expectEof (fun _ _ _ _ => HaltsAt.pure) (fun hnil => ?_)
    fun token _ htokens hnot => ?_
  · rwa [hnil] at hstuck
  · rwa [htokens, refusal, unexpected, hnot, if_neg Bool.false_ne_true] at hstuck

end Expr
end Stencil
