/-
Two runs of parsers that make the same moves.  The first may go on where the second one comes to
the end: as long as the first takes no token beyond that, the second does what it does, and it
never needs more levels.
-/
import Stencil.Proofs.Expr.Loops

namespace Stencil
namespace Expr

/-- The tokens `taken`, none of them the end, are taken off `s`. -/
structure Passed (s : Stream) (taken : List Token) (s₁ : Stream) : Prop where
  tokens : s.tokens = taken ++ s₁.tokens
  noEof : ∀ t ∈ taken, t.isEof = false
  lastStop : s₁.lastStop = taken.foldl (fun _ t => t.stop) s.lastStop

namespace Passed

variable {s s₁ s₂ : Stream} {taken more : List Token}

theorem refl (s : Stream) : Passed s [] s := ⟨rfl, nofun, rfl⟩

theorem trans (h : Passed s taken s₁) (h' : Passed s₁ more s₂) : Passed s (taken ++ more) s₂ := by
  constructor
  · rw [h.tokens, h'.tokens, List.append_assoc]
  · exact List.forall_mem_append.mpr ⟨h.noEof, h'.noEof⟩
  · rw [h'.lastStop, h.lastStop, List.foldl_append]

theorem withDepth (h : Passed s taken s₁) (depth : Nat) : Passed s taken { s₁ with depth } :=
  ⟨h.tokens, h.noEof, h.lastStop⟩

theorem length_le (h : Passed s taken s₁) : s₁.tokens.length ≤ s.tokens.length := by
  rw [h.tokens, List.length_append]
  exact Nat.le_add_left ..

/-- The end is left. -/
theorem eof_mem (h : Passed s taken s₁) {t : Token} (ht : t ∈ s.tokens) (heof : t.isEof = true) :
    t ∈ s₁.tokens := by
  rw [h.tokens] at ht
  rcases List.mem_append.mp ht with htaken | hrest
  · rw [h.noEof t htaken] at heof
    cases heof
  · exact hrest

end Passed

/-- The error of too deep an expression stands at one of the tokens, if the end is one of them. -/
def DeepAt (tokens : List Token) (e : ExprError) : Prop :=
  ∀ limit place, e = .tooDeeplyNested limit place → (∃ t ∈ tokens, t.isEof = true) →
    ∃ t ∈ tokens, place = t.range.start

theorem DeepAt.of_not {tokens : List Token} {e : ExprError} (h : ¬ TooDeep e) :
    DeepAt tokens e := by
  rintro limit place rfl
  exact absurd ⟨limit, place, rfl⟩ h

theorem DeepAt.behind {s s₁ : Stream} {taken : List Token} {e : ExprError}
    (h : DeepAt s₁.tokens e) (hpassed : Passed s taken s₁) : DeepAt s.tokens e := by
  rintro limit place he ⟨eof, hmem, heof⟩
  obtain ⟨t, ht, hplace⟩ := h limit place he ⟨eof, hpassed.eof_mem hmem heof, heof⟩
  refine ⟨t, ?_, hplace⟩
  rw [hpassed.tokens]
  exact List.mem_append_right _ ht

/-- Where it succeeds on fewer than `n` tokens, the parser puts no token back. -/
def Shrinks {α : Type} (n : Nat) (p : Parse α) : Prop :=
  ∀ s, s.tokens.length < n →
    Runs p s (fun _ s₁ => s₁.tokens.length ≤ s.tokens.length) fun _ => True

/-- Where it succeeds on fewer than `n` tokens of which `P` holds, the parser takes a token. -/
def Advances {α : Type} (n : Nat) (P : List Token → Prop) (p : Parse α) : Prop :=
  ∀ s, s.tokens.length < n → P s.tokens →
    Runs p s (fun _ s₁ => s₁.tokens.length < s.tokens.length) fun _ => True

/-- Tokens of other kinds than `A` are refused with `error`, and the end is one of them. -/
structure Refuses {α : Type} (A : TokenKind → Prop) (error : Token → ExprError)
    (f : Token → Parse α) : Prop where
  eof : ¬ A .eof
  errors : error = unexpected ∨ error = .unexpectedToken
  others : ∀ t : Token, ¬ A t.kind → f t = throw (error t)

/-- Two parsers that make the same moves on fewer than `n` and `n'` tokens: what they do depends
on what the tokens are, and their results look the same through `view`.  Where the second one may
have come to its end, the first one has to take a token or to go on like the second. -/
inductive Twins : (n n' : Nat) → {α τ : Type} → (α → τ) → Parse α → Parse α → Prop where
  | pure {n n' : Nat} {α τ : Type} {view : α → τ} {a a' : α} : view a = view a' →
      Twins n n' view (pure a) (pure a')
  | repeated {n n' : Nat} {α τ : Type} {view : α → τ} {name : String} {p' : Parse α} :
      Twins n n' view (throw (.duplicateParameter name)) p'
  | idle {n' : Nat} {α τ : Type} {view : α → τ} {p p' : Parse α} : Twins 0 n' view p p'
  | alone {n m : Nat} {α τ : Type} {view : α → τ} {p q p' : Parse α} : Twins n m view p q →
      Twins n 0 view p p'
  | mono {n n' k k' : Nat} {α τ : Type} {view : α → τ} {p p' : Parse α} : Twins n n' view p p' →
      k ≤ n → k' ≤ n' → Twins k k' view p p'
  | bind {n n' : Nat} {α β τ υ : Type} {view : α → τ} {view' : β → υ} {p p' : Parse α}
      {f f' : α → Parse β} : Twins n n' view p p' →
        (∀ a a', view a = view a' → Twins n n' view' (f a) (f' a')) →
          Twins n n' view' (p >>= f) (p' >>= f')
  | next {n n' : Nat} {α τ : Type} {view : α → τ} {f f' : Token → Parse α} {A : TokenKind → Prop}
      {E : Token → ExprError} :
      (∀ t t' : Token, t.kind = t'.kind → A t.kind →
        Twins (n - 1) (n' - 1) view (f t) (f' t')) →
        Refuses A E f → Refuses A E f' → Twins n n' view (next >>= f) (next >>= f')
  | peekStart {n n' : Nat} : Twins n n' (fun _ => ()) peekStart peekStart
  | rangeFrom {n n' : Nat} (start start' : Position) :
      Twins n n' (fun _ => ()) (rangeFrom start) (rangeFrom start')
  | enter {n n' : Nat} : Twins n n' id enter enter
  | rounds {n n' : Nat} {α τ : Type} {view : α → τ} {f f' : Nat → Parse α} :
      (∀ k k', k ≤ n → k' ≤ n' → Twins k k' view (f k) (f' k')) →
        Twins n n' view (rounds >>= f) (rounds >>= f')
  | ifConsume {n n' : Nat} {α τ : Type} {view : α → τ} {m : Mark} {yes yes' no no' : Parse α} :
      Twins (n - 1) (n' - 1) view yes yes' → Twins n n' view no no' →
        Twins n n' view (do if ← consume m then yes else no) (do if ← consume m then yes' else no')
  | ifPeek {n n' : Nat} {α τ : Type} {view : α → τ} {m : Mark} {yes yes' no no' : Parse α} :
      Twins n n' view yes yes' → Advances n (FrontIs m) yes → Twins n n' view no no' →
        Twins n n' view (do if ← peekIs m then yes else no) (do if ← peekIs m then yes' else no')
  | peekPrecedence {n n' : Nat} {α τ : Type} {view : α → τ} {f f' : Nat → Parse α} :
      (∀ k, Twins n n' view (f k) (f' k)) →
        (∀ k, ¬ Advances n (frontPrecedence · = k) (f k) → Twins n n' view (f k) (f' 0)) →
          Twins n n' view (peekPrecedence >>= f) (peekPrecedence >>= f')
  | restoringDepth {n n' : Nat} {α τ : Type} {view : α → τ} {p p' : Parse α} :
      Twins n n' view p p' → Twins n n' view (restoringDepth p) (restoringDepth p')

section Moves

variable {α β : Type} {s : Stream}

theorem runs_of_ok {p : Parse α} {Q : α → Stream → Prop} {E : ExprError → Prop} {a : α}
    {s₁ : Stream} (h : Runs p s Q E) (hrun : p s = .ok (a, s₁)) : Q a s₁ := by
  unfold Runs at h
  rwa [hrun] at h

theorem ok_of_bind {p : Parse α} {f : α → Parse β} {b : β} {s₂ : Stream}
    (h : (p >>= f) s = .ok (b, s₂)) : ∃ a s₁, p s = .ok (a, s₁) ∧ f a s₁ = .ok (b, s₂) := by
  change (p s >>= fun x => f x.1 x.2) = _ at h
  rcases hp : p s with e | ⟨a, s₁⟩
  · rw [hp] at h
    cases h
  · rw [hp] at h
    exact ⟨a, s₁, rfl, h⟩

theorem bind_of_ok {p : Parse α} {f : α → Parse β} {a : α} {s₁ : Stream}
    (h : p s = .ok (a, s₁)) : (p >>= f) s = f a s₁ := by
  change (p s >>= fun x => f x.1 x.2) = _
  rw [h]
  rfl

theorem bind_of_error {p : Parse α} {f : α → Parse β} {e : ExprError} (h : p s = .error e) :
    (p >>= f) s = .error e := by
  change (p s >>= fun x => f x.1 x.2) = _
  rw [h]
  rfl

end Moves

/-- The stream behind its first token. -/
def Stream.behind (s : Stream) (t : Token) (rest : List Token) : Stream :=
  { s with tokens := rest, lastEnd := t.range.stop, lastStop := t.stop }

section Steps

variable {s : Stream} {t : Token} {rest : List Token}

theorem passed_behind (h : s.tokens = t :: rest) (heof : t.isEof = false) :
    Passed s [t] (s.behind t rest) :=
  ⟨h, by simpa using heof, rfl⟩

theorem length_lt_pred {n : Nat} (h : s.tokens = t :: rest) (hs : s.tokens.length < n) :
    rest.length < n - 1 := by
  rw [h, List.length_cons] at hs
  exact Nat.lt_sub_of_add_lt hs

section Refuses

variable {α : Type} {A : TokenKind → Prop} {error : Token → ExprError} {f : Token → Parse α}

theorem Refuses.isEof_eq_false (h : Refuses A error f) (ht : A t.kind) : t.isEof = false := by
  rw [Bool.eq_false_iff, Ne, Token.isEof_iff]
  intro heof
  rw [heof] at ht
  exact h.eof ht

theorem not_tooDeep_unexpected (t : Token) : ¬ TooDeep (unexpected t) := by
  rintro ⟨limit, place, h⟩
  unfold unexpected at h
  split at h <;> cases h

theorem Refuses.not_tooDeep (h : Refuses A error f) (t : Token) : ¬ TooDeep (error t) := by
  rcases h.errors with he | he <;> rw [he]
  · exact not_tooDeep_unexpected t
  · rintro ⟨_, _, ⟨⟩⟩

end Refuses

theorem next_eq (h : s.tokens = t :: rest) : next s = .ok (t, s.behind t rest) := by
  obtain ⟨tokens, lastEnd, lastStop, depth⟩ := s
  cases h
  rfl

theorem peekIs_eq (h : s.tokens = t :: rest) (m : Mark) : peekIs m s = .ok (t.isMark m, s) := by
  obtain ⟨tokens, lastEnd, lastStop, depth⟩ := s
  cases h
  rfl

theorem peekIs_of_not_front {m : Mark} (h : ¬ FrontIs m s.tokens) :
    peekIs m s = .ok (false, s) := by
  rcases htokens : s.tokens with _ | ⟨t, rest⟩
  · obtain ⟨tokens, lastEnd, lastStop, depth⟩ := s
    cases htokens
    rfl
  · rw [htokens, frontIs_cons, Bool.not_eq_true] at h
    rw [peekIs_eq htokens, h]

theorem exists_cons_of_front {m : Mark} {tokens : List Token} (h : FrontIs m tokens) :
    ∃ t rest, tokens = t :: rest ∧ t.kind = .mark m := by
  obtain ⟨_, h⟩ := h
  obtain ⟨t, rest, htokens, hkind, -⟩ := Spells.cons_iff.mp h
  exact ⟨t, rest, htokens, hkind⟩

theorem consume_eq {m : Mark} (h : s.tokens = t :: rest) (hkind : t.kind = .mark m) :
    consume m s = .ok (true, s.behind t rest) := by
  have hmark : t.isMark m = true := Token.isMark_iff.mpr hkind
  unfold consume
  rw [bind_of_ok (peekIs_eq h m), hmark, if_pos rfl, bind_of_ok (next_eq h)]
  rfl

theorem peekPrecedence_eq (s : Stream) :
    peekPrecedence s = .ok (frontPrecedence s.tokens, s) := by
  obtain ⟨_ | ⟨⟨kind, _, _, _⟩, rest⟩, lastEnd, lastStop, depth⟩ := s
  · rfl
  · cases kind <;> rfl

theorem peekStart_eq (s : Stream) : ∃ start, peekStart s = .ok (start, s) ∧
    (s.tokens ≠ [] → ∃ t ∈ s.tokens, start = t.range.start) := by
  obtain ⟨_ | ⟨t, rest⟩, lastEnd, lastStop, depth⟩ := s
  · exact ⟨lastEnd, rfl, fun h => absurd rfl h⟩
  · exact ⟨t.range.start, rfl, fun _ => ⟨t, List.mem_cons_self, rfl⟩⟩

theorem enter_eq (h : s.depth < maxDepth) :
    enter s = .ok ((), { s with depth := s.depth + 1 }) := by
  change (if s.depth < maxDepth then _ else _ : Parse Unit) s = _
  rw [if_pos h]
  rfl

/-- Without a level left the error stands at the next token. -/
theorem enter_error (h : ¬ s.depth < maxDepth) :
    ∃ place, enter s = .error (.tooDeeplyNested maxDepth place) ∧
      (s.tokens ≠ [] → ∃ t ∈ s.tokens, place = t.range.start) := by
  obtain ⟨place, hstart, hplace⟩ := peekStart_eq s
  refine ⟨place, ?_, hplace⟩
  change (if s.depth < maxDepth then _ else _ : Parse Unit) s = _
  rw [if_neg h, bind_of_ok hstart]
  rfl

theorem restoringDepth_eq {α : Type} (p : Parse α) (s : Stream) :
    restoringDepth p s =
      (p >>= fun a s₁ => .ok (a, { s₁ with depth := s.depth })) s := by
  rfl

end Steps

section First

variable {n n' : Nat} {α β τ : Type} {view : α → τ} {p p' : Parse α}

/-- The parser takes tokens before the end, and the place where it is too deep is one of them. -/
def Passes (p : Parse α) (s : Stream) : Prop :=
  Runs p s (fun _ s₁ => ∃ taken, Passed s taken s₁) (DeepAt s.tokens)

/-- What comes behind a step that succeeded. -/
theorem Passes.step {f : α → Parse β} {s s₁ : Stream} {a : α} {taken : List Token}
    (h : p s = .ok (a, s₁)) (htaken : Passed s taken s₁) (hf : Passes (f a) s₁) :
    Passes (p >>= f) s := by
  unfold Passes Runs at hf ⊢
  rw [bind_of_ok h]
  split <;> rename_i heq <;> rw [heq] at hf
  · obtain ⟨more, hmore⟩ := hf
    exact ⟨_, htaken.trans hmore⟩
  · exact hf.behind htaken

theorem Passes.bind {f : α → Parse β} {s : Stream} (h : Passes p s)
    (hf : ∀ a s₁ taken, Passed s taken s₁ → Passes (f a) s₁) : Passes (p >>= f) s := by
  rcases hrun : p s with e | ⟨a, s₁⟩
  · unfold Passes Runs at h ⊢
    rw [bind_of_error hrun]
    rwa [hrun] at h
  · obtain ⟨taken, htaken⟩ := runs_of_ok h hrun
    exact .step hrun htaken (hf a s₁ taken htaken)

/-- The next token is taken or refused, as it is at the end. -/
theorem Passes.next {A : TokenKind → Prop} {error : Token → ExprError} {f : Token → Parse α}
    {s : Stream}
    (hf : ∀ t rest, s.tokens = t :: rest → A t.kind → Passes (f t) (s.behind t rest))
    (hrefuses : Refuses A error f) : Passes (next >>= f) s := by
  rcases htokens : s.tokens with _ | ⟨t, rest⟩
  · obtain ⟨tokens, lastEnd, lastStop, depth⟩ := s
    cases htokens
    exact DeepAt.of_not (e := .unexpectedEof) (by rintro ⟨_, _, ⟨⟩⟩)
  · by_cases ht : A t.kind
    · have heof := hrefuses.isEof_eq_false ht
      exact .step (next_eq htokens) (passed_behind htokens heof) (hf t rest htokens ht)
    · unfold Passes Runs
      rw [bind_of_ok (next_eq htokens), hrefuses.others t ht]
      exact DeepAt.of_not (hrefuses.not_tooDeep t)

theorem passes_enter (s : Stream) : Passes enter s := by
  unfold Passes Runs
  by_cases hdepth : s.depth < maxDepth
  · rw [enter_eq hdepth]
    exact ⟨[], rfl, nofun, rfl⟩
  · obtain ⟨place, henter, hplace⟩ := enter_error hdepth
    rw [henter]
    rintro _ _ ⟨⟩ ⟨eof, hmem, -⟩
    exact hplace (List.ne_nil_of_mem hmem)

theorem Passes.ifConsume {m : Mark} {yes no : Parse α} {s : Stream}
    (hyes : ∀ t rest, s.tokens = t :: rest → Passes yes (s.behind t rest)) (hno : Passes no s) :
    Passes (do if ← consume m then yes else no) s := by
  by_cases hfront : FrontIs m s.tokens
  · obtain ⟨t, rest, htokens, hkind⟩ := exists_cons_of_front hfront
    have heof : t.isEof = false := by
      rw [Bool.eq_false_iff, Ne, Token.isEof_iff, hkind]
      nofun
    exact .step (consume_eq htokens hkind) (passed_behind htokens heof) (hyes t rest htokens)
  · exact .step (consume_of_not_front hfront) (.refl s) hno

theorem Passes.ifPeek {m : Mark} {yes no : Parse α} {s : Stream} (hyes : Passes yes s)
    (hno : Passes no s) : Passes (do if ← peekIs m then yes else no) s := by
  by_cases hfront : FrontIs m s.tokens
  · obtain ⟨t, rest, htokens, hkind⟩ := exists_cons_of_front hfront
    apply Passes.step (peekIs_eq htokens m) (.refl s)
    rw [Token.isMark_iff.mpr hkind]
    exact hyes
  · exact .step (peekIs_of_not_front hfront) (.refl s) hno

/-- What the first of two twins takes. -/
theorem Twins.passes (h : Twins n n' view p p') {s : Stream} (hs : s.tokens.length < n) :
    Passes p s := by
  induction h generalizing s with
  | pure _ => exact ⟨[], .refl s⟩
  | repeated => exact DeepAt.of_not (by rintro ⟨_, _, ⟨⟩⟩)
  | idle => exact absurd hs (Nat.not_lt_zero _)
  | alone _ ih => exact ih hs
  | mono _ hn _ ih => exact ih (Nat.lt_of_lt_of_le hs hn)
  | bind _ _ ih ihf =>
      apply Passes.bind (ih hs)
      intro a s₁ taken htaken
      exact ihf a a rfl (Nat.lt_of_le_of_lt htaken.length_le hs)
  | next _ hrefuses _ ih =>
      refine Passes.next (fun t rest htokens ht => ?_) hrefuses
      exact ih t t rfl ht (length_lt_pred htokens hs)
  | peekStart =>
      obtain ⟨start, hstart, -⟩ := peekStart_eq s
      unfold Passes Runs
      rw [hstart]
      exact ⟨[], .refl s⟩
  | rangeFrom start _ => exact ⟨[], .refl s⟩
  | enter => exact passes_enter s
  | @rounds n n' _ _ _ _ _ _ ih =>
      apply Passes.step (a := s.tokens.length + 1) rfl (.refl s)
      exact ih _ 0 hs (Nat.zero_le n') (Nat.lt_succ_self _)
  | ifConsume _ _ ihyes ihno =>
      exact .ifConsume (fun t rest htokens => ihyes (length_lt_pred htokens hs)) (ihno hs)
  | ifPeek _ _ _ ihyes ihno => exact .ifPeek (ihyes hs) (ihno hs)
  | peekPrecedence _ _ ih _ => exact .step (peekPrecedence_eq s) (.refl s) (ih _ hs)
  | restoringDepth _ ih =>
      apply Runs.restoringDepth
      apply Runs.imp (ih hs)
      rintro _ s₁ ⟨taken, htaken⟩
      exact ⟨taken, htaken.withDepth _⟩

end First

/-- The same text is left of both streams before `rest` and `rest'`, and the second has no fewer
levels left. -/
structure Abreast (rest rest' : List Token) (s s' : Stream) : Prop where
  text : ∃ text, Spells text s.tokens rest ∧ Spells text s'.tokens rest'
  depth : s'.depth ≤ s.depth

/-- No mark stands in front of `rest'` that does not stand in front of `rest`. -/
def Quiet (rest rest' : List Token) : Prop := ∀ m, FrontIs m rest' → FrontIs m rest

namespace Abreast

variable {rest rest' : List Token} {s s' : Stream}

/-- Either both are where the texts end, or the same token is in front of both. -/
theorem front (h : Abreast rest rest' s s') :
    (s.tokens = rest ∧ s'.tokens = rest') ∨
      ∃ t more t' more', s.tokens = t :: more ∧ s'.tokens = t' :: more' ∧ t.kind = t'.kind ∧
        Abreast rest rest' (s.behind t more) (s'.behind t' more') := by
  obtain ⟨⟨text, hs, hs'⟩, hdepth⟩ := h
  rcases text with _ | ⟨kind, text⟩
  · exact .inl ⟨Spells.nil_iff.mp hs, Spells.nil_iff.mp hs'⟩
  · obtain ⟨t, more, htokens, rfl, hmore⟩ := Spells.cons_iff.mp hs
    obtain ⟨t', more', htokens', hkind, hmore'⟩ := Spells.cons_iff.mp hs'
    exact .inr ⟨t, more, t', more', htokens, htokens', hkind.symm, ⟨text, hmore, hmore'⟩, hdepth⟩

/-- A token that is not yet behind the text is in front of both. -/
theorem taken (h : Abreast rest rest' s s') {t : Token} {more : List Token}
    (htokens : s.tokens = t :: more) (hrest : rest.length ≤ more.length) :
    ∃ t' more', s'.tokens = t' :: more' ∧ t.kind = t'.kind ∧
      Abreast rest rest' (s.behind t more) (s'.behind t' more') := by
  rcases h.front with ⟨hend, -⟩ | ⟨u, _, t', more', hu, hu', hkind, hbehind⟩
  · rw [← hend, htokens, List.length_cons] at hrest
    exact absurd hrest (Nat.not_succ_le_self _)
  · rw [htokens] at hu
    cases hu
    exact ⟨t', more', hu', hkind, hbehind⟩

theorem length_eq (h : Abreast rest rest' s s') :
    s.tokens.length + rest'.length = s'.tokens.length + rest.length := by
  obtain ⟨⟨text, hs, hs'⟩, -⟩ := h
  rw [hs.length_eq, hs'.length_eq]
  omega

/-- No mark stands in front of the second stream that does not stand in front of the first. -/
theorem frontIs (h : Abreast rest rest' s s') (hquiet : Quiet rest rest') {m : Mark}
    (hfront : FrontIs m s'.tokens) : FrontIs m s.tokens := by
  rcases h.front with ⟨htokens, htokens'⟩ | ⟨t, more, t', more', htokens, htokens', hkind, -⟩
  · rw [htokens]
    rw [htokens'] at hfront
    exact hquiet m hfront
  · rw [htokens', frontIs_cons, Token.isMark_iff] at hfront
    rw [htokens, frontIs_cons, Token.isMark_iff, hkind, hfront]

/-- The second stream sees the same operator as the first, or it is at its end and sees none. -/
theorem frontPrecedence (h : Abreast rest rest' s s') (hquiet : Quiet rest rest')
    (hne : Expr.frontPrecedence s'.tokens ≠ Expr.frontPrecedence s.tokens) :
    s.tokens = rest ∧ Expr.frontPrecedence s'.tokens = 0 := by
  rcases h.front with ⟨htokens, htokens'⟩ | ⟨t, more, t', more', htokens, htokens', hkind, -⟩
  · refine ⟨htokens, ?_⟩
    rw [htokens, htokens'] at hne
    rw [htokens']
    rcases rest' with _ | ⟨⟨kind, _, _, _⟩, more⟩
    · rfl
    · cases kind with
      | mark m =>
          have hfront := hquiet m (frontIs_cons.mpr (Token.isMark_iff.mpr rfl))
          obtain ⟨t, _, rfl, hkind⟩ := exists_cons_of_front hfront
          exact absurd (congrArg TokenKind.precedence hkind.symm) hne
      | _ => rfl
  · rw [htokens, htokens'] at hne
    exact absurd (congrArg TokenKind.precedence hkind.symm) hne

end Abreast

section Second

variable {n n' : Nat} {α τ : Type} {view : α → τ} {p p' : Parse α} {rest rest' : List Token}

theorem Twins.shrinks (h : Twins n n' view p p') : Shrinks n p := by
  intro s hs
  unfold Runs
  split
  · next hrun =>
      obtain ⟨taken, htaken⟩ := runs_of_ok (h.passes hs) hrun
      exact htaken.length_le
  · trivial

/-- Where the first parser succeeds and takes nothing of what comes behind the text, the second one
does the same on the same text, whatever comes behind that. -/
def Lockstep (rest rest' : List Token) (n n' : Nat) (view : α → τ) (p p' : Parse α) : Prop :=
  ∀ ⦃s s' s₁ : Stream⦄ ⦃a : α⦄, s.tokens.length < n → s'.tokens.length < n' →
    Abreast rest rest' s s' → p s = .ok (a, s₁) → rest.length ≤ s₁.tokens.length →
      ∃ a' s₁', p' s' = .ok (a', s₁') ∧ view a = view a' ∧ Abreast rest rest' s₁ s₁'

namespace Lockstep

/-- What the second part leaves of the tokens is left by the first one. -/
theorem bind {β υ : Type} {view' : β → υ} {f f' : α → Parse β} (hp : Shrinks n p)
    (hf : ∀ a, Shrinks n (f a)) (h : Lockstep rest rest' n n' view p p')
    (hnext : ∀ a a', view a = view a' → Lockstep rest rest' n n' view' (f a) (f' a')) :
    Lockstep rest rest' n n' view' (p >>= f) (p' >>= f') := by
  intro s s' s₁ a hs hs' habreast hrun hrest
  obtain ⟨b, s₂, hfirst, hsecond⟩ := ok_of_bind hrun
  have hle : s₂.tokens.length ≤ s.tokens.length := runs_of_ok (hp s hs) hfirst
  have hs₂ := Nat.lt_of_le_of_lt hle hs
  have hle₂ : s₁.tokens.length ≤ s₂.tokens.length := runs_of_ok (hf b s₂ hs₂) hsecond
  obtain ⟨b', s₂', hfirst', hview, habreast₂⟩ := h hs hs' habreast hfirst (by omega)
  have hle₂' : s₂'.tokens.length ≤ s'.tokens.length := by
    have hlength := habreast.length_eq
    have hlength₂ := habreast₂.length_eq
    omega
  obtain ⟨a', s₁', hsecond', hview', habreast₁⟩ :=
    hnext b b' hview hs₂ (Nat.lt_of_le_of_lt hle₂' hs') habreast₂ hsecond hrest
  exact ⟨a', s₁', (bind_of_ok hfirst').trans hsecond', hview', habreast₁⟩

theorem next {A : TokenKind → Prop} {error : Token → ExprError} {f f' : Token → Parse α}
    (hf : ∀ t : Token, A t.kind → Shrinks (n - 1) (f t))
    (h : ∀ t t' : Token, t.kind = t'.kind → A t.kind →
      Lockstep rest rest' (n - 1) (n' - 1) view (f t) (f' t'))
    (hrefuses : Refuses A error f) :
    Lockstep rest rest' n n' view (Expr.next >>= f) (Expr.next >>= f') := by
  intro s s' s₁ a hs hs' habreast hrun hrest
  obtain ⟨t, s₂, hnext, hsecond⟩ := ok_of_bind hrun
  rcases htokens : s.tokens with _ | ⟨t, more⟩
  · obtain ⟨tokens, lastEnd, lastStop, depth⟩ := s
    cases htokens
    cases hnext
  rw [next_eq htokens] at hnext
  cases hnext
  have hmore := length_lt_pred htokens hs
  by_cases ht : A t.kind
  · have hle : s₁.tokens.length ≤ more.length := runs_of_ok (hf t ht _ hmore) hsecond
    obtain ⟨t', more', htokens', hkind, hbehind⟩ :=
      habreast.taken htokens (Nat.le_trans hrest hle)
    obtain ⟨a', s₁', hsecond', hview, habreast₁⟩ :=
      h t t' hkind ht hmore (length_lt_pred htokens' hs') hbehind hsecond hrest
    exact ⟨a', s₁', (bind_of_ok (next_eq htokens')).trans hsecond', hview, habreast₁⟩
  · rw [hrefuses.others t ht] at hsecond
    cases hsecond

theorem enter : Lockstep rest rest' n n' id enter enter := by
  intro s s' s₁ a hs hs' habreast hrun hrest
  by_cases hdepth : s.depth < maxDepth
  · rw [enter_eq hdepth] at hrun
    cases hrun
    have hdepth' := Nat.lt_of_le_of_lt habreast.depth hdepth
    exact ⟨(), _, enter_eq hdepth', rfl, habreast.text, Nat.succ_le_succ habreast.depth⟩
  · obtain ⟨place, henter, -⟩ := enter_error hdepth
    rw [henter] at hrun
    cases hrun

section Tests

variable {m : Mark} {yes yes' no no' : Parse α}

theorem ifConsume (hquiet : Quiet rest rest') (hshrinks : Shrinks (n - 1) yes)
    (hyes : Lockstep rest rest' (n - 1) (n' - 1) view yes yes')
    (hno : Lockstep rest rest' n n' view no no') :
    Lockstep rest rest' n n' view (do if ← consume m then yes else no)
      (do if ← consume m then yes' else no') := by
  intro s s' s₁ a hs hs' habreast hrun hrest
  by_cases hfront : FrontIs m s.tokens
  · obtain ⟨t, more, htokens, hkind⟩ := exists_cons_of_front hfront
    have hmore := length_lt_pred htokens hs
    rw [bind_of_ok (consume_eq htokens hkind)] at hrun
    have hle : s₁.tokens.length ≤ more.length := runs_of_ok (hshrinks _ hmore) hrun
    obtain ⟨t', more', htokens', hsame, hbehind⟩ :=
      habreast.taken htokens (Nat.le_trans hrest hle)
    rw [bind_of_ok (consume_eq htokens' (hsame.symm.trans hkind))]
    exact hyes hmore (length_lt_pred htokens' hs') hbehind hrun hrest
  · rw [bind_of_ok (consume_of_not_front hfront)] at hrun
    rw [bind_of_ok (consume_of_not_front (mt (habreast.frontIs hquiet) hfront))]
    exact hno hs hs' habreast hrun hrest

/-- A mark that is only looked at is in the text if what goes on there takes a token. -/
theorem ifPeek (hquiet : Quiet rest rest') (hadvances : Advances n (FrontIs m) yes)
    (hyes : Lockstep rest rest' n n' view yes yes') (hno : Lockstep rest rest' n n' view no no') :
    Lockstep rest rest' n n' view (do if ← peekIs m then yes else no)
      (do if ← peekIs m then yes' else no') := by
  intro s s' s₁ a hs hs' habreast hrun hrest
  by_cases hfront : FrontIs m s.tokens
  · obtain ⟨t, more, htokens, hkind⟩ := exists_cons_of_front hfront
    rw [bind_of_ok (peekIs_eq htokens m), Token.isMark_iff.mpr hkind] at hrun
    have hlt := runs_of_ok (hadvances s hs hfront) hrun
    rw [htokens, List.length_cons] at hlt
    obtain ⟨t', more', htokens', hsame, -⟩ := habreast.taken htokens (by omega)
    rw [bind_of_ok (peekIs_eq htokens' m), Token.isMark_iff.mpr (hsame.symm.trans hkind)]
    exact hyes hs hs' habreast hrun hrest
  · rw [bind_of_ok (peekIs_of_not_front hfront)] at hrun
    rw [bind_of_ok (peekIs_of_not_front (mt (habreast.frontIs hquiet) hfront))]
    exact hno hs hs' habreast hrun hrest

end Tests

/-- Where the second stream is at its end, no operator stands in front of it. -/
theorem peekPrecedence {f f' : Nat → Parse α} (hquiet : Quiet rest rest')
    (hsame : ∀ k, Lockstep rest rest' n n' view (f k) (f' k))
    (hend : ∀ k, ¬ Advances n (frontPrecedence · = k) (f k) →
      Lockstep rest rest' n n' view (f k) (f' 0)) :
    Lockstep rest rest' n n' view (Expr.peekPrecedence >>= f) (Expr.peekPrecedence >>= f') := by
  intro s s' s₁ a hs hs' habreast hrun hrest
  rw [bind_of_ok (peekPrecedence_eq s)] at hrun
  rw [bind_of_ok (peekPrecedence_eq s')]
  by_cases heq : frontPrecedence s'.tokens = frontPrecedence s.tokens
  · rw [heq]
    exact hsame _ hs hs' habreast hrun hrest
  · obtain ⟨htokens, hnone⟩ := habreast.frontPrecedence hquiet heq
    rw [hnone]
    refine hend _ (fun hadvances => ?_) hs hs' habreast hrun hrest
    have hlt := runs_of_ok (hadvances s hs rfl) hrun
    rw [← htokens] at hrest
    omega

theorem restoringDepth (h : Lockstep rest rest' n n' view p p') :
    Lockstep rest rest' n n' view (restoringDepth p) (restoringDepth p') := by
  intro s s' s₁ a hs hs' habreast hrun hrest
  rw [restoringDepth_eq] at hrun ⊢
  obtain ⟨b, s₂, hinner, hs₂⟩ := ok_of_bind hrun
  cases hs₂
  obtain ⟨a', s₁', hinner', hview, habreast₂⟩ := h hs hs' habreast hinner hrest
  refine ⟨a', { s₁' with depth := s'.depth }, ?_, hview, habreast₂.text, habreast.depth⟩
  rw [bind_of_ok hinner']

end Lockstep

/-- Twins go in lockstep: a mark that the second one sees behind the text has to be one that the
first one sees there. -/
theorem Twins.lockstep (h : Twins n n' view p p') (hquiet : Quiet rest rest') :
    Lockstep rest rest' n n' view p p' := by
  induction h with
  | bind hp hf ih ihf => exact .bind hp.shrinks (fun a => (hf a a rfl).shrinks) ih ihf
  | next hf hrefuses _ ih => exact .next (fun t ht => (hf t t rfl ht).shrinks) ih hrefuses
  | enter => exact .enter
  | ifConsume hyes _ ihyes ihno => exact .ifConsume hquiet hyes.shrinks ihyes ihno
  | ifPeek _ hadvances _ ihyes ihno => exact .ifPeek hquiet hadvances ihyes ihno
  | peekPrecedence _ _ ih ihend => exact .peekPrecedence hquiet ih ihend
  | restoringDepth _ ih => exact ih.restoringDepth
  | mono _ hn hn' ih =>
      intro s s' s₁ a hs hs'
      exact ih (Nat.lt_of_lt_of_le hs hn) (Nat.lt_of_lt_of_le hs' hn')
  | idle => exact fun _ _ _ _ hs => absurd hs (Nat.not_lt_zero _)
  | alone _ _ => exact fun _ _ _ _ _ hs' => absurd hs' (Nat.not_lt_zero _)
  | repeated =>
      intro s s' s₁ a _ _ _ hrun
      cases hrun
  | pure hview =>
      intro s s' s₁ a _ _ habreast hrun _
      cases hrun
      exact ⟨_, s', rfl, hview, habreast⟩
  | peekStart =>
      intro s s' s₁ a _ _ habreast hrun _
      obtain ⟨start, hstart, -⟩ := peekStart_eq s
      obtain ⟨start', hstart', -⟩ := peekStart_eq s'
      rw [hstart] at hrun
      cases hrun
      exact ⟨start', s', hstart', rfl, habreast⟩
  | rangeFrom start start' =>
      intro s s' s₁ a _ _ habreast hrun _
      cases hrun
      exact ⟨_, s', rfl, rfl, habreast⟩
  | rounds _ ih =>
      intro s s' s₁ a hs hs' habreast hrun hrest
      have hrounds (s : Stream) : Expr.rounds s = .ok (s.tokens.length + 1, s) := rfl
      rw [bind_of_ok (hrounds s)] at hrun
      rw [bind_of_ok (hrounds s')]
      exact ih _ _ hs hs' (Nat.lt_succ_self _) (Nat.lt_succ_self _) habreast hrun hrest

end Second

end Expr
end Stencil
