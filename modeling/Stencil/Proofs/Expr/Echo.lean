/-
How far a parser looks.  Two streams that begin alike are read alike as far as that: an error at
a token that both have in common is made at the same token of the other stream.
-/
import Mathlib.Data.List.Forall2
import Stencil.Proofs.Expr.Locality

namespace Stencil
namespace Expr

theorem unexpectedToken_of_unexpected {t u : Token} (h : unexpected t = .unexpectedToken u) :
    u = t := by
  unfold unexpected at h
  split at h
  · cases h
  · exact (ExprError.unexpectedToken.inj h).symm

section Refuses

variable {α : Type} {A : TokenKind → Prop} {error : Token → ExprError} {f f' : Token → Parse α}
  {t t' u : Token} {s s' : Stream}

theorem Refuses.eq_of_unexpectedToken (h : Refuses A error f) (ht : ¬ A t.kind)
    (hrun : f t s = .error (.unexpectedToken u)) : u = t := by
  rw [h.others t ht] at hrun
  have herror := Except.error.inj hrun
  rcases h.errors with he | he <;> rw [he] at herror
  · exact unexpectedToken_of_unexpected herror
  · exact (ExprError.unexpectedToken.inj herror).symm

/-- Tokens of one kind are refused in the same way. -/
theorem Refuses.same (h : Refuses A error f) (h' : Refuses A error f') (ht : ¬ A t.kind)
    (hkind : t.kind = t'.kind) (hrun : f t s = .error (.unexpectedToken u)) :
    f' t' s' = .error (.unexpectedToken t') := by
  rw [h.others t ht] at hrun
  rw [h'.others t' (hkind ▸ ht)]
  have herror := Except.error.inj hrun
  rcases h.errors with he | he <;> rw [he] at herror ⊢
  · have heof : t'.isEof = t.isEof := by
      unfold Token.isEof
      rw [hkind]
    unfold unexpected at herror ⊢
    rw [heof]
    split at herror
    · cases herror
    · next hnot =>
        rw [if_neg hnot]
        rfl
  · rfl

end Refuses

namespace Twins

variable {n n' : Nat} {α τ : Type} {view : α → τ} {p p' : Parse α}

/-- What the first of two twins blames. -/
theorem blames (h : Twins n n' view p p') {s : Stream} (hs : s.tokens.length < n)
    {u : Token} (hrun : p s = .error (.unexpectedToken u)) : u ∈ s.tokens := by
  induction h generalizing s with
  | pure _ => cases hrun
  | repeated => cases hrun
  | idle => exact absurd hs (Nat.not_lt_zero _)
  | alone _ ih => exact ih hs hrun
  | mono _ hn _ ih => exact ih (Nat.lt_of_lt_of_le hs hn) hrun
  | @bind _ _ _ _ _ _ _ _ p _ f _ hp _ ih ihf =>
      rcases hfirst : p s with e | ⟨a, s₁⟩
      · rw [bind_of_error hfirst] at hrun
        cases hrun
        exact ih hs hfirst
      · rw [bind_of_ok hfirst] at hrun
        obtain ⟨taken, htaken⟩ := runs_of_ok (hp.passes hs) hfirst
        have hmem := ihf a a rfl (Nat.lt_of_le_of_lt htaken.length_le hs) hrun
        rw [htaken.tokens]
        exact List.mem_append_right _ hmem
  | @next _ _ _ _ _ _ _ A _ _ hrefuses _ ih =>
      rcases htokens : s.tokens with _ | ⟨t, rest⟩
      · obtain ⟨tokens, lastEnd, lastStop, depth⟩ := s
        cases htokens
        cases hrun
      rw [bind_of_ok (next_eq htokens)] at hrun
      by_cases ht : A t.kind
      · exact List.mem_cons_of_mem t (ih t t rfl ht (length_lt_pred htokens hs) hrun)
      · rw [hrefuses.eq_of_unexpectedToken ht hrun]
        exact List.mem_cons_self
  | peekStart =>
      obtain ⟨start, hstart, -⟩ := peekStart_eq s
      cases hstart.symm.trans hrun
  | rangeFrom start _ => cases hrun
  | enter =>
      by_cases hdepth : s.depth < maxDepth
      · cases (enter_eq hdepth).symm.trans hrun
      · obtain ⟨place, henter, -⟩ := enter_error hdepth
        cases henter.symm.trans hrun
  | @rounds n n' _ _ _ _ _ _ ih => exact ih _ 0 hs (Nat.zero_le n') (Nat.lt_succ_self _) hrun
  | @ifConsume _ _ _ _ _ m _ _ _ _ _ _ ihyes ihno =>
      by_cases hfront : FrontIs m s.tokens
      · obtain ⟨t, rest, htokens, hkind⟩ := exists_cons_of_front hfront
        rw [bind_of_ok (consume_eq htokens hkind)] at hrun
        rw [htokens]
        exact List.mem_cons_of_mem t (ihyes (length_lt_pred htokens hs) hrun)
      · rw [bind_of_ok (consume_of_not_front hfront)] at hrun
        exact ihno hs hrun
  | @ifPeek _ _ _ _ _ m _ _ _ _ _ _ _ ihyes ihno =>
      by_cases hfront : FrontIs m s.tokens
      · obtain ⟨t, rest, htokens, hkind⟩ := exists_cons_of_front hfront
        rw [bind_of_ok (peekIs_eq htokens m), Token.isMark_iff.mpr hkind] at hrun
        exact ihyes hs hrun
      · rw [bind_of_ok (peekIs_of_not_front hfront)] at hrun
        exact ihno hs hrun
  | peekPrecedence _ _ ih _ =>
      rw [bind_of_ok (peekPrecedence_eq s)] at hrun
      exact ih _ hs hrun
  | @restoringDepth _ _ _ _ _ p _ _ ih =>
      rw [restoringDepth_eq] at hrun
      rcases hinner : p s with e | ⟨a, s₁⟩
      · rw [bind_of_error hinner] at hrun
        cases hrun
        exact ih hs hinner
      · rw [bind_of_ok hinner] at hrun
        cases hrun

end Twins

/-- Two streams go on alike up to `rest` and `rest'`, each token with one that `R` holds of, and
with as many levels open. -/
structure Alongside (R : Token → Token → Prop) (rest rest' : List Token) (s s' : Stream) :
    Prop where
  text : ∃ text text', s.tokens = text ++ rest ∧ s'.tokens = text' ++ rest' ∧
    List.Forall₂ R text text'
  depth : s'.depth = s.depth

namespace Alongside

variable {R : Token → Token → Prop} {rest rest' : List Token} {s s' : Stream}

theorem front (h : Alongside R rest rest' s s') :
    s.tokens = rest ∨ ∃ t more t' more', s.tokens = t :: more ∧ s'.tokens = t' :: more' ∧
      R t t' ∧ Alongside R rest rest' (s.behind t more) (s'.behind t' more') := by
  obtain ⟨⟨text, text', htokens, htokens', hsame⟩, hdepth⟩ := h
  cases hsame with
  | nil => exact .inl htokens
  | @cons t t' text text' ht hsame =>
      exact .inr ⟨t, text ++ rest, t', text' ++ rest', htokens, htokens', ht,
        ⟨text, text', rfl, rfl, hsame⟩, hdepth⟩

theorem suffix (h : Alongside R rest rest' s s') : rest <:+ s.tokens := by
  obtain ⟨⟨text, -, htokens, -⟩, -⟩ := h
  exact ⟨text, htokens.symm⟩

theorem length_eq (h : Alongside R rest rest' s s') :
    s.tokens.length + rest'.length = s'.tokens.length + rest.length := by
  obtain ⟨⟨text, text', htokens, htokens', hsame⟩, -⟩ := h
  have hlength := hsame.length_eq
  rw [htokens, htokens', List.length_append, List.length_append]
  omega

end Alongside

section Echo

variable {α β τ υ : Type} {R : Token → Token → Prop} {rest rest' : List Token} {n n' : Nat}
  {view : α → τ} {p p' : Parse α} {s s' s₁ s₁' : Stream}

/-- What the first parser does before it comes to the end of the text, the second one does too,
which gives `answer`; an error of the first is about what comes behind the text, or the second one
makes it at the token that stands in its place. -/
def EchoedBy (R : Token → Token → Prop) (rest rest' : List Token) (view : α → τ) (p : Parse α)
    (s : Stream) (answer : Except ExprError (α × Stream)) : Prop :=
  Runs p s
    (fun a s₁ => rest.length < s₁.tokens.length →
      ∃ a' s₁', answer = .ok (a', s₁') ∧ view a = view a' ∧ Alongside R rest rest' s₁ s₁')
    (fun e => ∀ u, e = .unexpectedToken u →
      u ∈ rest ∨ ∃ u', R u u' ∧ answer = .error (.unexpectedToken u'))

/-- The second parser echoes the first on streams of fewer than `n` and `n'` tokens. -/
def Echoes (R : Token → Token → Prop) (rest rest' : List Token) (n n' : Nat) (view : α → τ)
    (p p' : Parse α) : Prop :=
  ∀ ⦃s s' : Stream⦄, s.tokens.length < n → s'.tokens.length < n' →
    Alongside R rest rest' s s' → EchoedBy R rest rest' view p s (p' s')

/-- Behind the text there is nothing to say about the second parser. -/
theorem Twins.echoedBy_behind (h : Twins n n' view p p') (hs : s.tokens.length < n)
    (hsuffix : s.tokens <:+ rest) (answer : Except ExprError (α × Stream)) :
    EchoedBy R rest rest' view p s answer := by
  unfold EchoedBy Runs
  split
  · next hrun =>
      intro hlt
      obtain ⟨taken, htaken⟩ := runs_of_ok (h.passes hs) hrun
      exact absurd hlt (Nat.not_lt.mpr (Nat.le_trans htaken.length_le hsuffix.length_le))
  · next hrun =>
      rintro u rfl
      exact .inl (hsuffix.mem (h.blames hs hrun))

namespace EchoedBy

/-- A step that both make. -/
theorem step {f f' : α → Parse β} {view' : β → υ} {a a' : α} (hfirst : p s = .ok (a, s₁))
    (hfirst' : p' s' = .ok (a', s₁')) (h : EchoedBy R rest rest' view' (f a) s₁ (f' a' s₁')) :
    EchoedBy R rest rest' view' (p >>= f) s ((p' >>= f') s') := by
  unfold EchoedBy Runs at h ⊢
  rw [bind_of_ok hfirst, bind_of_ok hfirst']
  exact h

theorem of_error {e : ExprError} {answer : Except ExprError (α × Stream)}
    (hrun : p s = .error e) (h : ∀ u, e = .unexpectedToken u →
      u ∈ rest ∨ ∃ u', R u u' ∧ answer = .error (.unexpectedToken u')) :
    EchoedBy R rest rest' view p s answer := by
  unfold EchoedBy Runs
  rw [hrun]
  exact h

theorem of_ok {a a' : α} {answer : Except ExprError (α × Stream)} (hrun : p s = .ok (a, s₁))
    (hanswer : answer = .ok (a', s₁')) (hview : view a = view a')
    (h : Alongside R rest rest' s₁ s₁') : EchoedBy R rest rest' view p s answer := by
  unfold EchoedBy Runs
  rw [hrun]
  exact fun _ => ⟨a', s₁', hanswer, hview, h⟩

theorem error {u : Token} {answer : Except ExprError (α × Stream)}
    (h : EchoedBy R rest rest' view p s answer) (hrun : p s = .error (.unexpectedToken u)) :
    u ∈ rest ∨ ∃ u', R u u' ∧ answer = .error (.unexpectedToken u') := by
  unfold EchoedBy Runs at h
  rw [hrun] at h
  exact h u rfl

end EchoedBy

namespace Echoes

/-- The first part stays in the text, or the second is all behind it. -/
theorem bind {f f' : α → Parse β} {view' : β → υ} (hp : Twins n n' view p p')
    (hf : ∀ a a', view a = view a' → Twins n n' view' (f a) (f' a'))
    (h : Echoes R rest rest' n n' view p p')
    (hnext : ∀ a a', view a = view a' → Echoes R rest rest' n n' view' (f a) (f' a')) :
    Echoes R rest rest' n n' view' (p >>= f) (p' >>= f') := by
  intro s s' hs hs' halong
  have hfirst := h hs hs' halong
  rcases hrun : p s with e | ⟨a, s₁⟩
  · apply EchoedBy.of_error (bind_of_error hrun)
    rintro u rfl
    refine (hfirst.error hrun).imp_right ?_
    rintro ⟨u', hu, hrun'⟩
    exact ⟨u', hu, bind_of_error hrun'⟩
  · obtain ⟨taken, htaken⟩ := runs_of_ok (hp.passes hs) hrun
    have hle := htaken.length_le
    by_cases hlt : rest.length < s₁.tokens.length
    · obtain ⟨a', s₁', hrun', hview, halong₁⟩ := runs_of_ok hfirst hrun hlt
      have hlength := halong.length_eq
      have hlength₁ := halong₁.length_eq
      exact .step hrun hrun' (hnext a a' hview (by omega) (by omega) halong₁)
    · have hsuffix : s₁.tokens <:+ rest :=
        List.suffix_of_suffix_length_le ⟨taken, htaken.tokens.symm⟩ halong.suffix
          (Nat.not_lt.mp hlt)
      have hbehind : EchoedBy R rest rest' view' (f a) s₁ ((p' >>= f') s') :=
        (hf a a rfl).echoedBy_behind (Nat.lt_of_le_of_lt hle hs) hsuffix _
      unfold EchoedBy Runs at hbehind ⊢
      rwa [bind_of_ok hrun]

theorem next {f f' : Token → Parse α} {A : TokenKind → Prop} {error : Token → ExprError}
    (hR : ∀ {t t'}, R t t' → t.kind = t'.kind)
    (hf : ∀ t t' : Token, t.kind = t'.kind → A t.kind →
      Twins (n - 1) (n' - 1) view (f t) (f' t'))
    (hrefuses : Refuses A error f) (hrefuses' : Refuses A error f')
    (h : ∀ t t' : Token, t.kind = t'.kind → A t.kind →
      Echoes R rest rest' (n - 1) (n' - 1) view (f t) (f' t')) :
    Echoes R rest rest' n n' view (Expr.next >>= f) (Expr.next >>= f') := by
  intro s s' hs hs' halong
  rcases halong.front with hend | ⟨t, more, t', more', htokens, htokens', ht, halong₁⟩
  · exact (Twins.next hf hrefuses hrefuses').echoedBy_behind hs (hend ▸ List.suffix_rfl) _
  · apply EchoedBy.step (next_eq htokens) (next_eq htokens')
    have hkind := hR ht
    by_cases hA : A t.kind
    · exact h t t' hkind hA (length_lt_pred htokens hs) (length_lt_pred htokens' hs') halong₁
    · apply EchoedBy.of_error (congrFun (hrefuses.others t hA) _)
      intro u hu
      have hrun : f t s = .error (.unexpectedToken u) := by
        rw [hrefuses.others t hA, hu]
        rfl
      rw [hrefuses.eq_of_unexpectedToken hA hrun]
      exact .inr ⟨t', ht, hrefuses.same hrefuses' hA hkind hrun⟩

section Tests

variable {m : Mark} {yes yes' no no' : Parse α}

theorem ifConsume (hR : ∀ {t t'}, R t t' → t.kind = t'.kind)
    (h : Twins n n' view (do if ← consume m then yes else no)
      (do if ← consume m then yes' else no'))
    (hyes : Echoes R rest rest' (n - 1) (n' - 1) view yes yes')
    (hno : Echoes R rest rest' n n' view no no') :
    Echoes R rest rest' n n' view (do if ← consume m then yes else no)
      (do if ← consume m then yes' else no') := by
  intro s s' hs hs' halong
  rcases halong.front with hend | ⟨t, more, t', more', htokens, htokens', ht, halong₁⟩
  · exact h.echoedBy_behind hs (hend ▸ List.suffix_rfl) _
  · by_cases hkind : t.kind = .mark m
    · have hkind' := (hR ht).symm.trans hkind
      apply EchoedBy.step (consume_eq htokens hkind) (consume_eq htokens' hkind')
      exact hyes (length_lt_pred htokens hs) (length_lt_pred htokens' hs') halong₁
    · have hfront : ¬ FrontIs m s.tokens := by rwa [htokens, frontIs_cons, Token.isMark_iff]
      have hfront' : ¬ FrontIs m s'.tokens := by
        rwa [htokens', frontIs_cons, Token.isMark_iff, ← hR ht]
      apply EchoedBy.step (consume_of_not_front hfront) (consume_of_not_front hfront')
      exact hno hs hs' halong

theorem ifPeek (hR : ∀ {t t'}, R t t' → t.kind = t'.kind)
    (h : Twins n n' view (do if ← peekIs m then yes else no)
      (do if ← peekIs m then yes' else no'))
    (hyes : Echoes R rest rest' n n' view yes yes')
    (hno : Echoes R rest rest' n n' view no no') :
    Echoes R rest rest' n n' view (do if ← peekIs m then yes else no)
      (do if ← peekIs m then yes' else no') := by
  intro s s' hs hs' halong
  rcases halong.front with hend | ⟨t, more, t', more', htokens, htokens', ht, -⟩
  · exact h.echoedBy_behind hs (hend ▸ List.suffix_rfl) _
  · apply EchoedBy.step (peekIs_eq htokens m) (peekIs_eq htokens' m)
    have hmark : t'.isMark m = t.isMark m := by
      unfold Token.isMark
      rw [hR ht]
    rw [hmark]
    cases t.isMark m with
    | true => exact hyes hs hs' halong
    | false => exact hno hs hs' halong

end Tests

theorem enter : Echoes R rest rest' n n' id enter enter := by
  intro s s' _ _ halong
  by_cases hdepth : s.depth < maxDepth
  · have hdepth' : s'.depth < maxDepth := halong.depth ▸ hdepth
    exact .of_ok (enter_eq hdepth) (enter_eq hdepth') rfl
      ⟨halong.text, congrArg Nat.succ halong.depth⟩
  · obtain ⟨place, henter, -⟩ := enter_error hdepth
    exact .of_error henter nofun

theorem peekPrecedence {f f' : Nat → Parse α} (hR : ∀ {t t'}, R t t' → t.kind = t'.kind)
    (h : Twins n n' view (Expr.peekPrecedence >>= f) (Expr.peekPrecedence >>= f'))
    (hf : ∀ k, Echoes R rest rest' n n' view (f k) (f' k)) :
    Echoes R rest rest' n n' view (Expr.peekPrecedence >>= f) (Expr.peekPrecedence >>= f') := by
  intro s s' hs hs' halong
  rcases halong.front with hend | ⟨t, more, t', more', htokens, htokens', ht, -⟩
  · exact h.echoedBy_behind hs (hend ▸ List.suffix_rfl) _
  · have hfront : frontPrecedence s'.tokens = frontPrecedence s.tokens := by
      rw [htokens, htokens', frontPrecedence, frontPrecedence, hR ht]
    have hpeek := peekPrecedence_eq s'
    rw [hfront] at hpeek
    exact .step (peekPrecedence_eq s) hpeek (hf _ hs hs' halong)

theorem restoringDepth (h : Echoes R rest rest' n n' view p p') :
    Echoes R rest rest' n n' view (restoringDepth p) (restoringDepth p') := by
  intro s s' hs hs' halong
  have hinner := h hs hs' halong
  rcases hrun : p s with e | ⟨a, s₁⟩
  · apply EchoedBy.of_error
    · rw [restoringDepth_eq, bind_of_error hrun]
    · rintro u rfl
      refine (hinner.error hrun).imp_right ?_
      rintro ⟨u', hu, hrun'⟩
      exact ⟨u', hu, by rw [restoringDepth_eq, bind_of_error hrun']⟩
  · unfold EchoedBy Runs
    rw [restoringDepth_eq, bind_of_ok hrun]
    intro hlt
    obtain ⟨a', s₁', hrun', hview, halong₁⟩ := runs_of_ok hinner hrun hlt
    refine ⟨a', { s₁' with depth := s'.depth }, ?_, hview, halong₁.text, halong.depth⟩
    rw [restoringDepth_eq, bind_of_ok hrun']

end Echoes

/-- The run: the parts of a parser echo one another as long as they stay in the text. -/
theorem Twins.echoes (hR : ∀ {t t'}, R t t' → t.kind = t'.kind) (h : Twins n n' view p p') :
    Echoes R rest rest' n n' view p p' := by
  induction h with
  | bind hp hf ih ihf => exact .bind hp hf ih ihf
  | next hf hrefuses hrefuses' ih => exact .next hR hf hrefuses hrefuses' ih
  | ifConsume hyes hno ihyes ihno => exact .ifConsume hR (.ifConsume hyes hno) ihyes ihno
  | ifPeek hyes hadvances hno ihyes ihno =>
      exact .ifPeek hR (.ifPeek hyes hadvances hno) ihyes ihno
  | peekPrecedence hf hend ih _ => exact .peekPrecedence hR (.peekPrecedence hf hend) ih
  | restoringDepth _ ih => exact ih.restoringDepth
  | enter => exact .enter
  | pure hview => exact fun s s' _ _ halong => .of_ok rfl rfl hview halong
  | repeated => exact fun _ _ _ _ _ => .of_error rfl nofun
  | idle => exact fun _ _ hs => absurd hs (Nat.not_lt_zero _)
  | alone _ _ => exact fun _ _ _ hs' => absurd hs' (Nat.not_lt_zero _)
  | mono _ hn hn' ih =>
      exact fun s s' hs hs' => ih (Nat.lt_of_lt_of_le hs hn) (Nat.lt_of_lt_of_le hs' hn')
  | peekStart =>
      intro s s' _ _ halong
      obtain ⟨start, hstart, -⟩ := peekStart_eq s
      obtain ⟨start', hstart', -⟩ := peekStart_eq s'
      exact .of_ok hstart hstart' rfl halong
  | rangeFrom start start' => exact fun s s' _ _ halong => .of_ok rfl rfl rfl halong
  | rounds _ ih =>
      intro s s' hs hs' halong
      exact .step rfl rfl (ih _ _ hs hs' (Nat.lt_succ_self _) (Nat.lt_succ_self _) halong)

end Echo

section Whole

variable {tokens : List Token} {s s₁ : Stream} {e : ExprError} {u : Token}

theorem ofTokens?_eq_error_iff : ofTokens? tokens = .error e ↔ whole { tokens } = .error e := by
  unfold ofTokens?
  change (whole { tokens }).map Prod.fst = _ ↔ _
  rcases whole { tokens } with e' | ⟨a, s⟩
  · constructor <;> (rintro ⟨⟩; rfl)
  · exact ⟨nofun, nofun⟩

/-- Behind a token that is not the end the whole parser is an expression and the end. -/
theorem whole_eq {t : Token} {rest : List Token} (htokens : s.tokens = t :: rest)
    (ht : t.isEof = false) :
    whole s = (do
      let e ← expression
      expectEof
      return e : Parse Expr) s := by
  unfold whole
  rw [bind_of_ok (peekEof_of_cons htokens), ht, if_neg Bool.false_ne_true]

theorem expectEof_error {t : Token} {rest : List Token} (htokens : s.tokens = t :: rest)
    (ht : t.isEof = false) : expectEof s = .error (.unexpectedToken t) := by
  unfold expectEof
  rw [bind_of_ok (next_eq htokens), ht, if_neg Bool.false_ne_true]
  rfl

/-- Only a token can be unexpected where the end should be. -/
theorem expectEof_eq_error (h : expectEof s = .error (.unexpectedToken u)) :
    u.isEof = false ∧ ∃ rest, s.tokens = u :: rest := by
  rcases htokens : s.tokens with _ | ⟨t, rest⟩
  · obtain ⟨tokens, lastEnd, lastStop, depth⟩ := s
    cases htokens
    cases h
  · rcases ht : t.isEof with _ | _
    · rw [expectEof_error htokens ht] at h
      cases h
      exact ⟨ht, rest, rfl⟩
    · unfold expectEof at h
      rw [bind_of_ok (next_eq htokens), ht, if_pos rfl] at h
      cases h

variable {R : Token → Token → Prop} {rest rest' text text' : List Token}

/-- An error at a token of the text that two lists of tokens begin with is an error of both. -/
theorem ofTokens?_echoes (hR : ∀ {t t'}, R t t' → t.kind = t'.kind)
    (hsame : List.Forall₂ R text text')
    (herror : ofTokens? (text ++ rest) = .error (.unexpectedToken u)) (hu : u ∉ rest) :
    ∃ u', R u u' ∧ ofTokens? (text' ++ rest') = .error (.unexpectedToken u') := by
  cases hsame with
  | nil => exact absurd (blames_of_ofTokens? herror).1 hu
  | @cons t t' text text' ht hsame =>
      simp only [ofTokens?_eq_error_iff, List.cons_append] at herror ⊢
      have hkind : t'.isEof = t.isEof := by
        unfold Token.isEof
        rw [hR ht]
      rcases heof : t.isEof with _ | _
      · rw [whole_eq rfl heof] at herror
        rw [whole_eq rfl (hkind.trans heof)]
        have halong : Alongside R rest rest' { tokens := t :: (text ++ rest) }
            { tokens := t' :: (text' ++ rest') } :=
          ⟨⟨_, _, rfl, rfl, .cons ht hsame⟩, rfl⟩
        have hechoed := (twins_expression _ _).echoes hR (Nat.lt_succ_self _) (Nat.lt_succ_self _)
          halong
        rcases hrun : expression { tokens := t :: (text ++ rest) } with e | ⟨a, s₁⟩
        · rw [bind_of_error hrun] at herror
          cases herror
          obtain ⟨u', hu', hrun'⟩ := (hechoed.error hrun).resolve_left hu
          exact ⟨u', hu', bind_of_error hrun'⟩
        · -- Behind the expression stands a token that is not the end.
          rw [bind_of_ok hrun] at herror
          have hend : expectEof s₁ = .error (.unexpectedToken u) := by
            rcases hexpect : expectEof s₁ with e | ⟨_, s₂⟩
            · rw [bind_of_error hexpect] at herror
              cases herror
              rfl
            · rw [bind_of_ok hexpect] at herror
              cases herror
          obtain ⟨hnot, more, htokens⟩ := expectEof_eq_error hend
          have hlt : rest.length < s₁.tokens.length := by
            by_contra hle
            obtain ⟨taken, htaken⟩ := runs_of_ok (passes_expression _) hrun
            have hsuffix : s₁.tokens <:+ rest :=
              List.suffix_of_suffix_length_le ⟨taken, htaken.tokens.symm⟩ halong.suffix
                (Nat.not_lt.mp hle)
            rw [htokens] at hsuffix
            exact hu (hsuffix.mem List.mem_cons_self)
          obtain ⟨a', s₁', hrun', -, halong₁⟩ := runs_of_ok hechoed hrun hlt
          rcases halong₁.front with heq | ⟨v, _, v', more', hv, hv', hsame', -⟩
          · rw [heq] at hlt
            exact absurd hlt (Nat.lt_irrefl _)
          · rw [htokens] at hv
            cases hv
            have hnot' : v'.isEof = false := by
              rw [← hnot]
              unfold Token.isEof
              rw [hR hsame']
            rw [bind_of_ok hrun']
            exact ⟨v', hsame', bind_of_error (expectEof_error hv' hnot')⟩
      · unfold whole at herror
        rw [bind_of_ok (peekEof_of_cons rfl), heof, if_pos rfl] at herror
        cases herror

end Whole

end Expr
end Stencil
