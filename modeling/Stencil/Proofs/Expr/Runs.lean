/-
A logic for parsers.  `Runs p s Q E`: from the stream `s` the parser gives a result and a
stream that satisfy `Q`, or an error that satisfies `E`.  There is one rule for each of the
moves that parsers are made of.
-/
import Stencil.Proofs.Expr.Lookahead

namespace Stencil
namespace Expr

/-- What a parser gives from a stream. -/
def Runs {α : Type} (p : Parse α) (s : Stream) (Q : α → Stream → Prop) (E : ExprError → Prop) :
    Prop :=
  match p s with
  | .ok (a, s') => Q a s'
  | .error e => E e

/-- The tokens `text`, none of them the end, are taken off `s`. -/
structure Took (s : Stream) (text : List TokenKind) (s' : Stream) : Prop where
  spells : Spells text s.tokens s'.tokens
  noEof : .eof ∉ text

namespace Took

variable {s s₁ s₂ : Stream} {text more : List TokenKind}

theorem refl (s : Stream) : Took s [] s := ⟨Spells.nil_iff.mpr rfl, List.not_mem_nil⟩

theorem trans (h : Took s text s₁) (h' : Took s₁ more s₂) : Took s (text ++ more) s₂ := by
  refine ⟨h.spells.append h'.spells, fun heof => ?_⟩
  rcases List.mem_append.mp heof with htext | hmore
  · exact h.noEof htext
  · exact h'.noEof hmore

/-- A token in front of what is taken. -/
theorem cons {kind : TokenKind} (h : Took s [kind] s₁) (h' : Took s₁ text s₂) :
    Took s (kind :: text) s₂ :=
  h.trans h'

/-- What is taken depends on the tokens alone. -/
theorem of_tokens_eq (htokens : s₁.tokens = s.tokens) (h : Took s₁ text s₂) : Took s text s₂ :=
  ⟨htokens ▸ h.spells, h.noEof⟩

theorem withDepth (h : Took s text s₁) (depth : Nat) : Took s text { s₁ with depth } :=
  ⟨h.spells, h.noEof⟩

theorem length_le (h : Took s text s₁) : s₁.tokens.length ≤ s.tokens.length := h.spells.length_le

theorem length_lt (h : Took s text s₁) (hne : text ≠ []) :
    s₁.tokens.length < s.tokens.length := by
  obtain ⟨kind, text, rfl⟩ := List.exists_cons_of_ne_nil hne
  exact h.spells.length_lt

end Took

/-- The next token is the mark `m`. -/
def FrontIs (m : Mark) (tokens : List Token) : Prop := ∃ rest, Spells [.mark m] tokens rest

theorem Token.isMark_iff {token : Token} {m : Mark} :
    token.isMark m = true ↔ token.kind = .mark m := by
  unfold Token.isMark
  split <;> simp_all

theorem Token.isEof_iff {token : Token} : token.isEof = true ↔ token.kind = .eof := by
  unfold Token.isEof
  split <;> simp_all

theorem Token.not_isEof_of_begins {token : Token} {level : Level} (h : level.Begins token.kind) :
    token.isEof = false := by
  rw [Bool.eq_false_iff, Ne, Token.isEof_iff]
  intro heof
  obtain ⟨tightest, hbegins, -⟩ := h
  rw [heof] at hbegins
  cases hbegins

theorem Token.not_isEof_of_kinds {tokens : List Token} (h : .eof ∉ tokens.map (·.kind)) :
    ∀ t ∈ tokens, t.isEof = false := by
  intro t ht
  rw [Bool.eq_false_iff, Ne, Token.isEof_iff]
  exact fun hend => h (List.mem_map.mpr ⟨t, ht, hend⟩)

theorem frontIs_cons {token : Token} {rest : List Token} {m : Mark} :
    FrontIs m (token :: rest) ↔ token.isMark m = true := by
  rw [Token.isMark_iff]
  constructor
  · rintro ⟨rest', h⟩
    obtain ⟨_, _, heq, hkind, -⟩ := Spells.cons_iff.mp h
    rw [(List.cons.inj heq).1, hkind]
  · intro hkind
    exact ⟨rest, Spells.cons_iff.mpr ⟨token, rest, rfl, hkind, Spells.nil_iff.mpr rfl⟩⟩

theorem not_frontIs_nil {m : Mark} : ¬ FrontIs m [] := by
  rintro ⟨rest, h⟩
  obtain ⟨_, _, heq, -⟩ := Spells.cons_iff.mp h
  cases heq

/-- Taking a token that is not the end. -/
theorem next_of_cons {s : Stream} {token : Token} {rest : List Token}
    (h : s.tokens = token :: rest) :
    ∃ s', next s = .ok (token, s') ∧ s'.tokens = rest ∧
      (token.kind ≠ .eof → Took s [token.kind] s') := by
  obtain ⟨tokens, lastEnd, lastStop, depth⟩ := s
  cases h
  refine ⟨_, rfl, rfl, fun hkind => ⟨⟨[token], rfl, rfl⟩, ?_⟩⟩
  simpa using hkind.symm

theorem peekEof_of_cons {s : Stream} {token : Token} {rest : List Token}
    (h : s.tokens = token :: rest) : peekEof s = .ok (token.isEof, s) := by
  obtain ⟨tokens, lastEnd, lastStop, depth⟩ := s
  cases h
  rfl

theorem peekEof_of_head {s : Stream} (h : ∀ token ∈ s.tokens.head?, token.isEof = false) :
    peekEof s = .ok (false, s) := by
  rcases htokens : s.tokens with _ | ⟨token, rest⟩
  · obtain ⟨tokens, lastEnd, lastStop, depth⟩ := s
    cases htokens
    rfl
  · rw [← h token (by rw [htokens]; rfl)]
    exact peekEof_of_cons htokens

theorem consume_of_front {m : Mark} {s : Stream} (h : FrontIs m s.tokens) :
    ∃ s', consume m s = .ok (true, s') ∧ Took s [.mark m] s' := by
  obtain ⟨rest, h⟩ := h
  obtain ⟨token, rest, htokens, hkind, -⟩ := Spells.cons_iff.mp h
  obtain ⟨s', hnext, -, htook⟩ := next_of_cons htokens
  rw [hkind] at htook
  refine ⟨s', ?_, htook (by simp)⟩
  have hpeek : peekIs m s = .ok (true, s) := by
    rw [← Token.isMark_iff.mpr hkind]
    obtain ⟨tokens, lastEnd, lastStop, depth⟩ := s
    cases htokens
    rfl
  change (peekIs m s >>= fun x => (if x.1 = true then _ else _ : Parse Bool) x.2) = _
  rw [hpeek]
  change (next s >>= fun x => _) = _
  rw [hnext]
  rfl

theorem consume_of_not_front {m : Mark} {s : Stream} (h : ¬ FrontIs m s.tokens) :
    consume m s = .ok (false, s) := by
  obtain ⟨_ | ⟨token, rest⟩, lastEnd, lastStop, depth⟩ := s
  · rfl
  · have hmark : token.isMark m = false := by
      simpa using fun hmark => h (frontIs_cons.mpr hmark)
    change (if token.isMark m = true then _ else _ : Parse Bool) _ = _
    rw [hmark]
    rfl

namespace Runs

variable {α β : Type} {p : Parse α} {s : Stream} {Q : α → Stream → Prop} {E : ExprError → Prop}

theorem pure {a : α} (h : Q a s) : Runs (pure a) s Q E := h

theorem throw {e : ExprError} (h : E e) : Runs (throw e : Parse α) s Q E := h

theorem imp {P : α → Stream → Prop} (h : Runs p s P E) (hPQ : ∀ a s', P a s' → Q a s') :
    Runs p s Q E := by
  unfold Runs at h ⊢
  split <;> rename_i heq <;> rw [heq] at h
  · exact hPQ _ _ h
  · exact h

theorem bind {f : α → Parse β} {R : β → Stream → Prop} (h : Runs p s Q E)
    (hf : ∀ a s', Q a s' → Runs (f a) s' R E) : Runs (p >>= f) s R E := by
  unfold Runs at h
  change match p s >>= fun x => f x.1 x.2 with | .ok (b, s') => R b s' | .error e => E e
  split at h <;> rename_i heq <;> rw [heq]
  · exact hf _ _ h
  · exact h

/-- A look at the stream changes nothing. -/
theorem look {f : α → Parse β} {R : β → Stream → Prop} {a : α} (h : p s = .ok (a, s))
    (hf : Runs (f a) s R E) : Runs (p >>= f) s R E := by
  refine bind (Q := fun b s' => b = a ∧ s' = s) ?_ ?_
  · unfold Runs
    rw [h]
    exact ⟨rfl, rfl⟩
  · rintro b s' ⟨rfl, rfl⟩
    exact hf

theorem ite {c : Prop} [Decidable c] {q : Parse α} (hp : c → Runs p s Q E)
    (hq : ¬ c → Runs q s Q E) : Runs (if c then p else q) s Q E := by
  split
  · next h => exact hp h
  · next h => exact hq h

section Looks

variable {f : Position → Parse α} {g : Range → Parse α} {k : Nat → Parse α}

theorem peekStart (h : ∀ start, Runs (f start) s Q E) : Runs (peekStart >>= f) s Q E := by
  obtain ⟨start, hstart⟩ : ∃ start, Expr.peekStart s = .ok (start, s) := by
    rcases s with ⟨_ | ⟨token, rest⟩, lastEnd, lastStop, depth⟩ <;> exact ⟨_, rfl⟩
  exact look hstart (h start)

theorem rangeFrom {start : Position} (h : ∀ range, Runs (g range) s Q E) :
    Runs (rangeFrom start >>= g) s Q E :=
  look rfl (h ⟨start, s.lastEnd⟩)

theorem rounds (h : Runs (k (s.tokens.length + 1)) s Q E) : Runs (rounds >>= k) s Q E :=
  look rfl h

theorem peekPrecedence (h : Runs (k (frontPrecedence s.tokens)) s Q E) :
    Runs (peekPrecedence >>= k) s Q E := by
  have hpeek : Expr.peekPrecedence s = .ok (frontPrecedence s.tokens, s) := by
    rcases s with ⟨_ | ⟨⟨kind, _, _, _⟩, rest⟩, lastEnd, lastStop, depth⟩
    · rfl
    · cases kind <;> rfl
  exact look hpeek h

end Looks

section Choices

variable {m : Mark} {yes no : Parse α}

theorem ifConsume (hyes : ∀ s', Took s [.mark m] s' → Runs yes s' Q E)
    (hno : ¬ FrontIs m s.tokens → Runs no s Q E) :
    Runs (do if ← consume m then yes else no) s Q E := by
  by_cases hfront : FrontIs m s.tokens
  · obtain ⟨s', hconsume, htook⟩ := consume_of_front hfront
    refine bind (Q := fun b s'' => b = true ∧ s'' = s') ?_ ?_
    · unfold Runs
      rw [hconsume]
      exact ⟨rfl, rfl⟩
    · rintro b s'' ⟨rfl, rfl⟩
      exact hyes s'' htook
  · exact look (consume_of_not_front hfront) (hno hfront)

theorem ifPeek (hyes : FrontIs m s.tokens → Runs yes s Q E)
    (hno : ¬ FrontIs m s.tokens → Runs no s Q E) :
    Runs (do if ← peekIs m then yes else no) s Q E := by
  obtain ⟨_ | ⟨token, rest⟩, lastEnd, lastStop, depth⟩ := s
  · exact look (a := false) rfl (hno not_frontIs_nil)
  · refine look (a := token.isMark m) rfl (ite ?_ ?_)
    · exact fun hmark => hyes (frontIs_cons.mpr hmark)
    · exact fun hmark => hno (mt frontIs_cons.mp hmark)

end Choices

section Tokens

variable {f : Token → Parse α} {g : Unit → Parse α} {k : String → Parse α}

theorem next (hnil : s.tokens = [] → E .unexpectedEof)
    (hcons : ∀ token s', s.tokens = token :: s'.tokens →
      (token.kind ≠ .eof → Took s [token.kind] s') → Runs (f token) s' Q E) :
    Runs (next >>= f) s Q E := by
  rcases htokens : s.tokens with _ | ⟨token, rest⟩
  · obtain ⟨tokens, lastEnd, lastStop, depth⟩ := s
    cases htokens
    exact hnil rfl
  · obtain ⟨s', hnext, rfl, htook⟩ := next_of_cons htokens
    refine bind (Q := fun t s'' => t = token ∧ s'' = s') ?_ ?_
    · unfold Runs
      rw [hnext]
      exact ⟨rfl, rfl⟩
    · rintro t s'' ⟨rfl, rfl⟩
      exact hcons t s'' htokens htook

theorem unexpected (hE : E .unexpectedEof ∧ ∀ token, E (.unexpectedToken token))
    (token : Token) : E (unexpected token) := by
  unfold Expr.unexpected
  split
  · exact hE.1
  · exact hE.2 token

theorem expect {m : Mark} (hyes : ∀ s', Took s [.mark m] s' → Runs (g ()) s' Q E)
    (hno : ¬ FrontIs m s.tokens → E .unexpectedEof ∧ ∀ token, E (.unexpectedToken token)) :
    Runs (expect m >>= g) s Q E := by
  refine bind (Q := fun _ s' => Took s [.mark m] s') ?_ fun _ s' htook => hyes s' htook
  refine next (fun hnil => (hno ?_).1) fun token s' htokens htook => ite ?_ ?_
  · rw [hnil]
    exact not_frontIs_nil
  · intro hmark
    rw [Token.isMark_iff.mp hmark] at htook
    exact pure (htook (by simp))
  · intro hmark
    refine throw (unexpected (hno ?_) token)
    rw [htokens]
    exact mt frontIs_cons.mp hmark

theorem expectIdent (hyes : ∀ name s', Took s [.ident name] s' → Runs (k name) s' Q E)
    (hno : (∀ name rest, ¬ Spells [.ident name] s.tokens rest) →
      E .unexpectedEof ∧ ∀ token, E (.unexpectedToken token)) :
    Runs (expectIdent >>= k) s Q E := by
  refine bind (Q := fun name s' => Took s [.ident name] s') ?_
    fun name s' htook => hyes name s' htook
  have hfront : ∀ {name rest}, Spells [.ident name] s.tokens rest →
      ∃ token mid, s.tokens = token :: mid ∧ token.kind = .ident name := by
    intro name rest h
    obtain ⟨token, mid, htokens, hkind, -⟩ := Spells.cons_iff.mp h
    exact ⟨token, mid, htokens, hkind⟩
  refine next (fun hnil => (hno ?_).1) fun token s' htokens htook => ?_
  · intro name rest h
    obtain ⟨_, _, htokens, -⟩ := hfront h
    rw [hnil] at htokens
    cases htokens
  · split
    · next name hkind =>
        rw [hkind] at htook
        exact pure (htook (by simp))
    · next hkind =>
        refine throw (unexpected (hno fun name rest h => ?_) token)
        obtain ⟨_, _, htokens', hkind'⟩ := hfront h
        rw [htokens] at htokens'
        obtain ⟨rfl, rfl⟩ := List.cons.inj htokens'
        exact hkind name hkind'

theorem expectEof (hyes : ∀ (eof : Token) s', s.tokens = eof :: s'.tokens → eof.isEof = true →
      Runs (g ()) s' Q E)
    (hnil : s.tokens = [] → E .unexpectedEof)
    (hno : ∀ token rest, s.tokens = token :: rest → token.isEof = false →
      E (.unexpectedToken token)) : Runs (expectEof >>= g) s Q E := by
  refine bind (Q := fun _ s' => ∃ eof : Token, s.tokens = eof :: s'.tokens ∧ eof.isEof = true) ?_ ?_
  · refine next hnil fun token s' htokens _ => ite (fun heof => pure ⟨token, htokens, heof⟩) ?_
    exact fun hnot => throw (hno token _ htokens (Bool.eq_false_iff.mpr hnot))
  · rintro _ s' ⟨eof, htokens, heof⟩
    exact hyes eof s' htokens heof

end Tokens

/-- Opening a level changes the depth alone. -/
theorem enter {f : Unit → Parse α} (hE : ∀ limit position, E (.tooDeeplyNested limit position))
    (h : ∀ s', s'.tokens = s.tokens → Runs (f ()) s' Q E) : Runs (enter >>= f) s Q E := by
  by_cases hdepth : s.depth < maxDepth
  · have henter : Expr.enter s = .ok ((), { s with depth := s.depth + 1 }) := by
      change (if s.depth < maxDepth then _ else _ : Parse Unit) s = _
      rw [if_pos hdepth]
      rfl
    refine bind (Q := fun _ s' => s'.tokens = s.tokens) ?_ fun _ s' hs' => h s' hs'
    unfold Runs
    rw [henter]
  · refine bind (Q := fun _ _ => False) ?_ fun _ _ hfalse => hfalse.elim
    change Runs (if s.depth < maxDepth then _ else _ : Parse Unit) s _ E
    rw [if_neg hdepth]
    exact peekStart fun start => throw (hE _ _)

theorem restoringDepth (h : Runs p s (fun a s' => Q a { s' with depth := s.depth }) E) :
    Runs (restoringDepth p) s Q E :=
  look rfl (bind h fun _ _ hQ => hQ)

/-- A parser one level deeper starts with the same tokens. -/
theorem nested (hE : ∀ limit position, E (.tooDeeplyNested limit position))
    (h : ∀ s', s'.tokens = s.tokens →
      Runs p s' (fun a s'' => Q a { s'' with depth := s.depth }) E) :
    Runs (nested p) s Q E :=
  restoringDepth (enter hE h)

end Runs

/-- The parser takes a text of which `P` holds, with the result; it does not fail as if there
were nothing to read. -/
def Takes {α : Type} (p : Parse α) (s : Stream) (P : List TokenKind → α → Prop) : Prop :=
  Runs p s (fun a s' => ∃ text, Took s text s' ∧ P text a) (· ≠ .empty)

/-- The error of an expression that is nested too deeply. -/
def TooDeep (e : ExprError) : Prop := ∃ limit position, e = .tooDeeplyNested limit position

/-- The parser goes on to `rest`, if there are levels enough, with a result of which `P`
holds. -/
def Reads {α : Type} (p : Parse α) (s : Stream) (rest : List Token) (P : α → Prop) : Prop :=
  Runs p s (fun a s' => s'.tokens = rest ∧ P a) TooDeep

section Rules

variable {α β : Type} {p : Parse α} {s : Stream} {f : α → Parse β} {Q : β → Stream → Prop}
  {m : Mark} {text : List TokenKind} {tokens mid rest : List Token} {E : ExprError → Prop}

theorem Takes.bind {P : List TokenKind → α → Prop} (h : Takes p s P)
    (hf : ∀ a text s', Took s text s' → P text a → Runs (f a) s' Q (· ≠ .empty)) :
    Runs (p >>= f) s Q (· ≠ .empty) :=
  Runs.bind h fun a s' ⟨text, htook, hP⟩ => hf a text s' htook hP

theorem Takes.imp {P P' : List TokenKind → α → Prop} (h : Takes p s P)
    (hPP : ∀ text a, P text a → P' text a) : Takes p s P' :=
  Runs.imp h fun _ _ ⟨text, htook, hP⟩ => ⟨text, htook, hPP text _ hP⟩

theorem Takes.expect {f : Unit → Parse β}
    (hf : ∀ s', Took s [.mark m] s' → Runs (f ()) s' Q (· ≠ .empty)) :
    Runs (expect m >>= f) s Q (· ≠ .empty) :=
  Runs.expect hf fun _ => ⟨nofun, nofun⟩

theorem Takes.expectIdent {f : String → Parse β}
    (hf : ∀ name s', Took s [.ident name] s' → Runs (f name) s' Q (· ≠ .empty)) :
    Runs (expectIdent >>= f) s Q (· ≠ .empty) :=
  Runs.expectIdent hf fun _ => ⟨nofun, nofun⟩

theorem Takes.enter {f : Unit → Parse β}
    (hf : ∀ s', s'.tokens = s.tokens → Runs (f ()) s' Q (· ≠ .empty)) :
    Runs (enter >>= f) s Q (· ≠ .empty) :=
  Runs.enter (fun _ _ => nofun) hf

theorem Takes.restoringDepth {P : List TokenKind → α → Prop} (h : Takes p s P) :
    Takes (restoringDepth p) s P :=
  Runs.restoringDepth
    (Runs.imp h fun _ _ ⟨text, htook, hP⟩ => ⟨text, htook.withDepth _, hP⟩)

theorem Takes.nested {P : List TokenKind → α → Prop} (h : ∀ s, Takes p s P) :
    Takes (nested p) s P :=
  Runs.nested (fun _ _ => nofun) fun s' hs' => Runs.imp (h s') fun _ _ ⟨text, htook, hP⟩ =>
    ⟨text, .of_tokens_eq hs' (htook.withDepth _), hP⟩

theorem Reads.bind {P : α → Prop} (h : Reads p s mid P)
    (hf : ∀ a s', s'.tokens = mid → P a → Runs (f a) s' Q TooDeep) :
    Runs (p >>= f) s Q TooDeep :=
  Runs.bind h fun a s' ⟨htokens, hP⟩ => hf a s' htokens hP

theorem Reads.imp {P P' : α → Prop} (h : Reads p s rest P) (hPP : ∀ a, P a → P' a) :
    Reads p s rest P' :=
  Runs.imp h fun a _ ⟨htokens, hP⟩ => ⟨htokens, hPP a hP⟩

theorem Took.spells_of_spells {kind : TokenKind} {s' : Stream} (h : Took s [kind] s')
    (htext : Spells (kind :: text) s.tokens rest) : Spells text s'.tokens rest := by
  obtain ⟨mid, hkind, hrest⟩ := Spells.append_iff.mp (show Spells ([kind] ++ text) _ _ from htext)
  rwa [h.spells.unique hkind]

theorem FrontIs.of_spells (h : Spells (.mark m :: text) tokens rest) : FrontIs m tokens := by
  obtain ⟨mid, hmark, -⟩ := Spells.append_iff.mp (show Spells ([.mark m] ++ text) _ _ from h)
  exact ⟨mid, hmark⟩

theorem not_frontIs_of_spells {kind : TokenKind} (h : Spells (kind :: text) tokens rest)
    (hkind : kind ≠ .mark m) : ¬ FrontIs m tokens := by
  rintro ⟨mid, hmark⟩
  obtain ⟨token, _, htokens, hfirst, -⟩ := Spells.cons_iff.mp h
  obtain ⟨token', _, htokens', hfirst', -⟩ := Spells.cons_iff.mp hmark
  rw [htokens] at htokens'
  obtain ⟨rfl, -⟩ := List.cons.inj htokens'
  exact hkind (hfirst.symm.trans hfirst')

/-- A phrase does not begin with a token that only looser phrases begin with. -/
theorem Derives.not_frontIs {level tightest : Level} {tree : Expr} (h : Derives level text tree)
    (hm : TokenKind.begins? (.mark m) = some tightest) (hrank : tightest.rank < level.rank)
    (htext : Spells text tokens rest) : ¬ FrontIs m tokens := by
  obtain ⟨kind, more, rfl, other, hkind, hother⟩ := h.begins
  apply not_frontIs_of_spells htext
  rintro rfl
  rw [hm] at hkind
  cases hkind
  exact absurd hrank (Nat.not_lt.mpr hother)

/-- What stops a level does not begin with a token that the level goes on with. -/
theorem Stops.not_frontIs {level tightest : Level} (h : Stops level tokens)
    (hm : TokenKind.continues? (.mark m) = some tightest) (hrank : level.rank ≤ tightest.rank) :
    ¬ FrontIs m tokens := by
  rintro ⟨mid, hfront⟩
  obtain ⟨token, _, rfl, hkind, -⟩ := Spells.cons_iff.mp hfront
  rw [← hkind] at hm
  exact absurd (h token rfl tightest hm) (Nat.not_lt.mpr hrank)

theorem Reads.next {f : Token → Parse β} {kind : TokenKind}
    (h : Spells (kind :: text) s.tokens rest)
    (hf : ∀ token s', token.kind = kind → Spells text s'.tokens rest → Runs (f token) s' Q E) :
    Runs (next >>= f) s Q E := by
  obtain ⟨token, mid, htokens, hkind, hrest⟩ := Spells.cons_iff.mp h
  refine Runs.next (fun hnil => ?_) fun token' s' htokens' _ => ?_
  · rw [hnil] at htokens
    cases htokens
  · rw [htokens] at htokens'
    obtain ⟨rfl, rfl⟩ := List.cons.inj htokens'
    exact hf token s' hkind hrest

theorem Reads.ifConsume {yes no : Parse α} {Q : α → Stream → Prop}
    (h : Spells (.mark m :: text) s.tokens rest)
    (hyes : ∀ s', Spells text s'.tokens rest → Runs yes s' Q E) :
    Runs (do if ← consume m then yes else no) s Q E :=
  Runs.ifConsume (fun s' htook => hyes s' (htook.spells_of_spells h))
    fun hfront => absurd (FrontIs.of_spells h) hfront

theorem Reads.unlessConsume {yes no : Parse α} {Q : α → Stream → Prop}
    (h : ¬ FrontIs m s.tokens) (hno : Runs no s Q E) :
    Runs (do if ← consume m then yes else no) s Q E :=
  Runs.ifConsume (fun s' htook => absurd ⟨s'.tokens, htook.spells⟩ h) fun _ => hno

theorem Reads.ifPeek {yes no : Parse α} {Q : α → Stream → Prop} (h : FrontIs m s.tokens)
    (hyes : Runs yes s Q E) : Runs (do if ← peekIs m then yes else no) s Q E :=
  Runs.ifPeek (fun _ => hyes) fun hfront => absurd h hfront

theorem Reads.unlessPeek {yes no : Parse α} {Q : α → Stream → Prop} (h : ¬ FrontIs m s.tokens)
    (hno : Runs no s Q E) : Runs (do if ← peekIs m then yes else no) s Q E :=
  Runs.ifPeek (fun hfront => absurd hfront h) fun _ => hno

theorem Reads.expect {f : Unit → Parse β} (h : Spells (.mark m :: text) s.tokens rest)
    (hf : ∀ s', Spells text s'.tokens rest → Runs (f ()) s' Q E) :
    Runs (expect m >>= f) s Q E :=
  Runs.expect (fun s' htook => hf s' (htook.spells_of_spells h))
    fun hfront => absurd (FrontIs.of_spells h) hfront

theorem Reads.expectIdent {f : String → Parse β} {name : String}
    (h : Spells (.ident name :: text) s.tokens rest)
    (hf : ∀ s', Spells text s'.tokens rest → Runs (f name) s' Q E) :
    Runs (expectIdent >>= f) s Q E := by
  have hname : ∀ {other mid}, Spells [.ident other] s.tokens mid → other = name := by
    intro other mid hother
    obtain ⟨_, _, htokens, hkind, -⟩ := Spells.cons_iff.mp h
    obtain ⟨_, _, htokens', hkind', -⟩ := Spells.cons_iff.mp hother
    rw [htokens] at htokens'
    obtain ⟨rfl, -⟩ := List.cons.inj htokens'
    rw [hkind] at hkind'
    cases hkind'
    rfl
  refine Runs.expectIdent ?_ ?_
  · intro other s' htook
    obtain rfl := hname htook.spells
    exact hf s' (htook.spells_of_spells h)
  · intro hno
    obtain ⟨mid, hfirst, -⟩ :=
      Spells.append_iff.mp (show Spells ([.ident name] ++ text) _ _ from h)
    exact absurd hfirst (hno name mid)

theorem Reads.expectEof {f : Unit → Parse β} {eof : Token} (heof : eof.isEof = true)
    (hs : s.tokens = eof :: rest) (hf : ∀ s', s'.tokens = rest → Runs (f ()) s' Q E) :
    Runs (expectEof >>= f) s Q E := by
  have hfirst : ∀ {token more}, s.tokens = token :: more → token = eof ∧ more = rest :=
    fun htokens => List.cons.inj (htokens.symm.trans hs)
  refine Runs.expectEof (fun _ s' htokens _ => hf s' (hfirst htokens).2) (fun hnil => ?_)
    fun token more htokens hnot => ?_
  · rw [hnil] at hs
    cases hs
  · rw [(hfirst htokens).1, heof] at hnot
    cases hnot

theorem Reads.enter {f : Unit → Parse β}
    (hf : ∀ s', s'.tokens = s.tokens → Runs (f ()) s' Q TooDeep) :
    Runs (enter >>= f) s Q TooDeep :=
  Runs.enter (fun limit position => ⟨limit, position, rfl⟩) hf

theorem Reads.restoringDepth {P : α → Prop} (h : Reads p s rest P) :
    Reads (restoringDepth p) s rest P :=
  Runs.restoringDepth h

theorem Reads.nested {P : α → Prop} (h : ∀ s', s'.tokens = s.tokens → Reads p s' rest P) :
    Reads (nested p) s rest P :=
  Runs.nested (fun limit position => ⟨limit, position, rfl⟩) h

end Rules

end Expr
end Stencil
