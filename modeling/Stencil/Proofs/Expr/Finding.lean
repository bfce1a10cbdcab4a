/-
What a parser finds: from a stream that begins with certain tokens it comes to their tree, and
takes just them.  Rules for one step, and for names and lists.
-/
import Stencil.Proofs.Expr.Spending
import Stencil.Proofs.Expr.Twins

namespace Stencil
namespace Expr

/-- The parser succeeds from `s`, with a result and a stream that satisfy `Q`. -/
abbrev Succeeds {α : Type} (p : Parse α) (s : Stream) (Q : α → Stream → Prop) : Prop :=
  Runs p s Q fun _ => False

theorem Succeeds.exists_ok {α : Type} {p : Parse α} {s : Stream} {Q : α → Stream → Prop}
    (h : Succeeds p s Q) : ∃ a s', p s = .ok (a, s') ∧ Q a s' := by
  unfold Succeeds Runs at h
  rcases hresult : p s with e | ⟨a, s'⟩
  · rw [hresult] at h
    exact h.elim
  · rw [hresult] at h
    exact ⟨a, s', rfl, h⟩

/-- From `s` the parser takes the tokens `taken` for the result `a`. -/
def Finds {α : Type} (p : Parse α) (s : Stream) (taken : List Token) (a : α) : Prop :=
  Succeeds p s fun b s' => b = a ∧ Moves s taken 0 s'

theorem Runs.step {α β : Type} {p : Parse α} {f : α → Parse β} {s s' : Stream} {a : α}
    {Q : β → Stream → Prop} {E : ExprError → Prop} (h : p s = .ok (a, s'))
    (hf : Runs (f a) s' Q E) : Runs (p >>= f) s Q E := by
  unfold Runs at hf ⊢
  rwa [bind_of_ok h]

theorem Runs.of_ok {α : Type} {p : Parse α} {s s' : Stream} {a : α} {Q : α → Stream → Prop}
    {E : ExprError → Prop} (h : p s = .ok (a, s')) (hQ : Q a s') : Runs p s Q E := by
  unfold Runs
  rwa [h]

theorem Moves.rest {s s' : Stream} {taken rest : List Token} {opened : Nat}
    (h : Moves s taken opened s') (hs : s.tokens = taken ++ rest) : s'.tokens = rest :=
  List.append_cancel_left (h.tokens.symm.trans hs)

theorem Stream.StartsAt.of_cons {s : Stream} {t : Token} {rest : List Token}
    (h : s.tokens = t :: rest) : s.StartsAt t.range.start := by
  rw [Stream.StartsAt, h]
  rintro _ ⟨⟩
  rfl

/-- Fewer than `bound` tokens are left, and at most `depth` levels are open. -/
structure Room (bound depth : Nat) (s : Stream) : Prop where
  tokens : s.tokens.length < bound
  depth : s.depth ≤ depth

namespace Room

variable {bound depth opened : Nat} {s s' : Stream} {taken : List Token} {t : Token}

theorem behind (hs : Room bound depth s) (h : Moves s taken opened s') :
    Room bound (depth + opened) s' := by
  obtain ⟨htokens, hdepth⟩ := hs
  rw [h.length_eq] at htokens
  constructor
  · omega
  · rw [h.depth]
    omega

theorem behind_cons (hs : Room (bound + 1) depth s) (h : Moves s (t :: taken) opened s') :
    Room bound (depth + opened) s' := by
  obtain ⟨htokens, hdepth⟩ := hs
  rw [h.length_eq, List.length_cons] at htokens
  constructor
  · omega
  · rw [h.depth]
    omega

end Room

theorem not_frontIs_of_cons {m : Mark} {t : Token} {tokens rest : List Token}
    (h : tokens = t :: rest) (hkind : t.kind ≠ .mark m) : ¬ FrontIs m tokens := by
  rw [h, frontIs_cons, Token.isMark_iff]
  exact hkind

theorem not_frontIs_of_marked {m other : Mark} (w : Marked m) {tokens rest : List Token}
    (hs : tokens = w.1 :: rest) (hne : m ≠ other) : ¬ FrontIs other tokens := by
  apply not_frontIs_of_cons hs
  rw [w.2]
  simpa using hne

/-- No list is closed where an expression begins. -/
theorem not_frontIs_of_begins {close : Mark} (hclose : close.Closes)
    {tokens rest front : List Token}
    (h : ∃ t more, tokens = t :: more ∧ Level.expr.Begins t.kind) (hs : front = tokens ++ rest) :
    ¬ FrontIs close front := by
  obtain ⟨t, more, rfl, hbegins⟩ := h
  exact not_frontIs_of_cons hs (hclose.ne_of_begins hbegins)

namespace Finds

variable {α β : Type} {s : Stream} {t : Token} {m : Mark} {taken rest : List Token}
  {Q : β → Stream → Prop} {E : ExprError → Prop}

theorem bind {p : Parse α} {a : α} {f : α → Parse β} (h : Finds p s taken a)
    (hs : s.tokens = taken ++ rest)
    (hf : ∀ s', s'.tokens = rest → Moves s taken 0 s' → Succeeds (f a) s' Q) :
    Succeeds (p >>= f) s Q := by
  apply Runs.bind h
  rintro _ s' ⟨rfl, hmoves⟩
  exact hf s' (hmoves.rest hs) hmoves

theorem next {f : Token → Parse β} (hs : s.tokens = t :: rest)
    (hf : ∀ s', s'.tokens = rest → Moves s [t] 0 s' → Runs (f t) s' Q E) :
    Runs (Expr.next >>= f) s Q E :=
  Runs.step (next_eq hs) (hf _ rfl ⟨hs, rfl, rfl⟩)

theorem ifConsume {yes no : Parse β} (w : Marked m) (hs : s.tokens = w.1 :: rest)
    (hyes : ∀ s', s'.tokens = rest → Moves s [w.1] 0 s' → Runs yes s' Q E) :
    Runs (do if ← consume m then yes else no) s Q E :=
  Runs.step (consume_eq hs w.2) (hyes _ rfl ⟨hs, rfl, rfl⟩)

theorem expect {f : Unit → Parse β} (w : Marked m) (hs : s.tokens = w.1 :: rest)
    (hf : ∀ s', s'.tokens = rest → Moves s [w.1] 0 s' → Runs (f ()) s' Q E) :
    Runs (Expr.expect m >>= f) s Q E := by
  refine Runs.bind (Q := fun _ s' => s'.tokens = rest ∧ Moves s [w.1] 0 s') ?_
    fun _ s' h => hf s' h.1 h.2
  refine next hs fun s' hs' hmoves => Runs.ite (fun _ => Runs.pure ⟨hs', hmoves⟩) fun hnot => ?_
  exact absurd (Token.isMark_iff.mpr w.2) hnot

theorem expectIdent {f : String → Parse β} {name : String} (hkind : t.kind = .ident name)
    (hs : s.tokens = t :: rest)
    (hf : ∀ s', s'.tokens = rest → Moves s [t] 0 s' → Runs (f name) s' Q E) :
    Runs (Expr.expectIdent >>= f) s Q E := by
  refine Runs.bind (Q := fun a s' => a = name ∧ s'.tokens = rest ∧ Moves s [t] 0 s') ?_ ?_
  · refine next hs fun s' hs' hmoves => ?_
    rw [hkind]
    exact Runs.pure ⟨rfl, hs', hmoves⟩
  · rintro _ s' ⟨rfl, hs', hmoves⟩
    exact hf s' hs' hmoves

theorem enter {f : Unit → Parse β} (hdepth : s.depth < maxDepth)
    (hf : ∀ s', s'.tokens = s.tokens → Moves s [] 1 s' → Runs (f ()) s' Q E) :
    Runs (Expr.enter >>= f) s Q E :=
  Runs.step (enter_eq hdepth) (hf _ rfl ⟨rfl, rfl, rfl⟩)

theorem operator {f : BinaryOp → Parse β} {op : BinaryOp} (w : Spelled op)
    (hop : op.level ≠ .power) (hs : s.tokens = w.tokens ++ rest)
    (hf : ∀ s', s'.tokens = rest → Moves s w.tokens 0 s' → Runs (f op) s' Q E) :
    Runs (Expr.operator >>= f) s Q E := by
  obtain ⟨tokens, hspells⟩ := w
  refine Runs.bind (Q := fun a s' => a = op ∧ Moves s tokens 0 s') ?_ ?_
  · cases op with
    | pow => exact absurd rfl hop
    | notIn =>
        obtain ⟨t, _, rfl, hkind, hmore⟩ := List.map_eq_cons_iff.mp hspells
        obtain ⟨u, _, rfl, hkind', hnil⟩ := List.map_eq_cons_iff.mp hmore
        obtain rfl := List.map_eq_nil_iff.mp hnil
        refine next hs fun s₁ hs₁ hmoves => ?_
        rw [hkind]
        refine expect ⟨u, hkind'⟩ hs₁ fun s₂ hs₂ hmoves' => ?_
        exact Runs.pure ⟨rfl, hmoves.trans hmoves'⟩
    | _ =>
        obtain ⟨t, _, rfl, hkind, hnil⟩ := List.map_eq_cons_iff.mp hspells
        obtain rfl := List.map_eq_nil_iff.mp hnil
        refine next hs fun s₁ hs₁ hmoves => ?_
        rw [hkind]
        exact Runs.pure ⟨rfl, hmoves⟩
  · rintro _ s' ⟨rfl, hmoves⟩
    exact hf s' (hmoves.rest hs) hmoves

/-- The start of the tokens that are next. -/
theorem peekStart {f : Position → Parse β} (hs : s.tokens = t :: rest)
    (hf : Runs (f t.range.start) s Q E) : Runs (Expr.peekStart >>= f) s Q E := by
  obtain ⟨tokens, lastEnd, lastStop, depth⟩ := s
  obtain rfl : tokens = t :: rest := hs
  exact Runs.look rfl hf

/-- The levels that a loop opened are closed behind it. -/
theorem restoringDepth {p : Parse α} {a : α}
    (h : Succeeds p s fun b s' => b = a ∧ ∃ chain, Moves s taken chain s') :
    Finds (restoringDepth p) s taken a := by
  apply Runs.restoringDepth
  apply Runs.imp h
  rintro _ s' ⟨rfl, _, hmoves⟩
  exact ⟨rfl, hmoves.restored⟩

end Finds

/-- The level of the grammar that a layer belongs to. -/
def Layer.level : Layer → Level
  | .expr => .expr
  | .disjunction | .disjuncts => .disjunction
  | .conjunction => .conjunction
  | .negation => .negation
  | .comparison _ => .comparison
  | .sum => .sum
  | .product => .product
  | .unary => .unary
  | .power => .power
  | .suffixed => .suffixed
  | .primary => .primary

namespace Parses

variable {layer : Layer} {depth chain : Nat} {tokens : List Token} {e : Expr}

theorem depth_le (h : Parses layer depth chain tokens e) : depth + chain ≤ maxDepth :=
  h.builds.depth_le

/-- The first token is one that the level can begin with. -/
theorem begins (h : Parses layer depth chain tokens e) :
    ∃ t more, tokens = t :: more ∧ layer.level.Begins t.kind := by
  have looser : ∀ {level tighter : Level} {tokens : List Token} (more : List Token),
      level.rank ≤ tighter.rank →
        (∃ t rest, tokens = t :: rest ∧ tighter.Begins t.kind) →
          ∃ t rest, tokens ++ more = t :: rest ∧ level.Begins t.kind := by
    rintro level tighter _ more hrank ⟨t, rest, rfl, tightest, hkind, htightest⟩
    exact ⟨t, rest ++ more, rfl, tightest, hkind, Nat.le_trans hrank htightest⟩
  have marked : ∀ {level tightest : Level} {m : Mark} (w : Marked m) (more : List Token),
      TokenKind.begins? (.mark m) = some tightest → level.rank ≤ tightest.rank →
        ∃ t rest, w.1 :: more = t :: rest ∧ level.Begins t.kind := by
    intro level tightest m w more hm hrank
    exact ⟨w.1, more, rfl, tightest, by rw [w.2, hm], hrank⟩
  induction h with
  | @literal _ t _ _ hkind =>
      refine ⟨t, [], rfl, .primary, ?_, Nat.le_refl _⟩
      revert hkind
      generalize t.kind = kind
      intro hkind
      unfold TokenKind.literal? at hkind
      split at hkind <;> first | rfl | cases hkind
  | name _ hkind => exact ⟨_, [], rfl, .primary, by rw [hkind]; rfl, Nat.le_refl _⟩
  | paren l _ _ _ => exact marked l _ rfl (by decide)
  | list l _ _ _ _ => exact marked l _ rfl (by decide)
  | dict l _ _ _ _ => exact marked l _ rfl (by decide)
  | comprehension l _ _ _ _ _ _ => exact marked l _ rfl (by decide)
  | @sign _ _ _ op _ w hop _ _ =>
      cases op <;> cases hop <;> exact marked w _ rfl (by decide)
  | not w _ _ => exact marked w _ rfl (by decide)
  | lambda w _ _ _ _ _ => exact marked w _ rfl (by decide)
  | conditional _ _ _ _ _ ih _ _ => exact looser _ (by decide) ih
  | sum _ ih | product _ ih | unary _ ih | power _ ih | suffixed _ ih | operand _ ih
  | compared _ ih | conjunction _ ih | disjuncts _ ih | disjunction _ ih | expr _ ih =>
      simpa using looser [] (Nat.le_of_ble_eq_true rfl) ih
  | factor _ _ _ _ ih _ | term _ _ _ _ ih _ | pair _ _ _ _ ih _ | link _ _ _ _ ih _
  | pow _ _ _ ih _ | member _ _ _ _ ih | index _ _ _ _ ih _ | call _ _ _ _ _ ih _
  | and _ _ _ ih _ | or _ _ _ ih _ => exact looser _ (Nat.le_of_ble_eq_true rfl) ih

theorem not_frontIs {tightest : Level} {m : Mark} {front rest : List Token}
    (h : Parses layer depth chain tokens e) (hm : TokenKind.begins? (.mark m) = some tightest)
    (hrank : tightest.rank < layer.level.rank) (hfront : front = tokens ++ rest) :
    ¬ FrontIs m front := by
  obtain ⟨t, more, rfl, other, hkind, hother⟩ := h.begins
  apply not_frontIs_of_cons hfront
  intro hmark
  rw [hmark, hm] at hkind
  cases hkind
  exact absurd hrank (Nat.not_lt.mpr hother)

end Parses

theorem Stops.of_cons {level : Level} {t : Token} {tokens rest : List Token}
    (h : tokens = t :: rest) (hkind : level.Ends t.kind) : Stops level tokens := by
  rw [h]
  rintro _ ⟨⟩
  exact hkind

/-- A mark that ends the phrases of a level stops them. -/
theorem Marked.stops {level : Level} {m : Mark} (w : Marked m) (hm : level.Ends (.mark m))
    (rest : List Token) : Stops level (w.1 :: rest) :=
  .of_cons rfl (by rwa [w.2])

/-- An operator stops what is tighter than it is. -/
theorem Spelled.stops {op : BinaryOp} (w : Spelled op) {tighter : Level}
    (hrank : op.level.rank < tighter.rank) (rest : List Token) :
    Stops tighter (w.tokens ++ rest) := by
  obtain ⟨kind, more, hspelling, -, hcontinues⟩ := op.spelling_eq_cons
  have hspells := w.spells
  rw [hspelling] at hspells
  obtain ⟨t, more, htokens, rfl, -⟩ := List.map_eq_cons_iff.mp hspells
  rw [htokens]
  exact .of_cons rfl (Level.ends_of_continues hcontinues hrank)

/-- So does an operator with what it is followed by. -/
theorem Spelled.stops_around {op : BinaryOp} (w : Spelled op) {level tighter : Level}
    (hop : op.level = level) (hrank : level.rank < tighter.rank) (more rest : List Token) :
    Stops tighter (w.tokens ++ more ++ rest) := by
  rw [List.append_assoc]
  exact w.stops (hop ▸ hrank) _

/-- Its first token tells how tightly it binds. -/
theorem Spelled.frontPrecedence_eq {op : BinaryOp} (w : Spelled op) (rest : List Token) :
    frontPrecedence (w.tokens ++ rest) = op.level.precedence := by
  obtain ⟨kind, more, hspelling, hprecedence, -⟩ := op.spelling_eq_cons
  have hspells := w.spells
  rw [hspelling] at hspells
  obtain ⟨t, more, htokens, rfl, -⟩ := List.map_eq_cons_iff.mp hspells
  rw [htokens]
  exact hprecedence

section Names

variable {names : List String} {taken rest : List Token} {s : Stream}

/-- Names behind the first come behind a comma. -/
theorem exists_of_nameList {name : String}
    (h : taken.map (·.kind) = nameList (name :: names)) :
    ∃ (t : Token) (more : List Token), t.kind = .ident name ∧ taken = t :: more ∧
      (names = [] ∧ more = [] ∨ names ≠ [] ∧ ∃ (comma : Marked .comma) (others : List Token),
        more = comma.1 :: others ∧ others.map (·.kind) = nameList names) := by
  by_cases hnil : names = []
  · subst hnil
    obtain ⟨t, more, rfl, hkind, hmore⟩ := List.map_eq_cons_iff.mp h
    exact ⟨t, more, hkind, rfl, .inl ⟨rfl, List.map_eq_nil_iff.mp hmore⟩⟩
  · rw [nameList_cons name hnil] at h
    obtain ⟨t, more, rfl, hkind, hmore⟩ := List.map_eq_cons_iff.mp h
    obtain ⟨comma, others, rfl, hcomma, hothers⟩ := List.map_eq_cons_iff.mp hmore
    exact ⟨t, _, hkind, rfl, .inr ⟨hnil, ⟨comma, hcomma⟩, others, rfl, hothers⟩⟩

theorem finds_parameters (hrest : ¬ FrontIs .comma rest) (hne : names ≠ []) (hnodup : names.Nodup)
    (seen : List String) (hfresh : ∀ name ∈ names, name ∉ seen)
    (h : taken.map (·.kind) = nameList names) (fuel : Nat) (hs : s.tokens = taken ++ rest)
    (hfuel : s.tokens.length < fuel) : Finds (parameters seen fuel) s taken names := by
  induction names generalizing seen fuel s taken with
  | nil => exact absurd rfl hne
  | cons name names ih =>
      obtain ⟨fuel, rfl⟩ := Nat.exists_eq_succ_of_ne_zero (Nat.ne_zero_of_lt hfuel)
      obtain ⟨hseen, hnodup, hfresh⟩ := fresh_cons_iff.mp ⟨hnodup, hfresh⟩
      obtain ⟨t, more, hkind, rfl, hmore⟩ := exists_of_nameList h
      refine Finds.expectIdent hkind hs fun s₁ hs₁ hfirst => ?_
      refine Runs.ite (fun hmem => absurd hmem hseen) fun _ => ?_
      rcases hmore with ⟨rfl, rfl⟩ | ⟨hnil, comma, others, rfl, hothers⟩
      · refine Reads.unlessConsume ?_ (Runs.pure ⟨rfl, hfirst⟩)
        rw [hs₁]
        exact hrest
      · refine Finds.ifConsume comma hs₁ fun s₂ hs₂ hcomma => ?_
        have hlength := hfirst.length_eq
        have hlength' := hcomma.length_eq
        have hrec := ih hnil hnodup (name :: seen) hfresh hothers fuel hs₂
          (by simp only [List.length_singleton] at hlength hlength'; omega)
        exact hrec.bind hs₂ fun s₃ _ hlast => Runs.pure ⟨rfl, hfirst.trans (hcomma.trans hlast)⟩

theorem finds_targets (hrest : ¬ FrontIs .comma rest) (hne : names ≠ [])
    (h : taken.map (·.kind) = nameList names) (fuel : Nat) (hs : s.tokens = taken ++ rest)
    (hfuel : s.tokens.length < fuel) : Finds (targets fuel) s taken names := by
  induction names generalizing fuel s taken with
  | nil => exact absurd rfl hne
  | cons name names ih =>
      obtain ⟨fuel, rfl⟩ := Nat.exists_eq_succ_of_ne_zero (Nat.ne_zero_of_lt hfuel)
      obtain ⟨t, more, hkind, rfl, hmore⟩ := exists_of_nameList h
      refine Finds.expectIdent hkind hs fun s₁ hs₁ hfirst => ?_
      rcases hmore with ⟨rfl, rfl⟩ | ⟨hnil, comma, others, rfl, hothers⟩
      · refine Reads.unlessConsume ?_ (Runs.pure ⟨rfl, hfirst⟩)
        rw [hs₁]
        exact hrest
      · refine Finds.ifConsume comma hs₁ fun s₂ hs₂ hcomma => ?_
        have hlength := hfirst.length_eq
        have hlength' := hcomma.length_eq
        have hrec := ih hnil hothers fuel hs₂
          (by simp only [List.length_singleton] at hlength hlength'; omega)
        exact hrec.bind hs₂ fun s₃ _ hlast => Runs.pure ⟨rfl, hfirst.trans (hcomma.trans hlast)⟩

end Names

section Loops

variable {π α : Type} {tree : π → α} {text : π → List Token} {Good : π → Prop}
  {item : Parse α} {bound depth : Nat}

/-- Where at most `depth` levels are open, the parser finds everything of which `Good` holds, in
streams of fewer than `bound` tokens that stop the given level. -/
def Findable (bound depth : Nat) (level : Level) (item : Parse α) (tree : π → α)
    (text : π → List Token) (Good : π → Prop) : Prop :=
  ∀ p, Good p → ∀ ⦃s : Stream⦄ ⦃rest : List Token⦄, s.tokens = text p ++ rest →
    Room bound depth s → Stops level rest → Finds item s (text p) (tree p)

theorem finds_listOf (hitem : Findable bound depth .expr item tree text Good)
    (hbegins : ∀ p, Good p → ∃ t more, text p = t :: more ∧ Level.expr.Begins t.kind)
    {close : Mark} (hclose : close.Closes) {taken rest : List Token} {ps : List π}
    (h : Listing text close taken ps) (hps : ∀ p ∈ ps, Good p) (fuel : Nat) {s : Stream}
    (hs : s.tokens = taken ++ rest) (hfuel : s.tokens.length < fuel) (hroom : Room bound depth s) :
    Finds (listOf item close fuel) s taken (ps.map tree) := by
  induction h generalizing fuel s with
  | nil t =>
      obtain ⟨fuel, rfl⟩ := Nat.exists_eq_succ_of_ne_zero (Nat.ne_zero_of_lt hfuel)
      exact Finds.ifConsume t hs fun s₁ _ hmoves => Runs.pure ⟨rfl, hmoves⟩
  | single p t =>
      obtain ⟨fuel, rfl⟩ := Nat.exists_eq_succ_of_ne_zero (Nat.ne_zero_of_lt hfuel)
      have hp := hps p List.mem_cons_self
      rw [List.append_assoc] at hs
      apply Reads.unlessConsume (not_frontIs_of_begins hclose (hbegins p hp) hs)
      refine (hitem p hp hs hroom (t.stops hclose.ends _)).bind hs fun s₁ hs₁ hmoves => ?_
      apply Reads.unlessConsume (not_frontIs_of_marked t hs₁ hclose.ne_comma)
      exact Finds.expect t hs₁ fun s₂ _ hmoves' => Runs.pure ⟨rfl, hmoves.trans hmoves'⟩
  | @cons p t tokens ps _ ih =>
      obtain ⟨fuel, rfl⟩ := Nat.exists_eq_succ_of_ne_zero (Nat.ne_zero_of_lt hfuel)
      obtain ⟨hp, hps⟩ := List.forall_mem_cons.mp hps
      rw [List.append_assoc] at hs
      apply Reads.unlessConsume (not_frontIs_of_begins hclose (hbegins p hp) hs)
      refine (hitem p hp hs hroom (t.stops ends_comma _)).bind hs fun s₁ hs₁ hmoves => ?_
      refine Finds.ifConsume t hs₁ fun s₂ hs₂ hcomma => ?_
      have hlength := hmoves.length_eq
      have hlength' := hcomma.length_eq
      rw [List.length_singleton] at hlength'
      have hrec := ih hps fuel hs₂ (by omega) ((hroom.behind hmoves).behind hcomma)
      exact hrec.bind hs₂ fun s₃ _ hmore => Runs.pure ⟨rfl, hmoves.trans (hcomma.trans hmore)⟩

theorem finds_collect {level : Level} (hitem : Findable bound depth level item tree text Good)
    {word : Mark} (hword : level.Ends (.mark word)) {ps : List (Marked word × π)}
    (hps : ∀ p ∈ ps, Good p.2) (fuel : Nat) {s : Stream} {rest : List Token}
    (hs : s.tokens = headed text ps ++ rest) (hfuel : s.tokens.length < fuel)
    (hroom : Room bound depth s) (hstop : Stops level rest) (hrest : ¬ FrontIs word rest) :
    Finds (collect item word fuel) s (headed text ps) (ps.map fun p => tree p.2) := by
  induction ps generalizing fuel s with
  | nil =>
      obtain ⟨fuel, rfl⟩ := Nat.exists_eq_succ_of_ne_zero (Nat.ne_zero_of_lt hfuel)
      refine Reads.unlessConsume ?_ (Runs.pure ⟨rfl, .refl s⟩)
      rw [hs]
      exact hrest
  | cons p ps ih =>
      obtain ⟨fuel, rfl⟩ := Nat.exists_eq_succ_of_ne_zero (Nat.ne_zero_of_lt hfuel)
      obtain ⟨w, p⟩ := p
      obtain ⟨hp, hps⟩ := List.forall_mem_cons.mp hps
      have hsplit : headed text ((w, p) :: ps) = w.1 :: (text p ++ headed text ps) := rfl
      rw [hsplit, List.cons_append, List.append_assoc] at hs
      refine Finds.ifConsume w hs fun s₁ hs₁ hmoves => ?_
      have hlength := hmoves.length_eq
      rw [List.length_singleton] at hlength
      have hnext : Stops level (headed text ps ++ rest) := by
        cases ps with
        | nil => exact hstop
        | cons q ps => exact q.1.stops hword _
      have hroom₁ := hroom.behind hmoves
      refine (hitem p hp hs₁ hroom₁ hnext).bind hs₁ fun s₂ hs₂ hfirst => ?_
      have hlength' := hfirst.length_eq
      have hrec := ih hps fuel hs₂ (by omega) (hroom₁.behind hfirst)
      exact hrec.bind hs₂ fun s₃ _ hmore => Runs.pure ⟨rfl, hmoves.trans (hfirst.trans hmore)⟩

end Loops

end Expr
end Stencil
