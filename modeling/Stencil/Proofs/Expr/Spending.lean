/-
What the parsers spend.  Each takes some tokens, builds its tree from them, and leaves as many
levels open as it found; a token that its error blames is one of those it was given.
-/
import Stencil.Proofs.Expr.Loops
import Stencil.Proofs.Expr.Parses

namespace Stencil
namespace Expr

/-- An error of the parser: what it blames is one of the tokens, other than the end. -/
def Blames (tokens : List Token) : ExprError → Prop
  | .unexpectedToken token => token ∈ tokens ∧ token.isEof = false
  | .unexpectedCharacter _ _ | .duplicateKeyword _ => False
  | _ => True

/-- The tokens `taken` are taken off `s`, and `opened` more levels are open then. -/
structure Moves (s : Stream) (taken : List Token) (opened : Nat) (s' : Stream) : Prop where
  tokens : s.tokens = taken ++ s'.tokens
  lastEnd : s'.lastEnd = endBehind s.lastEnd taken
  depth : s'.depth = s.depth + opened

/-- The next token, if there is one, starts at `start`. -/
def Stream.StartsAt (s : Stream) (start : Position) : Prop :=
  ∀ t ∈ s.tokens.head?, t.range.start = start

namespace Moves

variable {s s₁ s₂ : Stream} {taken more : List Token} {opened deeper : Nat}

theorem refl (s : Stream) : Moves s [] 0 s := ⟨rfl, rfl, rfl⟩

theorem trans (h : Moves s taken opened s₁) (h' : Moves s₁ more deeper s₂) :
    Moves s (taken ++ more) (opened + deeper) s₂ := by
  constructor
  · rw [h.tokens, h'.tokens, List.append_assoc]
  · rw [h'.lastEnd, h.lastEnd, endBehind_append]
  · rw [h'.depth, h.depth, Nat.add_assoc]

theorem suffix (h : Moves s taken opened s₁) : s₁.tokens <:+ s.tokens :=
  ⟨taken, h.tokens.symm⟩

theorem length_eq (h : Moves s taken opened s₁) :
    s.tokens.length = taken.length + s₁.tokens.length := by
  rw [h.tokens, List.length_append]

theorem restored (h : Moves s taken opened s₁) : Moves s taken 0 { s₁ with depth := s.depth } :=
  ⟨h.tokens, h.lastEnd, rfl⟩

/-- The range of what was taken. -/
theorem rangeFrom {α : Type} {f : Range → Parse α} {R : α → Stream → Prop} {E : ExprError → Prop}
    {start : Position} (h : Moves s taken opened s₁) (hne : taken ≠ []) (hstart : s.StartsAt start)
    (hf : Runs (f (hull taken)) s₁ R E) : Runs (rangeFrom start >>= f) s₁ R E := by
  obtain ⟨t, taken, rfl⟩ := List.exists_cons_of_ne_nil hne
  have hrange : (⟨start, s₁.lastEnd⟩ : Range) = hull (t :: taken) := by
    rw [← hstart t (by rw [h.tokens]; rfl), h.lastEnd, endBehind_of_ne_nil hne _ {}]
    rfl
  exact Runs.look rfl (hrange ▸ hf)

end Moves

/-- Some of the tokens are left, and no more levels are open than there are. -/
structure Underway (all : List Token) (s : Stream) : Prop where
  suffix : s.tokens <:+ all
  depth : s.depth ≤ maxDepth

theorem Moves.underway {all : List Token} {s s' : Stream} {taken : List Token}
    (h : Moves s taken 0 s') (hs : Underway all s) : Underway all s' := by
  constructor
  · exact h.suffix.trans hs.suffix
  · rw [h.depth]
    exact hs.depth

/-- Where `depth` levels are open, the parser takes tokens for a result with
`Q depth taken`. -/
def Spends {α : Type} (all : List Token) (p : Parse α) (Q : Nat → List Token → α → Prop) : Prop :=
  ∀ s, Underway all s →
    Runs p s (fun a s' => ∃ taken, Moves s taken 0 s' ∧ Q s.depth taken a) (Blames all)

/-- Behind `s`, a loop took tokens and opened `chain` levels. -/
def Grows {α : Type} (s : Stream) (Q : Nat → List Token → α → Prop) (a : α) (s' : Stream) : Prop :=
  ∃ taken chain, Moves s taken chain s' ∧ Q chain taken a

theorem Spends.imp {α : Type} {all : List Token} {p : Parse α} {P Q : Nat → List Token → α → Prop}
    (h : Spends all p P) (hPQ : ∀ depth taken a, P depth taken a → Q depth taken a) :
    Spends all p Q :=
  fun s hs => Runs.imp (h s hs) fun a _ ⟨taken, hmoves, hP⟩ => ⟨taken, hmoves, hPQ _ taken a hP⟩

namespace Underway

variable {α β : Type} {all : List Token} {s : Stream} {R : β → Stream → Prop}

theorem blames_unexpected {token : Token} (h : token ∈ all) : Blames all (unexpected token) := by
  unfold unexpected
  split
  · trivial
  · next heof => exact ⟨h, Bool.eq_false_iff.mpr heof⟩

theorem bind {p : Parse α} {Q : Nat → List Token → α → Prop} {f : α → Parse β}
    (hs : Underway all s) (hp : Spends all p Q)
    (hf : ∀ a taken s', Underway all s' → Moves s taken 0 s' → Q s.depth taken a →
      Runs (f a) s' R (Blames all)) : Runs (p >>= f) s R (Blames all) := by
  apply Runs.bind (hp s hs)
  rintro a s' ⟨taken, hmoves, hQ⟩
  exact hf a taken s' (hmoves.underway hs) hmoves hQ

theorem front_mem {token : Token} {rest : List Token} (hs : Underway all s)
    (htokens : s.tokens = token :: rest) : token ∈ all := by
  apply hs.suffix.mem
  rw [htokens]
  exact List.mem_cons_self

theorem next {f : Token → Parse β} (hs : Underway all s)
    (hf : ∀ token s', s.tokens = token :: s'.tokens → Underway all s' → Moves s [token] 0 s' →
      Runs (f token) s' R (Blames all)) : Runs (next >>= f) s R (Blames all) := by
  obtain ⟨_ | ⟨token, rest⟩, lastEnd, lastStop, depth⟩ := s
  · exact (trivial : Blames all .unexpectedEof)
  · have hmoves : Moves ⟨token :: rest, lastEnd, lastStop, depth⟩ [token] 0
        ⟨rest, token.range.stop, token.stop, depth⟩ := ⟨rfl, rfl, rfl⟩
    exact hf token _ rfl (hmoves.underway hs) hmoves

theorem expect {m : Mark} {f : Unit → Parse β} (hs : Underway all s)
    (hf : ∀ (t : Marked m) s', Underway all s' → Moves s [t.1] 0 s' →
      Runs (f ()) s' R (Blames all)) : Runs (expect m >>= f) s R (Blames all) := by
  apply Runs.bind (Q := fun _ s' => ∃ t : Marked m, Moves s [t.1] 0 s')
  · apply hs.next
    intro token s' htokens _ hmoves
    apply Runs.ite
    · intro hmark
      exact Runs.pure ⟨⟨token, Token.isMark_iff.mp hmark⟩, hmoves⟩
    · intro _
      exact Runs.throw (blames_unexpected (hs.front_mem htokens))
  · rintro _ s' ⟨t, hmoves⟩
    exact hf t s' (hmoves.underway hs) hmoves

theorem expectIdent {f : String → Parse β} (hs : Underway all s)
    (hf : ∀ name (t : Token) s', t.kind = .ident name → Underway all s' → Moves s [t] 0 s' →
      Runs (f name) s' R (Blames all)) : Runs (expectIdent >>= f) s R (Blames all) := by
  apply Runs.bind (Q := fun name s' => ∃ t : Token, t.kind = .ident name ∧ Moves s [t] 0 s')
  · apply hs.next
    intro token s' htokens _ hmoves
    split
    · next name hkind => exact Runs.pure ⟨token, hkind, hmoves⟩
    · exact Runs.throw (blames_unexpected (hs.front_mem htokens))
  · rintro name s' ⟨t, hkind, hmoves⟩
    exact hf name t s' hkind (hmoves.underway hs) hmoves

theorem ifConsume {m : Mark} {yes no : Parse β} (hs : Underway all s)
    (hyes : ∀ (t : Marked m) s', Underway all s' → Moves s [t.1] 0 s' →
      Runs yes s' R (Blames all))
    (hno : Runs no s R (Blames all)) :
    Runs (do if ← consume m then yes else no) s R (Blames all) := by
  apply Runs.bind (Q := fun b s' => if b then ∃ t : Marked m, Moves s [t.1] 0 s' else s' = s)
  · apply Runs.ifPeek
    · rintro ⟨_, hfront⟩
      apply hs.next
      intro token s' htokens _ hmoves
      obtain ⟨_, _, hcons, hkind, -⟩ := Spells.cons_iff.mp hfront
      obtain ⟨rfl, -⟩ := List.cons.inj (htokens.symm.trans hcons)
      exact Runs.pure ⟨⟨token, hkind⟩, hmoves⟩
    · intro _
      exact Runs.pure rfl
  · intro b s' hb
    cases b with
    | false =>
        obtain rfl : s' = s := hb
        exact hno
    | true =>
        obtain ⟨t, hmoves⟩ := hb
        exact hyes t s' (hmoves.underway hs) hmoves

/-- Opening a level takes no token; there is a level left to open. -/
theorem enter {f : Unit → Parse β} (hs : Underway all s)
    (hf : ∀ s', Underway all s' → Moves s [] 1 s' → Runs (f ()) s' R (Blames all)) :
    Runs (enter >>= f) s R (Blames all) := by
  apply Runs.bind (Q := fun _ s' => Underway all s' ∧ Moves s [] 1 s')
  · change Runs (if s.depth < maxDepth then _ else _ : Parse Unit) s _ _
    apply Runs.ite
    · intro hdepth
      have hs' : Underway all { s with depth := s.depth + 1 } := ⟨hs.suffix, hdepth⟩
      have hmoves : Moves s [] 1 { s with depth := s.depth + 1 } := ⟨rfl, rfl, rfl⟩
      exact And.intro hs' hmoves
    · intro _
      exact Runs.peekStart fun _ => Runs.throw trivial
  · rintro _ s' ⟨hs', hmoves⟩
    exact hf s' hs' hmoves

theorem peekStart {f : Position → Parse β} {E : ExprError → Prop}
    (h : ∀ start, s.StartsAt start → Runs (f start) s R E) : Runs (peekStart >>= f) s R E := by
  obtain ⟨_ | ⟨token, rest⟩, lastEnd, lastStop, depth⟩ := s
  · exact Runs.look rfl (h _ nofun)
  · refine Runs.look rfl (h _ ?_)
    rintro t ⟨⟩
    rfl

/-- The levels that a loop opened are closed behind it. -/
theorem restoringDepth {p : Parse α} {Q : List Token → α → Prop}
    (h : Runs p s (Grows s fun _ taken a => Q taken a) (Blames all)) :
    Runs (restoringDepth p) s (fun a s' => ∃ taken, Moves s taken 0 s' ∧ Q taken a)
      (Blames all) := by
  apply Runs.restoringDepth
  apply Runs.imp h
  rintro a s' ⟨taken, _, hmoves, hQ⟩
  exact ⟨taken, hmoves.restored, hQ⟩

end Underway

section Loops

variable {π α : Type} {all : List Token}

/-- The result is the tree of something whose tokens are taken. -/
def Shared (tree : π → α) (text : π → List Token) (Good : Nat → π → Prop) (depth : Nat)
    (taken : List Token) (a : α) : Prop :=
  ∃ p, a = tree p ∧ taken = text p ∧ Good depth p

variable {tree : π → α} {text : π → List Token} {Good : Nat → π → Prop} {item : Parse α}

theorem spends_listOf (hitem : Spends all item (Shared tree text Good)) (close : Mark)
    (fuel : Nat) :
    Spends all (listOf item close fuel) fun depth taken as =>
      ∃ ps, as = ps.map tree ∧ Listing text close taken ps ∧ ∀ p ∈ ps, Good depth p := by
  induction fuel with
  | zero =>
      intro s _
      exact Runs.throw (by trivial)
  | succ fuel ih =>
      intro s hs
      apply hs.ifConsume
      · intro t s₁ _ hclose
        exact Runs.pure ⟨_, hclose, [], rfl, .nil t, List.forall_mem_nil _⟩
      · apply hs.bind hitem
        rintro _ _ s₁ hs₁ hfirst ⟨p, rfl, rfl, hp⟩
        apply hs₁.ifConsume
        · intro t s₂ hs₂ hcomma
          apply hs₂.bind ih
          rintro _ taken s₃ _ hrest ⟨ps, rfl, hlisting, hps⟩
          rw [hcomma.depth, hfirst.depth] at hps
          refine Runs.pure ⟨_, hfirst.trans (hcomma.trans hrest), p :: ps, rfl, ?_, ?_⟩
          · exact .cons p t hlisting
          · exact List.forall_mem_cons.mpr ⟨hp, hps⟩
        · apply hs₁.expect
          intro t s₂ _ hclose
          refine Runs.pure ⟨_, hfirst.trans hclose, [p], rfl, .single p t, ?_⟩
          exact List.forall_mem_singleton.mpr hp

theorem spends_collect (hitem : Spends all item (Shared tree text Good)) (word : Mark)
    (fuel : Nat) :
    Spends all (collect item word fuel) fun depth taken as =>
      ∃ ps : List (Marked word × π), as = ps.map (fun p => tree p.2) ∧ taken = headed text ps ∧
        ∀ p ∈ ps, Good depth p.2 := by
  induction fuel with
  | zero =>
      intro s _
      exact Runs.pure ⟨_, .refl s, [], rfl, rfl, List.forall_mem_nil _⟩
  | succ fuel ih =>
      intro s hs
      apply hs.ifConsume
      · intro w s₁ hs₁ hword
        apply hs₁.bind hitem
        rintro _ _ s₂ hs₂ hfirst ⟨p, rfl, rfl, hp⟩
        apply hs₂.bind ih
        rintro _ _ s₃ _ hrest ⟨ps, rfl, rfl, hps⟩
        rw [hfirst.depth] at hps
        rw [hword.depth] at hp hps
        refine Runs.pure ⟨_, hword.trans (hfirst.trans hrest), (w, p) :: ps, rfl, rfl, ?_⟩
        exact List.forall_mem_cons.mpr ⟨hp, hps⟩
      · exact Runs.pure ⟨_, .refl s, [], rfl, rfl, List.forall_mem_nil _⟩

/-- A chain of operands grows by one level and one word for each of them. -/
theorem grows_joins {Q R : Nat → List Token → Expr → Prop} {operand : Parse Expr}
    (hoperand : Spends all operand R) (word : Mark) {join : Expr → Expr → Expr} {s : Stream}
    (hjoin : ∀ {chain taken more lhs rhs} (w : Marked word), Q chain taken lhs →
      R (s.depth + chain + 1) more rhs → Q (chain + 1) (taken ++ w.1 :: more) (join lhs rhs))
    (fuel : Nat) {chain : Nat} {taken : List Token} {lhs : Expr} {s₁ : Stream}
    (hs : Underway all s₁) (hmoves : Moves s taken chain s₁) (hlhs : Q chain taken lhs) :
    Runs (joins word operand join lhs fuel) s₁ (Grows s Q) (Blames all) := by
  induction fuel generalizing chain taken lhs s₁ with
  | zero => exact Runs.pure ⟨taken, chain, hmoves, hlhs⟩
  | succ fuel ih =>
      apply hs.ifConsume
      · intro w s₂ hs₂ hword
        apply hs₂.enter
        intro s₃ hs₃ henter
        apply hs₃.bind hoperand
        intro rhs more s₄ hs₄ hrest hrhs
        rw [(hmoves.trans (hword.trans henter)).depth] at hrhs
        exact ih hs₄ (hmoves.trans (hword.trans (henter.trans hrest))) (hjoin w hlhs hrhs)
      · exact Runs.pure ⟨taken, chain, hmoves, hlhs⟩

end Loops

/-- Where `depth` levels are open, the parser reads what stands `extra` levels deeper. -/
def Yields (all : List Token) (layer : Layer) (extra : Nat) (p : Parse Expr) : Prop :=
  Spends all p fun depth taken e => Parses layer (depth + extra) 0 taken e

/-- A chain of the layer, however long, where `depth` levels are open. -/
def Chained (layer : Layer) (depth : Nat) (taken : List Token) (e : Expr) : Prop :=
  ∃ chain, Parses layer depth chain taken e

/-- Expressions of a layer, `extra` levels deeper. -/
def Stretch.Reads (layer : Layer) (extra depth : Nat) (p : Stretch) : Prop :=
  Parses layer (depth + extra) 0 p.tokens p.tree

section Leaves

variable {all : List Token}

theorem Yields.nested {layer : Layer} {p : Parse Expr} (h : Yields all layer 0 p) :
    Yields all layer 1 (nested p) := by
  intro s hs
  apply Underway.restoringDepth
  apply hs.enter
  intro s₁ hs₁ henter
  apply Runs.imp (h s₁ hs₁)
  rintro e s₂ ⟨taken, hmoves, he⟩
  rw [henter.depth] at he
  exact ⟨_, _, henter.trans hmoves, he⟩

theorem Yields.shared {layer : Layer} {extra : Nat} {p : Parse Expr}
    (h : Yields all layer extra p) :
    Spends all p (Shared Stretch.tree Stretch.tokens (Stretch.Reads layer extra)) := by
  apply Spends.imp h
  intro depth taken e he
  exact ⟨⟨taken, e⟩, rfl, rfl, he⟩

theorem spends_parameters (seen : List String) (fuel : Nat) :
    Spends all (parameters seen fuel) fun _ taken names =>
      ∃ p : NameStretch, taken = p.tokens ∧ names = p.names ∧ names ≠ [] ∧ names.Nodup ∧
        ∀ name ∈ names, name ∉ seen := by
  induction fuel generalizing seen with
  | zero =>
      intro s _
      exact Runs.throw (by trivial)
  | succ fuel ih =>
      intro s hs
      apply hs.expectIdent
      intro name t s₁ hkind hs₁ hname
      apply Runs.ite
      · intro _
        exact Runs.throw (by trivial)
      · intro hseen
        apply hs₁.ifConsume
        · intro w s₂ hs₂ hcomma
          apply hs₂.bind (ih (name :: seen))
          rintro _ _ s₃ _ hrest ⟨p, rfl, rfl, hne, hnodup, hfresh⟩
          refine Runs.pure ⟨_, hname.trans (hcomma.trans hrest), ⟨_, name :: p.names, ?_⟩, rfl, rfl,
            nofun, fresh_cons_iff.mpr ⟨hseen, hnodup, hfresh⟩⟩
          simp [nameList_cons name hne, p.spells, hkind, w.2]
        · exact Runs.pure ⟨_, hname, ⟨[t], [name], by simp [hkind, nameList, separated]⟩, rfl, rfl,
            nofun, by simp, by simpa using hseen⟩

theorem spends_targets (fuel : Nat) :
    Spends all (targets fuel) fun _ taken names =>
      ∃ p : NameStretch, taken = p.tokens ∧ names = p.names ∧ names ≠ [] := by
  induction fuel with
  | zero =>
      intro s _
      exact Runs.throw (by trivial)
  | succ fuel ih =>
      intro s hs
      apply hs.expectIdent
      intro name t s₁ hkind hs₁ hname
      apply hs₁.ifConsume
      · intro w s₂ hs₂ hcomma
        apply hs₂.bind ih
        rintro _ _ s₃ _ hrest ⟨p, rfl, rfl, hne⟩
        refine Runs.pure ⟨_, hname.trans (hcomma.trans hrest), ⟨_, name :: p.names, ?_⟩, rfl, rfl,
          nofun⟩
        simp [nameList_cons name hne, p.spells, hkind, w.2]
      · exact Runs.pure ⟨_, hname, ⟨[t], [name], by simp [hkind, nameList, separated]⟩, rfl, rfl,
          nofun⟩

theorem spends_entry {item : Parse Expr} (hitem : Yields all .expr 1 item) :
    Spends all (entry item) (Shared EntryStretch.tree EntryStretch.tokens
      fun depth entry => ∀ p ∈ entry.parts, p.Reads .expr 1 depth) := by
  intro s hs
  apply hs.bind hitem
  intro key taken s₁ hs₁ hfirst hkey
  apply hs₁.expect
  intro colon s₂ hs₂ hcolon
  apply hs₂.bind hitem
  intro value more s₃ _ hsecond hvalue
  rw [hcolon.depth, hfirst.depth] at hvalue
  refine Runs.pure ⟨_, hfirst.trans (hcolon.trans hsecond), ⟨⟨taken, key⟩, colon, ⟨more, value⟩⟩,
    rfl, rfl, ?_⟩
  exact List.forall_mem_cons.mpr ⟨hkey, List.forall_mem_singleton.mpr hvalue⟩

theorem spends_clause {item : Parse Expr} (hitem : Yields all .disjunction 0 item) :
    Spends all (clause item) (Shared ClauseStretch.tree ClauseStretch.tokens
      fun depth c => ∀ p ∈ c.parts, p.Reads .disjunction 0 depth) := by
  intro s hs
  apply Runs.rounds
  apply hs.bind (spends_targets _)
  rintro _ _ s₁ hs₁ hnames ⟨targets, rfl, rfl, hne⟩
  apply hs₁.expect
  intro inWord s₂ hs₂ hin
  apply hs₂.bind hitem
  intro source taken s₃ hs₃ hmoves hsource
  apply Runs.rounds
  rw [conditions_eq]
  apply hs₃.bind (spends_collect hitem.shared .ifWord _)
  rintro _ _ s₄ _ hrest ⟨ps, rfl, rfl, hps⟩
  rw [hmoves.depth] at hps
  rw [hin.depth, hnames.depth] at hsource hps
  refine Runs.pure ⟨_, hnames.trans (hin.trans (hmoves.trans hrest)),
    ⟨targets, hne, inWord, ⟨taken, source⟩, ps⟩, rfl, rfl, ?_⟩
  exact List.forall_mem_cons.mpr ⟨hsource, List.forall_mem_map.mpr hps⟩

end Leaves

end Expr
end Stencil
