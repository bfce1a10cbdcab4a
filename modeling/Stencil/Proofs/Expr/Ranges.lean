/-
The range of every node of a tree is that of its text: it goes from token to token, and cut out of
the source the text is read as the same node.
-/
import Stencil.Expression
import Stencil.Proofs.Expr.Building
import Stencil.Proofs.Expr.Equality
import Stencil.Proofs.Expr.Moving
import Stencil.Proofs.Expr.Nodes
import Stencil.Proofs.Expr.Rereading

namespace Stencil
namespace Expr

/-- The tokens stand one behind another. -/
structure Ordered (tokens : List Token) : Prop where
  each : ∀ t ∈ tokens, t.range.start.UpTo t.range.stop
  apart : tokens.Pairwise fun t u => t.range.stop.UpTo u.range.start

theorem hull_stop {tokens : List Token} {t : Token} (h : tokens.getLast? = some t) :
    (hull tokens).stop = t.range.stop := by
  obtain ⟨init, rfl⟩ := List.getLast?_eq_some_iff.mp h
  rw [hull, endBehind_append]
  rfl

namespace Ordered

variable {before tokens after : List Token} {t : Token}

theorem start_upTo (h : Ordered tokens) (ht : t ∈ tokens) :
    (hull tokens).start.UpTo t.range.start := by
  obtain ⟨first, more, rfl⟩ := List.exists_cons_of_ne_nil (List.ne_nil_of_mem ht)
  rcases List.mem_cons.mp ht with rfl | hmore
  · exact .refl _
  · exact (h.each first List.mem_cons_self).trans (List.rel_of_pairwise_cons h.apart hmore)

theorem upTo_stop (h : Ordered tokens) (ht : t ∈ tokens) :
    t.range.stop.UpTo (hull tokens).stop := by
  obtain ⟨init, last, rfl⟩ := List.eq_nil_or_concat' tokens |>.resolve_left (List.ne_nil_of_mem ht)
  rw [hull_stop List.getLast?_concat]
  rcases List.mem_append.mp ht with hinit | hlast
  · have hapart := (List.pairwise_append.mp h.apart).2.2 t hinit last List.mem_cons_self
    exact hapart.trans (h.each last (List.mem_append_right _ List.mem_cons_self))
  · rw [List.mem_singleton.mp hlast]
    exact .refl _

theorem middle (h : Ordered (before ++ (tokens ++ after))) : Ordered tokens := by
  obtain ⟨heach, hapart⟩ := h
  constructor
  · exact fun t ht => heach t (List.mem_append_right _ (List.mem_append_left _ ht))
  · exact (List.pairwise_append.mp (List.pairwise_append.mp hapart).2.1).1

/-- The range of some of the tokens lies inside that of all. -/
theorem hull_inside (h : Ordered (before ++ (tokens ++ after))) (hne : tokens ≠ []) :
    (hull (before ++ (tokens ++ after))).start.UpTo (hull tokens).start ∧
      (hull tokens).stop.UpTo (hull (before ++ (tokens ++ after))).stop := by
  constructor
  · obtain ⟨first, more, rfl⟩ := List.exists_cons_of_ne_nil hne
    exact h.start_upTo (by simp)
  · obtain ⟨init, last, rfl⟩ := List.eq_nil_or_concat' tokens |>.resolve_left hne
    rw [hull_stop List.getLast?_concat]
    exact h.upTo_stop (by simp)

/-- Tokens behind others have a range behind theirs. -/
theorem hull_apart {first between second : List Token}
    (h : Ordered (before ++ (first ++ (between ++ (second ++ after))))) (hfirst : first ≠ [])
    (hsecond : second ≠ []) : (hull first).stop.UpTo (hull second).start := by
  obtain ⟨init, last, rfl⟩ := List.eq_nil_or_concat' first |>.resolve_left hfirst
  obtain ⟨head, more, rfl⟩ := List.exists_cons_of_ne_nil hsecond
  rw [hull_stop List.getLast?_concat]
  have hbehind := (List.pairwise_append.mp h.apart).2.1
  exact (List.pairwise_append.mp hbehind).2.2 last (by simp) head (by simp)

end Ordered

namespace Lexed

variable {lead text : List Char} {tokens taken after : List Token}

/-- Reading goes on behind each token. -/
theorem ordered (h : Lexed lead text tokens) :
    (∀ t ∈ tokens, (Position.after {} lead).UpTo t.range.start) ∧ Ordered tokens := by
  induction h with
  | @eof lead blanks _ =>
      simp only [List.forall_mem_singleton]
      refine ⟨?_, ⟨List.forall_mem_singleton.mpr (.refl _), List.pairwise_singleton ..⟩⟩
      rw [Position.after_append]
      exact Position.upTo_after _ blanks
  | @token lead blanks piece rest t tokens _ hcovers _ ih =>
      obtain ⟨hbehind, heach, hapart⟩ := ih
      have hblanks : (Position.after {} lead).UpTo t.range.start := by
        rw [hcovers.range, Range.behind, Position.after_append]
        exact Position.upTo_after _ blanks
      have hpiece : t.range.start.UpTo t.range.stop := by
        rw [hcovers.range, Range.behind, Position.after_append _ (lead ++ blanks)]
        exact Position.upTo_after _ piece
      have hmore : ∀ u ∈ tokens, t.range.stop.UpTo u.range.start := by
        rw [hcovers.range]
        exact hbehind
      refine ⟨List.forall_mem_cons.mpr ⟨hblanks, fun u hu => ?_⟩,
        ⟨List.forall_mem_cons.mpr ⟨hpiece, heach⟩, List.pairwise_cons.mpr ⟨hmore, hapart⟩⟩⟩
      exact hblanks.trans (hpiece.trans (hmore u hu))

theorem proper (h : Lexed lead text tokens) :
    ∀ t ∈ tokens, t.range.start.Proper ∧ t.range.stop.Proper := by
  induction h with
  | @eof lead blanks _ =>
      exact List.forall_mem_singleton.mpr ⟨Position.proper_default.after _,
        Position.proper_default.after _⟩
  | @token lead blanks piece rest t tokens _ hcovers _ ih =>
      refine List.forall_mem_cons.mpr ⟨?_, ih⟩
      rw [hcovers.range]
      exact ⟨Position.proper_default.after _, Position.proper_default.after _⟩

end Lexed

/-- Only the last token is the end. -/
theorem Lexed.not_isEof {lead text : List Char} {taken after : List Token}
    (h : Lexed lead text (taken ++ after)) (hafter : after ≠ []) :
    ∀ t ∈ taken, t.isEof = false := by
  induction taken generalizing lead text with
  | nil => exact List.forall_mem_nil _
  | cons t taken ih =>
      obtain ⟨_, _, _, -, -, hcovers, hrest⟩ :=
        h.front (List.append_ne_nil_of_right_ne_nil _ hafter)
      refine List.forall_mem_cons.mpr ⟨?_, ih hrest⟩
      exact Bool.eq_false_iff.mpr (mt Token.isEof_iff.mp (ne_eof_of_lexeme? hcovers.lexeme))

/-- The range of the tokens of a piece. -/
theorem Piece.hull_eq {lead piece : List Char} {tokens : List Token} (h : Piece lead piece tokens) :
    hull tokens = Range.behind lead piece := by
  obtain ⟨first, hfirst, -, hstart⟩ := h.start
  obtain ⟨last, hlast, -, hstop⟩ := h.stop
  obtain ⟨more, rfl⟩ := List.head?_eq_some_iff.mp hfirst
  have hhull : hull (first :: more) = ⟨first.range.start, (hull (first :: more)).stop⟩ := rfl
  rw [hhull, hull_stop hlast, hstart, hstop]
  rfl

/-- What tokens are read as is determined by them. -/
theorem Parses.unique {depth : Nat} {tokens : List Token} {e e' : Expr}
    (h : Parses .expr (depth + 1) 0 tokens e) (h' : Parses .expr (depth + 1) 0 tokens e') :
    e = e' := by
  have heof : Token.isEof ⟨.eof, 0, 0, {}⟩ = true := rfl
  have hsame := (ofTokens?_of_parses h heof []).symm.trans (ofTokens?_of_parses h' heof [])
  cases hsame
  rfl

theorem read?_eq_ok_iff {source : List Char} {e : Expr} :
    Expression.read? source = .ok e ↔
      ∃ tokens, tokenize source = .ok tokens ∧ ofTokens? tokens = .ok e := by
  unfold Expression.read?
  rcases tokenize source with cause | tokens
  · exact ⟨nofun, nofun⟩
  · exact ⟨fun h => ⟨tokens, rfl, h⟩, by rintro ⟨_, ⟨⟩, h⟩; exact h⟩

/-- What the tokens of a piece are read as, the piece alone is read as, at its own places. -/
theorem Parses.alone {depth : Nat} {lead piece : List Char} {tokens : List Token} {e : Expr}
    (h : Parses .expr (depth + 1) 0 tokens e) (hpiece : Piece lead piece tokens) :
    ∃ alone, Expression.read? piece = .ok alone ∧ (Move.behind lead).expr alone = e := by
  obtain ⟨ts, eof, hlexed, heof, htokens⟩ := hpiece.alone
  have hproper := hlexed.proper
  have hback : (Move.back lead).tokens tokens = ts := by
    rw [htokens, Move.tokens, List.map_map]
    refine (List.map_congr_left fun t ht => ?_).trans (List.map_id ts)
    obtain ⟨hstart, hstop⟩ := hproper t (List.mem_append_left _ ht)
    exact Move.back_behind lead hstart hstop
  have halone := h.move (Move.back lead)
  rw [hback] at halone
  refine ⟨_, read?_eq_ok_iff.mpr ⟨_, tokenize_eq_ok_iff.mpr hlexed,
    ofTokens?_of_parses halone heof []⟩, ?_⟩
  have hbehind := halone.move (Move.behind lead)
  rw [Move.tokens, ← htokens] at hbehind
  exact hbehind.unique h

/-- The range of the node `n` of the tree `e` is that of its text in `source`. -/
structure Exact (source : List Char) (e n : Expr) : Prop where
  /-- It goes from the start of a token to the end of a token.  Where parentheses stand around these
  two, they are those of a call with the node. -/
  tokens : ∃ before own after first last, tokenize source = .ok (before ++ (own ++ after)) ∧
    own.head? = some first ∧ own.getLast? = some last ∧ (∀ t ∈ own, t.isEof = false) ∧
      n.range = ⟨first.range.start, last.range.stop⟩ ∧
        (Opened before → Closed after → ∃ callee range, Node e (.call callee [n] range))
  /-- The text, cut out, is read as the node at its own places. -/
  alone : ∃ lead piece rest alone, source = lead ++ piece ++ rest ∧
    n.range = Range.behind lead piece ∧ Expression.read? piece = .ok alone ∧
      alone.mapRange (·.offsetBy n.range.start) = n
  inside : ∀ part ∈ n.steps, n.range.start.UpTo part.2.range.start ∧
    part.2.range.stop.UpTo n.range.stop
  /-- What is joined does not overlap, but two comparisons of a chain share the operand between
  them. -/
  joined : ∀ lhs rhs range, n = .and lhs rhs range →
    lhs.range.stop.UpTo rhs.range.start ∨ Linked lhs rhs

theorem Seated.exact {source : List Char} {depth : Nat} {taken before own after rest : List Token}
    {e n : Expr} {eof : Token} (h : Seated (depth + 1) taken e n before own after)
    (hlexed : Lexed [] source (taken ++ eof :: rest)) (heof : eof.isEof = true) :
    Exact source e n := by
  obtain ⟨rfl, ⟨_ | deeper, hdeeper, hparses⟩, hparens⟩ := h
  · exact absurd hdeeper (Nat.not_succ_le_zero depth)
  obtain ⟨hne, hrange⟩ := hparses.range_eq
  have hafter : after ++ eof :: rest ≠ [] :=
    List.append_ne_nil_of_right_ne_nil _ (List.cons_ne_nil eof rest)
  rw [List.append_assoc, List.append_assoc] at hlexed
  have hordered := hlexed.ordered.2.middle
  obtain ⟨first, more, rfl⟩ := List.exists_cons_of_ne_nil hne
  obtain ⟨passed, text, rfl, hown⟩ := hlexed.skip (List.cons_ne_nil first _)
  obtain ⟨blanks, piece, behind, rfl, -, hpiece, -⟩ := hown.piece hafter
  rw [List.nil_append] at hpiece
  have hstart : n.range = Range.behind (passed ++ blanks) piece := hrange.trans hpiece.hull_eq
  constructor
  · obtain ⟨last, hlast, -⟩ := hpiece.stop
    refine ⟨before, first :: more, after ++ eof :: rest, first, last,
      tokenize_eq_ok_iff.mpr hlexed, rfl, hlast, hown.not_isEof hafter, ?_, ?_⟩
    · rw [hrange, ← hull_stop hlast]
      rfl
    · refine fun hopened hclosed => hparens hopened ?_
      cases after with
      | nil =>
          obtain ⟨_, ⟨⟩, hkind⟩ := hclosed
          rw [Token.isEof_iff.mp heof] at hkind
          cases hkind
      | cons => exact hclosed
  · obtain ⟨alone, hread, hmoved⟩ := hparses.alone hpiece
    refine ⟨passed ++ blanks, piece, behind, alone, by simp, hstart, hread, ?_⟩
    rw [hstart]
    exact hmoved
  · intro part hpart
    obtain ⟨front, inner, back, hsplit, ⟨_, -, hinner⟩, -⟩ := hparses.part hpart
    obtain ⟨hinnerNe, hinnerRange⟩ := hinner.range_eq
    rw [hsplit] at hordered
    rw [hrange, hinnerRange, hsplit]
    exact hordered.hull_inside hinnerNe
  · rintro lhs rhs range rfl
    rcases hparses.conjuncts_apart with
      hlinked | ⟨front, left, between, right, back, hsplit, hleft, hl, hright, hr⟩
    · exact .inr hlinked
    · rw [hsplit] at hordered
      rw [hl, hr]
      exact .inl (hordered.hull_apart hleft hright)

/-- What compiles is a tree each of whose nodes has exactly the range of its text: from token to
token, with the parentheses around it, and read as the same node when it is cut out. -/
theorem node_range_exact {source : List Char} {compiled : Expression}
    (h : Expression.compile? source = .ok compiled) :
    ∃ e, Expression.read? source = .ok e ∧ compiled = .ofExpr (trim source) e ∧
      ∀ n, Node e n → Exact source e n := by
  unfold Expression.compile? at h
  rcases hread : Expression.read? source with cause | e
  · rw [hread] at h
    cases h
  · rw [hread] at h
    cases h
    refine ⟨e, rfl, rfl, fun n hn => ?_⟩
    obtain ⟨tokens, htokens, htree⟩ := read?_eq_ok_iff.mp hread
    obtain ⟨taken, eof, rest, rfl, heof, hparses⟩ := parses_of_ofTokens? htree
    obtain ⟨before, own, after, hseated⟩ := hparses.node hn
    exact hseated.exact (tokenize_eq_ok_iff.mp htokens) heof

namespace ChainWitness

/-- Two comparisons of one operand, over two lines. -/
def source : List Char := "(a) < (b)\n< c".toList

def compiled : Expression where
  source := "(a) < (b)\n< c"
  code := .and (.binary .lt (.global "a") (.global "b")) (.binary .lt (.global "b") (.global "c"))

/-- The operand of both, with its parentheses. -/
def middle : Expr := .ident "b" ⟨⟨1, 7⟩, ⟨1, 10⟩⟩

/-- The second comparison begins with it. -/
def second : Expr := .binary .lt middle (.ident "c" ⟨⟨2, 3⟩, ⟨2, 4⟩⟩) ⟨⟨1, 7⟩, ⟨2, 4⟩⟩

def tree : Expr :=
  .and (.binary .lt (.ident "a" ⟨⟨1, 1⟩, ⟨1, 4⟩⟩) middle ⟨⟨1, 1⟩, ⟨1, 10⟩⟩) second
    ⟨⟨1, 1⟩, ⟨2, 4⟩⟩

theorem read?_source : Expression.read? source = .ok tree := by decide +kernel

theorem compile?_source : Expression.compile? source = .ok compiled :=
  Expression.compile?_of_read? read?_source

theorem exact_second : Exact source tree second := by
  obtain ⟨e, hread, -, hexact⟩ := node_range_exact compile?_source
  rw [read?_source] at hread
  cases hread
  have hpart : (Step.opened, second) ∈ tree.steps :=
    List.mem_cons_of_mem _ (List.mem_singleton_self _)
  exact hexact second (@Node.part _ _ (.opened, second) .root hpart)

end ChainWitness

end Expr
end Stencil
