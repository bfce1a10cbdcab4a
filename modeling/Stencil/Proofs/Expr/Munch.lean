/-
The tokens of an expression are cut by longest match: whatever the text, they stand in order with
blanks between them, and each is the longest token that can stand where it begins, up to the end or
to a character that no token begins with.
-/
import Stencil.Proofs.Expr.Places

namespace Stencil
namespace Expr

/-- The token is cut out of the source behind `lead`, and its text is `piece`.  Of the tokens that
can stand there it is the longest: any other is shorter. -/
structure Token.Munches (token : Token) (lead piece rest : List Char) : Prop where
  lexeme : token.kind.Lexeme piece
  longest : ∀ kind text, TokenKind.Lexeme kind text → text <+: piece ++ rest →
    text.length < piece.length ∨ kind = token.kind ∧ text = piece
  start : token.start = byteCount lead
  stop : token.stop = byteCount (lead ++ piece)

/-- The character behind `lead` belongs to a token, or it may stand between tokens: a space, a tab
or the end of a line. -/
def Accounted (tokens : List Token) (lead : List Char) (c : Char) : Prop :=
  c ∈ [' ', '\t', '\r', '\n'] ∨
    ∃ t ∈ tokens, t.start ≤ byteCount lead ∧ byteCount (lead ++ [c]) ≤ t.stop

/-- How a source is cut into tokens as far as `front` goes. -/
structure Munch (source front : List Char) (tokens : List Token) : Prop where
  ordered : tokens.Pairwise fun t u => t.stop ≤ u.start
  within : ∀ t ∈ tokens, t.stop ≤ byteCount front
  longest : ∀ t ∈ tokens, ∃ lead piece rest,
    source = lead ++ piece ++ rest ∧ t.Munches lead piece rest
  range : ∀ t ∈ tokens, t.range = ⟨.atByte source t.start, .atByte source t.stop⟩
  accounted : ∀ lead c rest, front = lead ++ c :: rest → Accounted tokens lead c

/-- The end of a source, an empty piece of it. -/
def endToken (source : List Char) : Token :=
  ⟨.eof, byteCount source, byteCount source,
    ⟨.atByte source (byteCount source), .atByte source (byteCount source)⟩⟩

theorem endToken_eq (source : List Char) :
    endToken source = ⟨.eof, byteCount source, byteCount source,
      ⟨Position.after {} source, Position.after {} source⟩⟩ := by
  rw [endToken, Position.after_eq_atByte_end]

/-- What cutting a source comes to: its tokens and its end, or a character at which no token can
begin and in front of which the source is cut into tokens. -/
inductive Munched (source : List Char) : Except ExprError (List Token) → Prop where
  | tokens {tokens : List Token} : Munch source source tokens →
      Munched source (.ok (tokens ++ [endToken source]))
  | stuck {lead rest : List Char} {c : Char} {tokens : List Token} :
      source = lead ++ c :: rest → Munch source lead tokens → c ∉ [' ', '\t', '\r', '\n'] →
        (∀ kind piece, TokenKind.Lexeme kind piece → ¬ piece <+: c :: rest) →
          Munched source (.error (.unexpectedCharacter c (.atByte source (byteCount lead))))

theorem isSpace_iff {c : Char} : isSpace c = true ↔ c ∈ [' ', '\t', '\r', '\n'] := by
  simp [isSpace, or_assoc]

theorem Token.Covers.munches {t : Token} {lead piece rest : List Char}
    (h : t.Covers lead piece rest) : t.Munches lead piece rest := by
  obtain ⟨hlexeme, hlongest⟩ := lexeme?_eq_some_iff.mp h.lexeme
  refine ⟨hlexeme, fun kind text htext hfits => ?_, h.start, h.stop⟩
  rcases (hlongest kind text htext hfits).lt_or_eq with hlt | hlength
  · exact .inl hlt
  · -- two pieces of one length at one place are the same text
    have hsame : text = piece :=
      (List.prefix_of_prefix_length_le hfits (List.prefix_append ..) hlength.le).eq_of_length
        hlength
    exact .inr ⟨(hsame ▸ htext).unique hlexeme, hsame⟩

namespace Munch

variable {source front more piece rest : List Char} {t : Token} {tokens : List Token}

theorem nil (source : List Char) : Munch source [] [] where
  ordered := .nil
  within := nofun
  longest := nofun
  range := nofun
  accounted lead c rest h :=
    absurd h.symm (List.append_ne_nil_of_right_ne_nil lead (List.cons_ne_nil c rest))

/-- A character of two texts in a row is one of the first or one of the second. -/
theorem accounted_append
    (hfront : ∀ lead c rest, front = lead ++ c :: rest → Accounted tokens lead c)
    (hmore : ∀ lead c rest, more = lead ++ c :: rest → Accounted tokens (front ++ lead) c) :
    ∀ lead c rest, front ++ more = lead ++ c :: rest → Accounted tokens lead c := by
  intro lead c rest h
  rcases List.append_eq_append_iff.mp h with ⟨between, rfl, hbehind⟩ | ⟨between, rfl, hbehind⟩
  · exact hmore between c rest hbehind
  · cases between with
    | nil =>
        have hfirst := hmore [] c rest hbehind.symm
        rwa [List.append_nil, List.append_nil] at hfirst
    | cons d between =>
        obtain ⟨rfl, -⟩ := List.cons.inj hbehind
        exact hfront lead c between rfl

theorem blanks (h : Munch source front tokens) (hmore : ∀ c ∈ more, isSpace c = true) :
    Munch source (front ++ more) tokens where
  ordered := h.ordered
  within t ht := by
    rw [byteCount_append]
    exact (h.within t ht).trans (Nat.le_add_right ..)
  longest := h.longest
  range := h.range
  accounted := accounted_append h.accounted fun lead c rest hsplit => by
    have hc : c ∈ more := hsplit ▸ List.mem_append_right _ List.mem_cons_self
    exact .inl (isSpace_iff.mp (hmore c hc))

theorem token (h : Munch source front tokens) (hsource : source = front ++ piece ++ rest)
    (hcovers : t.Covers front piece rest) : Munch source (front ++ piece) (tokens ++ [t]) where
  ordered := by
    refine List.pairwise_append.mpr ⟨h.ordered, List.pairwise_singleton .., fun u hu v hv => ?_⟩
    rw [List.mem_singleton.mp hv, hcovers.start]
    exact h.within u hu
  within u hu := by
    rcases List.mem_append.mp hu with hu | hu
    · rw [byteCount_append]
      exact (h.within u hu).trans (Nat.le_add_right ..)
    · rw [List.mem_singleton.mp hu, hcovers.stop]
  longest u hu := by
    rcases List.mem_append.mp hu with hu | hu
    · exact h.longest u hu
    · rw [List.mem_singleton.mp hu]
      exact ⟨front, piece, rest, hsource, hcovers.munches⟩
  range u hu := by
    rcases List.mem_append.mp hu with hu | hu
    · exact h.range u hu
    · rw [List.mem_singleton.mp hu, hcovers.range, hcovers.start, hcovers.stop, Range.behind,
        hsource, ← Position.after_eq_atByte, List.append_assoc, ← Position.after_eq_atByte]
  accounted := by
    refine accounted_append (fun lead c rest hsplit => ?_) (fun lead c rest' hsplit => .inr ?_)
    · rcases h.accounted lead c rest hsplit with hblank | ⟨u, hu, hspan⟩
      · exact .inl hblank
      · exact .inr ⟨u, List.mem_append_left _ hu, hspan⟩
    · refine ⟨t, List.mem_append_right _ (List.mem_singleton_self t), ?_, ?_⟩
      · rw [hcovers.start, byteCount_append]
        exact Nat.le_add_right ..
      · have hpiece : front ++ piece = front ++ lead ++ [c] ++ rest' := by simp [hsplit]
        rw [hcovers.stop, hpiece, byteCount_append _ rest']
        exact Nat.le_add_right ..

end Munch

/-- What a scan finds behind tokens goes on from them. -/
theorem Scans.munched {source lead text : List Char} {result : Except ExprError (List Token)}
    (h : Scans lead text result) : ∀ seen : List Token, Munch source lead seen →
      source = lead ++ text → Munched source (result.map (seen ++ ·)) := by
  induction h with
  | @eof lead blanks hblanks =>
      rintro seen hseen rfl
      have hend := Munched.tokens (hseen.blanks hblanks)
      rwa [endToken_eq] at hend
  | @stuck lead blanks rest c hblanks hspace hnone =>
      rintro seen hseen rfl
      have hmunch := hseen.blanks hblanks
      rw [← List.append_assoc] at hmunch ⊢
      rw [Position.after_eq_atByte (lead ++ blanks) (c :: rest)]
      refine .stuck rfl hmunch (fun hc => ?_) (lexeme?_eq_none_iff.mp hnone)
      rw [isSpace_iff.mpr hc] at hspace
      cases hspace
  | @token lead blanks piece rest token result hblanks hcovers _ ih =>
      intro seen hseen hsource
      rw [← List.append_assoc, ← List.append_assoc] at hsource
      have hmunch := (hseen.blanks hblanks).token hsource hcovers
      have hrest := ih (seen ++ [token]) hmunch hsource
      cases result with
      | error cause => exact hrest
      | ok tokens =>
          have happend : seen ++ token :: tokens = seen ++ [token] ++ tokens := by simp
          rw [Except.map, Except.map, happend]
          exact hrest

/-- Every source is cut by longest match, and cutting it never misses an end. -/
theorem tokenize_munches (source : List Char) :
    Munched source (tokenize source) ∧ tokenize source ≠ .error .unexpectedEof := by
  have hmunched : Munched source (tokenize source) := by
    have h := (scans_tokenize source).munched [] (.nil source) rfl
    cases hresult : tokenize source with
    | error cause => rwa [hresult] at h
    | ok tokens => rwa [hresult] at h
  refine ⟨hmunched, fun heof => ?_⟩
  rw [heof] at hmunched
  cases hmunched

end Expr
end Stencil
