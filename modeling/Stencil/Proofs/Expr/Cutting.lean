/-
The tokens of a piece of an expression: cut at the ends of its first and its last token, the piece
has the same tokens alone.
-/
import Stencil.Proofs.Expr.Places
import Stencil.Proofs.Text.Words

namespace Stencil

/-- Sets whose ranges are apart share no character. -/
theorem CodeRanges.not_has_of_apart {first second : CodeRanges} {c : Char}
    (hapart : (first.all fun r => second.all fun q => r.2 < q.1 || q.2 < r.1) = true)
    (h : first.has c = true) : second.has c = false := by
  rw [has, List.any_eq_true] at h
  obtain ⟨r, hr, hrange⟩ := h
  rw [has, List.any_eq_false]
  intro q hq hrange'
  have hrow := List.all_eq_true.mp (List.all_eq_true.mp hapart r hr) q hq
  simp only [Bool.and_eq_true, Bool.or_eq_true, decide_eq_true_eq] at hrange hrange' hrow
  omega

namespace Expr

section Blanks

variable {c : Char}

theorem not_isBlank_of_isNamePart (h : isNamePart c = true) : isBlank c = false := by
  have hascii : ∀ n < 0x80, isNamePart (Char.ofNat n) = true →
      isBlank (Char.ofNat n) = false := by decide +kernel
  by_cases hc : c.toNat < 0x80
  · rw [← Char.ofNat_toNat c] at h ⊢
    exact hascii _ hc h
  · simp only [isNamePart, isAlphabetic, isNumeric, hc, ↓reduceIte, Bool.or_eq_true] at h
    rcases h with (halphabetic | hnumeric) | hscore
    · exact CodeRanges.not_has_of_apart (by decide +kernel) halphabetic
    · exact CodeRanges.not_has_of_apart (by decide +kernel) hnumeric
    · rw [of_decide_eq_true hscore] at hc
      exact absurd (by decide) hc

theorem isNamePart_of_isDigit (h : c.isDigit = true) : isNamePart c = true := by
  have hc : c.toNat < 0x80 := by
    rw [Char.isDigit_iff_toNat] at h
    exact Nat.lt_of_le_of_lt h.2 (by decide)
  simp [isNamePart, isNumeric, hc, h]

theorem isNamePart_of_isNameStart (h : isNameStart c = true) : isNamePart c = true := by
  simp only [isNameStart, isNamePart, Bool.or_eq_true] at h ⊢
  rcases h with halphabetic | hscore
  · exact .inl (.inl halphabetic)
  · exact .inr hscore

theorem isBlank_of_isSpace (h : isSpace c = true) : isBlank c = true := by
  simp only [isSpace, Bool.or_eq_true, decide_eq_true_eq] at h
  rcases h with ((rfl | rfl) | rfl) | rfl <;> rfl

end Blanks

/-- A token is read the same where the text behind it ends earlier: fewer tokens fit there. -/
theorem lexeme?_truncate {piece rest more : List Char} {kind : TokenKind}
    (h : lexeme? (piece ++ (rest ++ more)) = some (kind, rest ++ more)) :
    lexeme? (piece ++ rest) = some (kind, rest) := by
  obtain ⟨hlexeme, hlongest⟩ := lexeme?_eq_some_iff.mp h
  refine lexeme?_eq_some_iff.mpr ⟨hlexeme, fun kind' piece' hlexeme' hfits => ?_⟩
  refine hlongest kind' piece' hlexeme' (hfits.trans ?_)
  rw [← List.append_assoc]
  exact List.prefix_append ..

/-- A text that begins and ends with characters that are no blanks. -/
structure Solid (text : List Char) : Prop where
  first : ∃ c more, text = c :: more ∧ isBlank c = false
  last : ∃ more c, text = more ++ [c] ∧ isBlank c = false

namespace Solid

variable {text piece rest more : List Char} {kind : TokenKind}

theorem of_forall (hne : text ≠ []) (h : ∀ c ∈ text, isBlank c = false) : Solid text := by
  constructor
  · obtain ⟨c, more, rfl⟩ := List.exists_cons_of_ne_nil hne
    exact ⟨c, more, rfl, h c List.mem_cons_self⟩
  · refine ⟨_, _, (List.dropLast_concat_getLast hne).symm, h _ (List.getLast_mem hne)⟩

theorem append (h : Solid text) (h' : Solid more) (between : List Char) :
    Solid (text ++ between ++ more) := by
  obtain ⟨c, tail, rfl, hc⟩ := h.first
  obtain ⟨lead, d, rfl, hd⟩ := h'.last
  constructor
  · exact ⟨c, tail ++ between ++ (lead ++ [d]), by simp, hc⟩
  · exact ⟨c :: tail ++ between ++ lead, d, by simp, hd⟩

theorem trim_eq (h : Solid text) : trim text = text := by
  obtain ⟨c, more, rfl, hc⟩ := h.first
  obtain ⟨lead, d, hlast, hd⟩ := h.last
  rw [trim, List.dropWhile_cons, if_neg (by rw [hc]; decide), hlast, List.reverse_append,
    List.reverse_singleton, List.singleton_append, List.dropWhile_cons, if_neg (by rw [hd]; decide),
    List.reverse_cons, List.reverse_reverse]

/-- No token begins or ends with a blank. -/
theorem of_lexeme (h : kind.Lexeme text) : Solid text := by
  have hdigit : ∀ d : Char, d.isDigit = true → isBlank d = false :=
    fun d hd => not_isBlank_of_isNamePart (isNamePart_of_isDigit hd)
  cases h with
  | whole hne hall => exact of_forall hne fun d hd => hdigit d (hall d hd)
  | decimal hne hall _ hplaces =>
      refine of_forall (List.append_ne_nil_of_left_ne_nil hne _) fun d hd => ?_
      rw [List.mem_append, List.mem_cons] at hd
      rcases hd with hd | rfl | hd
      · exact hdigit d (hall d hd)
      · rfl
      · exact hdigit d (hplaces d hd)
  | @string quote content body hquote _ =>
      have hblank : isBlank quote = false := by rcases hquote with rfl | rfl <;> rfl
      exact ⟨⟨quote, body ++ [quote], rfl, hblank⟩, ⟨quote :: body, quote, rfl, hblank⟩⟩
  | @mark m spelling hm =>
      have htable : ∀ spelling ∈ m.spellings,
          spelling.toList ≠ [] ∧ spelling.toList.any isBlank = false := by
        cases m <;> decide +kernel
      obtain ⟨hne, hblank⟩ := htable spelling hm
      exact of_forall hne (by simpa using hblank)
  | ident hword _ =>
      obtain ⟨c, word, rfl, hc, hall⟩ := hword.eq_cons
      refine of_forall (List.cons_ne_nil _ _) fun d hd => not_isBlank_of_isNamePart ?_
      rcases List.mem_cons.mp hd with rfl | hd
      · exact isNamePart_of_isNameStart hc
      · exact hall d hd

theorem of_lexeme? (h : lexeme? (piece ++ rest) = some (kind, rest)) : Solid piece :=
  of_lexeme (lexeme?_eq_some_iff.mp h).1

end Solid

/-- What stands behind `lead` is cut into the tokens, the last of them the end. -/
inductive Lexed : (lead text : List Char) → List Token → Prop where
  | eof {lead blanks : List Char} : (∀ c ∈ blanks, isSpace c = true) →
      Lexed lead blanks [⟨.eof, byteCount (lead ++ blanks), byteCount (lead ++ blanks),
        ⟨Position.after {} (lead ++ blanks), Position.after {} (lead ++ blanks)⟩⟩]
  | token {lead blanks piece rest : List Char} {token : Token} {tokens : List Token} :
      (∀ c ∈ blanks, isSpace c = true) → token.Covers (lead ++ blanks) piece rest →
        Lexed (lead ++ blanks ++ piece) rest tokens →
          Lexed lead (blanks ++ piece ++ rest) (token :: tokens)

theorem Scans.lexed {lead text : List Char} {result : Except ExprError (List Token)}
    (h : Scans lead text result) : ∀ tokens, result = .ok tokens → Lexed lead text tokens := by
  induction h with
  | eof hblanks =>
      rintro tokens ⟨⟩
      exact .eof hblanks
  | stuck => exact nofun
  | @token lead blanks piece rest token result hblanks hcovers _ ih =>
      intro tokens htokens
      cases result with
      | error cause => cases htokens
      | ok more =>
          cases htokens
          exact .token hblanks hcovers (ih more rfl)

theorem span_spaces {blanks rest : List Char} (hblanks : ∀ c ∈ blanks, isSpace c = true)
    (hrest : ∀ c ∈ rest.head?, isSpace c = false) :
    (blanks ++ rest).takeWhile isSpace = blanks ∧ (blanks ++ rest).dropWhile isSpace = rest := by
  rw [List.takeWhile_append_of_pos hblanks, List.dropWhile_append_of_pos hblanks]
  cases rest with
  | nil => exact ⟨List.append_nil blanks, rfl⟩
  | cons c rest =>
      have hc := hrest c rfl
      simp [hc]

theorem scan_of_lexed {lead text : List Char} {tokens : List Token} (h : Lexed lead text tokens) :
    scan (byteCount lead) (Position.after {} lead) text = .ok tokens := by
  induction h with
  | @eof lead blanks hblanks =>
      obtain ⟨htake, hdrop⟩ := @span_spaces _ [] hblanks nofun
      rw [List.append_nil] at htake hdrop
      unfold scan
      dsimp only
      split
      · rw [htake, byteCount_append, Position.after_append]
      · next hdrop' =>
          rw [hdrop] at hdrop'
          cases hdrop'
  | @token lead blanks piece rest token tokens hblanks hcovers _ ih =>
      obtain ⟨c, more, rfl, hc⟩ := (Solid.of_lexeme? hcovers.lexeme).first
      have hspace : isSpace c = false := by
        rw [Bool.eq_false_iff]
        intro hspace
        rw [isBlank_of_isSpace hspace] at hc
        cases hc
      obtain ⟨htake, hdrop⟩ := @span_spaces _ (c :: more ++ rest) hblanks
        (by simpa using hspace)
      obtain ⟨kind, start, stop, range⟩ := token
      obtain ⟨hlexeme, hstart, hstop, hrange⟩ := hcovers
      dsimp only at hlexeme hstart hstop hrange
      rw [List.cons_append] at hlexeme htake hdrop
      have hpiece : (c :: (more ++ rest)).take ((more ++ rest).length + 1 - rest.length)
          = c :: more := by
        rw [List.length_append, Nat.add_right_comm, Nat.add_sub_cancel, ← List.cons_append,
          ← List.length_cons, List.take_left]
      rw [List.append_assoc blanks, List.cons_append]
      unfold scan
      dsimp only
      split
      · next hdrop' =>
          rw [hdrop] at hdrop'
          cases hdrop'
      · next hdrop' =>
          rw [hdrop] at hdrop'
          cases hdrop'
          split
          · next hnone =>
              rw [hlexeme] at hnone
              cases hnone
          · next hsome =>
              rw [hlexeme] at hsome
              cases hsome
              rw [hpiece, htake, ← byteCount_append, ← byteCount_append, ← Position.after_append,
                ← Position.after_append, ih, hstart, hstop, hrange, Range.ofText_eq,
                ← Position.after_append]
              rfl

/-- The tokens of a text are the ones that it is cut into. -/
theorem tokenize_eq_ok_iff {text : List Char} {tokens : List Token} :
    tokenize text = .ok tokens ↔ Lexed [] text tokens :=
  ⟨(scans_tokenize text).lexed tokens, scan_of_lexed⟩

namespace Lexed

variable {lead text : List Char} {tokens before taken after : List Token}

theorem ends (h : Lexed lead text tokens) : ∃ t ∈ tokens, t.isEof = true := by
  induction h with
  | eof => exact ⟨_, List.mem_singleton_self _, rfl⟩
  | token _ _ _ ih =>
      obtain ⟨t, ht, heof⟩ := ih
      exact ⟨t, List.mem_cons_of_mem _ ht, heof⟩

theorem front {t : Token} (h : Lexed lead text (t :: tokens)) (hmore : tokens ≠ []) :
    ∃ blanks piece rest, text = blanks ++ piece ++ rest ∧ (∀ c ∈ blanks, isSpace c = true) ∧
      t.Covers (lead ++ blanks) piece rest ∧ Lexed (lead ++ blanks ++ piece) rest tokens := by
  cases h with
  | eof => exact absurd rfl hmore
  | token hblanks hcovers hrest => exact ⟨_, _, _, rfl, hblanks, hcovers, hrest⟩

theorem skip (h : Lexed lead text (before ++ after)) (hafter : after ≠ []) :
    ∃ passed rest, text = passed ++ rest ∧ Lexed (lead ++ passed) rest after := by
  induction before generalizing lead text with
  | nil => exact ⟨[], text, rfl, by rwa [List.append_nil]⟩
  | cons t before ih =>
      obtain ⟨blanks, piece, rest, rfl, -, -, hrest⟩ :=
        h.front (List.append_ne_nil_of_right_ne_nil _ hafter)
      obtain ⟨passed, rest, rfl, hafter'⟩ := ih hrest
      refine ⟨blanks ++ piece ++ passed, rest, (List.append_assoc ..).symm, ?_⟩
      rwa [List.append_assoc lead, List.append_assoc lead] at hafter'

end Lexed

/-- A change of the places of tokens. -/
structure Move where
  place : Position → Position
  byte : Nat → Nat

namespace Move

def range (m : Move) (r : Range) : Range := ⟨m.place r.start, m.place r.stop⟩

def token (m : Move) (t : Token) : Token :=
  ⟨t.kind, m.byte t.start, m.byte t.stop, m.range t.range⟩

/-- From the start of a text to behind `lead`. -/
def behind (lead : List Char) : Move :=
  ⟨fun p => p.offsetBy (Position.after {} lead), fun n => byteCount lead + n⟩

/-- From behind `lead` to the start of a text. -/
def back (lead : List Char) : Move :=
  ⟨fun p => p.relativeTo (Position.after {} lead), fun n => n - byteCount lead⟩

theorem kinds_map (m : Move) (tokens : List Token) :
    (tokens.map m.token).map (·.kind) = tokens.map (·.kind) := List.map_map ..

theorem behind_behind (lead more : List Char) (t : Token) :
    (behind lead).token ((behind more).token t) = (behind (lead ++ more)).token t := by
  simp only [token, range, behind, byteCount_append, Nat.add_assoc,
    Position.offsetBy_offsetBy _ (Position.proper_default.after more),
    Position.after_offsetBy_after]

theorem behind_append (lead more : List Char) (tokens : List Token) :
    (tokens.map (behind more).token).map (behind lead).token =
      tokens.map (behind (lead ++ more)).token := by
  rw [List.map_map]
  exact List.map_congr_left fun t _ => behind_behind lead more t

variable {t : Token}

theorem back_behind (lead : List Char) (hstart : t.range.start.Proper)
    (hstop : t.range.stop.Proper) : (back lead).token ((behind lead).token t) = t := by
  simp only [token, range, back, behind, Nat.add_sub_cancel_left,
    Position.offsetBy_relativeTo hstart, Position.offsetBy_relativeTo hstop]

end Move

namespace Token.Covers

variable {t : Token} {lead front piece rest more : List Char}

theorem behind (h : t.Covers front piece rest) (lead : List Char) :
    ((Move.behind lead).token t).Covers (lead ++ front) piece rest := by
  obtain ⟨hlexeme, hstart, hstop, hrange⟩ := h
  constructor
  · exact hlexeme
  · rw [byteCount_append, ← hstart]
    rfl
  · rw [List.append_assoc, byteCount_append, ← hstop]
    rfl
  · rw [← Range.behind_offsetBy, ← hrange]
    rfl

/-- A token is found again at the start of a text, where its own text goes on for less long. -/
theorem alone (h : t.Covers lead piece (rest ++ more)) :
    ∃ t' : Token, t'.Covers [] piece rest ∧ t = (Move.behind lead).token t' := by
  have halone : Token.Covers ⟨t.kind, 0, byteCount piece, Range.behind [] piece⟩ [] piece rest :=
    ⟨lexeme?_truncate h.lexeme, rfl, rfl, rfl⟩
  obtain ⟨-, hstart, hstop, hrange⟩ := halone.behind lead
  rw [List.append_nil] at hstart hstop hrange
  refine ⟨_, halone, ?_⟩
  obtain ⟨kind, start, stop, range⟩ := t
  exact Token.mk.injEq .. ▸ ⟨rfl, h.start.trans hstart.symm, h.stop.trans hstop.symm,
    h.range.trans hrange.symm⟩

end Token.Covers

/-- The text `piece`, which stands behind `lead`, goes from the start of the first token to the end
of the last, and alone it is cut into the same tokens. -/
structure Piece (lead piece : List Char) (tokens : List Token) : Prop where
  solid : Solid piece
  start : ∃ t, tokens.head? = some t ∧ t.start = byteCount lead ∧
    t.range.start = Position.after {} lead
  stop : ∃ t, tokens.getLast? = some t ∧ t.stop = byteCount (lead ++ piece) ∧
    t.range.stop = Position.after {} (lead ++ piece)
  alone : ∃ ts eof, Lexed [] piece (ts ++ [eof]) ∧ eof.isEof = true ∧
    tokens = ts.map (Move.behind lead).token

namespace Lexed

variable {lead text : List Char} {t : Token} {taken after : List Token}

theorem blanks {blanks : List Char} (h : Lexed (lead ++ blanks) text taken)
    (hblanks : ∀ c ∈ blanks, isSpace c = true) : Lexed lead (blanks ++ text) taken := by
  cases h with
  | eof hmore =>
      rw [List.append_assoc]
      exact .eof (List.forall_mem_append.mpr ⟨hblanks, hmore⟩)
  | token hmore hcovers hrest =>
      rw [List.append_assoc lead] at hcovers hrest
      rw [← List.append_assoc, ← List.append_assoc]
      exact .token (List.forall_mem_append.mpr ⟨hblanks, hmore⟩) hcovers hrest

/-- Behind more text the same tokens stand further on. -/
theorem behind {front : List Char} (h : Lexed front text taken) (lead : List Char) :
    Lexed (lead ++ front) text (taken.map (Move.behind lead).token) := by
  induction h with
  | @eof front blanks hblanks =>
      have heof := @Lexed.eof (lead ++ front) blanks hblanks
      rw [List.append_assoc, byteCount_append, ← Position.after_offsetBy_after] at heof
      exact heof
  | @token front blanks piece rest t tokens hblanks hcovers _ ih =>
      have hcovers' := hcovers.behind lead
      rw [← List.append_assoc] at hcovers'
      rw [← List.append_assoc, ← List.append_assoc lead] at ih
      exact .token hblanks hcovers' ih

/-- The induction is on the tokens behind the first: they are a piece that the blanks before it
join to the first token. -/
theorem piece (h : Lexed lead text (t :: taken ++ after)) (hafter : after ≠ []) :
    ∃ blanks piece rest, text = blanks ++ piece ++ rest ∧ (∀ c ∈ blanks, isSpace c = true) ∧
      Piece (lead ++ blanks) piece (t :: taken) ∧ Lexed (lead ++ blanks ++ piece) rest after := by
  induction taken generalizing lead text t with
  | nil =>
      obtain ⟨blanks, piece, rest, rfl, hblanks, hcovers, hrest⟩ := h.front hafter
      refine ⟨blanks, piece, rest, rfl, hblanks, ⟨?_, ?_, ?_, ?_⟩, hrest⟩
      · exact Solid.of_lexeme? hcovers.lexeme
      · exact ⟨t, rfl, hcovers.start, hcovers.range ▸ rfl⟩
      · exact ⟨t, rfl, hcovers.stop, hcovers.range ▸ rfl⟩
      · have hpiece : t.Covers (lead ++ blanks) piece ([] ++ rest) := hcovers
        obtain ⟨t', ht', rfl⟩ := hpiece.alone
        have heof := @Lexed.eof piece [] (List.forall_mem_nil _)
        have halone := @Lexed.token [] [] piece [] t' _ (List.forall_mem_nil _) ht' heof
        rw [List.append_nil] at halone
        exact ⟨[t'], _, halone, rfl, rfl⟩
  | cons u taken ih =>
      obtain ⟨blanks, first, rest, rfl, hblanks, hcovers, hrest⟩ :=
        h.front (List.append_ne_nil_of_right_ne_nil _ hafter)
      obtain ⟨between, last, rest', rfl, hbetween, hpiece, hafter'⟩ := ih hrest
      have hfirst := Solid.of_lexeme? hcovers.lexeme
      refine ⟨blanks, first ++ between ++ last, rest', by simp, hblanks, ⟨?_, ?_, ?_, ?_⟩, ?_⟩
      · exact hfirst.append hpiece.solid between
      · exact ⟨t, rfl, hcovers.start, hcovers.range ▸ rfl⟩
      · obtain ⟨v, hv, hstop⟩ := hpiece.stop
        exact ⟨v, by rwa [List.getLast?_cons_cons], by simpa using hstop⟩
      · obtain ⟨ts, eof, halone, heof, htaken⟩ := hpiece.alone
        obtain ⟨t', ht', rfl⟩ := hcovers.alone
        have hmore := halone.behind (first ++ between)
        rw [List.append_nil, List.map_append] at hmore
        have hwhole := @Lexed.token [] [] first (between ++ last) t' _ (List.forall_mem_nil _) ht'
          (hmore.blanks hbetween)
        refine ⟨t' :: ts.map (Move.behind (first ++ between)).token,
          (Move.behind (first ++ between)).token eof, ?_, heof, ?_⟩
        · rw [List.append_assoc]
          exact hwhole
        · rw [htaken, List.map_cons, Move.behind_append]
          simp only [List.append_assoc]
      · simpa using hafter'

end Lexed

end Expr
end Stencil
