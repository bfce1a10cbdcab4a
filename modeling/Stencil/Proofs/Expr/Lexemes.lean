/-
The texts of tokens by their classes: numbers, strings, names and keywords, operators and
punctuation.  The token at the front of a text is the longest that any class has there.
-/
import Stencil.Proofs.Expr.Strings
import Stencil.Proofs.Text.Words

namespace Stencil
namespace Expr

/-- The ways of writing a mark.  The constants have a second one. -/
def Mark.spellings : Mark → List String
  | .trueWord => ["True", "true"]
  | .falseWord => ["False", "false"]
  | .noneWord => ["None", "none"]
  | m => [m.text]

/-- A text with the form of a name; keywords have it too. -/
def IsWord : List Char → Prop
  | [] => False
  | c :: rest => isNameStart c = true ∧ ∀ d ∈ rest, isNamePart d = true

/-- The texts that a token can have. -/
inductive TokenKind.Lexeme : TokenKind → List Char → Prop where
  | whole {digits : List Char} : digits ≠ [] → (∀ d ∈ digits, d.isDigit = true) →
      Lexeme (.number (.ofDigits digits [])) digits
  | decimal {digits places : List Char} : digits ≠ [] → (∀ d ∈ digits, d.isDigit = true) →
      places ≠ [] → (∀ d ∈ places, d.isDigit = true) →
        Lexeme (.number (.ofDigits digits places)) (digits ++ '.' :: places)
  | string {quote : Char} {content body : List Char} : IsQuote quote →
      Inscribed quote content body →
        Lexeme (.string (String.ofList content)) (quote :: (body ++ [quote]))
  | mark {m : Mark} {spelling : String} : spelling ∈ m.spellings →
      Lexeme (.mark m) spelling.toList
  | ident {text : List Char} : IsWord text → (∀ m : Mark, String.ofList text ∉ m.spellings) →
      Lexeme (.ident (String.ofList text)) text

/-- The first character tells what class of token there can be. -/
theorem lexeme?_cons (c : Char) (text : List Char) :
    lexeme? (c :: text) =
      if c.isDigit then number? (c :: text)
      else if c = '"' ∨ c = '\'' then string? (c :: text)
      else if isNameStart c then word? (c :: text)
      else symbol? (c :: text) := by
  unfold lexeme?
  by_cases hdigit : c.isDigit = true
  · simp [number?, hdigit]
  by_cases hquote : c = '"' ∨ c = '\''
  · have hword : word? (c :: text) = none := by
      rcases hquote with rfl | rfl
      · rw [word?, if_neg (by decide +kernel)]
      · rw [word?, if_neg (by decide +kernel)]
    have hsymbol : symbol? (c :: text) = none := by
      rcases hquote with rfl | rfl <;> rfl
    simp [number?, hdigit, hquote, hword, hsymbol]
  by_cases hstart : isNameStart c = true
  · simp [number?, string?, word?, hdigit, hquote, hstart]
  · simp [number?, string?, word?, hdigit, hquote, hstart]

/-- Reading a text takes `piece` at least, and if it takes no more then as a token of the kind. -/
def TakesAtLeast (read : List Char → Option (TokenKind × List Char)) (kind : TokenKind)
    (piece more : List Char) : Prop :=
  ∃ kind' rest, read (piece ++ more) = some (kind', rest) ∧ rest <:+ more ∧
    (rest = more → kind' = kind)

section Spans

variable {p : Char → Bool} {text more : List Char}

theorem takeWhile_of_dropWhile_eq_self (h : text.dropWhile p = text) : text.takeWhile p = [] := by
  have hsplit := List.takeWhile_append_dropWhile (p := p) (l := text)
  rw [h] at hsplit
  exact List.append_left_eq_self.mp hsplit

theorem dropWhile_eq_self_of_suffix (h : text <:+ more.dropWhile p) (hlength : text = more) :
    more.dropWhile p = more := by
  subst hlength
  exact (List.dropWhile_suffix p).eq_of_length_le h.length_le

end Spans

section Numbers

variable {c d : Char} {text digits places more piece rest : List Char} {kind : TokenKind}

theorem fraction_point (hd : d.isDigit = true) (text : List Char) :
    fraction ('.' :: d :: text) =
      (d :: text.takeWhile Char.isDigit, text.dropWhile Char.isDigit) := by
  rw [fraction, if_pos hd]

theorem fraction_cases (text : List Char) : fraction text = ([], text) ∨
    ∃ d more, text = '.' :: d :: more ∧ d.isDigit = true := by
  unfold fraction
  split
  · next d more =>
      by_cases hd : d.isDigit = true
      · exact .inr ⟨d, more, rfl, hd⟩
      · rw [if_neg hd]
        exact .inl rfl
  · exact .inl rfl

theorem fraction_suffix (text : List Char) : (fraction text).2 <:+ text := by
  rcases fraction_cases text with hself | ⟨d, more, rfl, hd⟩
  · exact ⟨[], congrArg Prod.snd hself⟩
  · rw [fraction_point hd]
    exact (List.dropWhile_suffix _).trans
      ((List.suffix_cons d more).trans (List.suffix_cons '.' _))

/-- A point with digits behind it does not stay. -/
theorem fraction_of_eq_self (h : (fraction text).2 = text) : (fraction text).1 = [] := by
  rcases fraction_cases text with hself | ⟨d, more, rfl, hd⟩
  · rw [hself]
  · have hlength := (List.dropWhile_suffix Char.isDigit (l := more)).length_le
    rw [fraction_point hd] at h
    have hdrop : more.dropWhile Char.isDigit = '.' :: d :: more := h
    rw [hdrop, List.length_cons, List.length_cons] at hlength
    omega

theorem number?_cons (hc : c.isDigit = true) (text : List Char) :
    number? (c :: text) =
      some (.number (.ofDigits (c :: text.takeWhile Char.isDigit)
        (fraction (text.dropWhile Char.isDigit)).1),
          (fraction (text.dropWhile Char.isDigit)).2) := by
  rw [number?, if_pos hc]

theorem takesAtLeast_whole (hc : c.isDigit = true) (hall : ∀ d ∈ digits, d.isDigit = true)
    (more : List Char) :
    TakesAtLeast number? (.number (.ofDigits (c :: digits) [])) (c :: digits) more := by
  refine ⟨_, _, number?_cons hc (digits ++ more), ?_⟩
  rw [List.takeWhile_append_of_pos hall, List.dropWhile_append_of_pos hall]
  refine ⟨(fraction_suffix _).trans (List.dropWhile_suffix _), fun hrest => ?_⟩
  have hdrop := dropWhile_eq_self_of_suffix (fraction_suffix _) hrest
  rw [hdrop] at hrest ⊢
  rw [takeWhile_of_dropWhile_eq_self hdrop, fraction_of_eq_self hrest, List.append_nil]

theorem takesAtLeast_decimal (hc : c.isDigit = true) (hall : ∀ d ∈ digits, d.isDigit = true)
    (hd : d.isDigit = true) (hplaces : ∀ d ∈ places, d.isDigit = true) (more : List Char) :
    TakesAtLeast number? (.number (.ofDigits (c :: digits) (d :: places)))
      (c :: digits ++ '.' :: d :: places) more := by
  have hpoint : ('.' :: d :: (places ++ more)).takeWhile Char.isDigit = [] ∧
      ('.' :: d :: (places ++ more)).dropWhile Char.isDigit = '.' :: d :: (places ++ more) :=
    ⟨rfl, rfl⟩
  have hread : number? (c :: digits ++ '.' :: d :: places ++ more) =
      some (.number (.ofDigits (c :: digits) (d :: (places ++ more.takeWhile Char.isDigit))),
        more.dropWhile Char.isDigit) := by
    rw [List.append_assoc, List.cons_append, number?_cons hc, List.cons_append, List.cons_append,
      List.takeWhile_append_of_pos hall, List.dropWhile_append_of_pos hall, hpoint.1, hpoint.2,
      fraction_point hd, List.takeWhile_append_of_pos hplaces,
      List.dropWhile_append_of_pos hplaces, List.append_nil]
  refine ⟨_, _, hread, List.dropWhile_suffix _, fun hrest => ?_⟩
  rw [takeWhile_of_dropWhile_eq_self hrest, List.append_nil]

/-- A number is digits, and more digits if a point stands between them. -/
theorem lexeme_of_number? (h : number? text = some (kind, rest)) :
    ∃ piece, text = piece ++ rest ∧ kind.Lexeme piece := by
  cases text with
  | nil => cases h
  | cons c text =>
      by_cases hc : c.isDigit = true
      · rw [number?_cons hc] at h
        obtain ⟨rfl, rfl⟩ := Prod.mk.injEq .. ▸ Option.some.inj h
        have hdigits : ∀ d ∈ c :: text.takeWhile Char.isDigit, d.isDigit = true :=
          List.forall_mem_cons.mpr ⟨hc, List.all_eq_true.mp List.all_takeWhile⟩
        have hsplit : text.takeWhile Char.isDigit ++ text.dropWhile Char.isDigit = text :=
          List.takeWhile_append_dropWhile
        rcases fraction_cases (text.dropWhile Char.isDigit) with hself | ⟨d, more, hdrop, hd⟩
        · rw [hself]
          refine ⟨c :: text.takeWhile Char.isDigit, ?_, .whole (List.cons_ne_nil _ _) hdigits⟩
          rw [List.cons_append, hsplit]
        · rw [hdrop, fraction_point hd]
          have hplaces : ∀ p ∈ d :: more.takeWhile Char.isDigit, p.isDigit = true :=
            List.forall_mem_cons.mpr ⟨hd, List.all_eq_true.mp List.all_takeWhile⟩
          refine ⟨_, ?_, .decimal (List.cons_ne_nil _ _) hdigits (List.cons_ne_nil _ _) hplaces⟩
          rw [List.append_assoc, List.cons_append, List.cons_append, List.cons_append,
            List.takeWhile_append_dropWhile, ← hdrop, hsplit]
      · rw [number?, if_neg hc] at h
        cases h

end Numbers

section Words

variable {c : Char} {text more rest : List Char} {kind : TokenKind} {m : Mark} {word : String}

instance : DecidablePred IsWord
  | [] => .isFalse id
  | c :: rest => decidable_of_iff (isNameStart c = true ∧ rest.all isNamePart = true)
      (and_congr_right fun _ => List.all_eq_true)

theorem IsWord.eq_cons (h : IsWord text) : ∃ c rest, text = c :: rest ∧ isNameStart c = true ∧
    ∀ d ∈ rest, isNamePart d = true := by
  cases text with
  | nil => exact absurd h id
  | cons c rest => exact ⟨c, rest, rfl, h⟩

/-- A spelling is a keyword, or it is made of signs. -/
theorem word_or_symbol (h : word ∈ m.spellings) :
    IsWord word.toList ∧ Mark.ofWord? word = some m ∨ m ∈ Mark.symbols ∧ word = m.text := by
  have htable : ∀ word ∈ m.spellings,
      IsWord word.toList ∧ Mark.ofWord? word = some m ∨ m ∈ Mark.symbols ∧ word = m.text := by
    cases m <;> decide +kernel
  exact htable word h

theorem mem_spellings_of_ofWord? (h : Mark.ofWord? word = some m) : word ∈ m.spellings := by
  unfold Mark.ofWord? at h
  split at h <;> cases h <;> decide

/-- No sign looks like another class of token. -/
theorem symbol_chars (hm : m ∈ Mark.symbols) : ∀ c ∈ m.text.toList,
    c.isDigit = false ∧ ¬ (c = '"' ∨ c = '\'') ∧ isNameStart c = false := by
  have htable : ∀ m ∈ Mark.symbols, m.text.toList.all (fun c =>
      c.isDigit = false ∧ ¬ (c = '"' ∨ c = '\'') ∧ isNameStart c = false) = true := by
    decide +kernel
  exact fun c hc => of_decide_eq_true (List.all_eq_true.mp (htable m hm) c hc)

theorem symbol_ne_nil (hm : m ∈ Mark.symbols) : m.text.toList ≠ [] := by
  have htable : ∀ m ∈ Mark.symbols, m.text.toList ≠ [] := by decide +kernel
  exact htable m hm

/-- The token of a whole word. -/
def wordKind (text : List Char) : TokenKind :=
  match Mark.ofWord? (String.ofList text) with
  | some m => .mark m
  | none => .ident (String.ofList text)

theorem wordKind_of_ofWord? (h : Mark.ofWord? word = some m) :
    wordKind word.toList = .mark m := by
  rw [wordKind, String.ofList_toList, h]

theorem wordKind_of_not_mem (h : ∀ m : Mark, String.ofList text ∉ m.spellings) :
    wordKind text = .ident (String.ofList text) := by
  unfold wordKind
  split
  · next m hm => exact absurd (mem_spellings_of_ofWord? hm) (h m)
  · rfl

theorem lexeme_wordKind (h : IsWord text) : (wordKind text).Lexeme text := by
  unfold wordKind
  split
  · next m hm =>
      have hmark := TokenKind.Lexeme.mark (mem_spellings_of_ofWord? hm)
      rwa [String.toList_ofList] at hmark
  · next hnone =>
      refine .ident h fun m hm => ?_
      rcases word_or_symbol hm with ⟨-, hsome⟩ | ⟨hsymbol, htext⟩
      · cases hsome.symm.trans hnone
      · obtain ⟨c, rest, rfl, hstart, -⟩ := h.eq_cons
        have hc : c ∈ m.text.toList := by
          rw [← htext, String.toList_ofList]
          exact List.mem_cons_self
        rw [(symbol_chars hsymbol c hc).2.2] at hstart
        cases hstart

theorem word?_cons (hc : isNameStart c = true) (text : List Char) :
    word? (c :: text) =
      some (wordKind (c :: text.takeWhile isNamePart), text.dropWhile isNamePart) := by
  rw [word?, if_pos hc]
  rfl

theorem takesAtLeast_word (h : IsWord text) (more : List Char) :
    TakesAtLeast word? (wordKind text) text more := by
  obtain ⟨c, text, rfl, hc, hall⟩ := h.eq_cons
  refine ⟨_, _, word?_cons hc (text ++ more), ?_⟩
  rw [List.takeWhile_append_of_pos hall, List.dropWhile_append_of_pos hall]
  refine ⟨List.dropWhile_suffix _, fun hrest => ?_⟩
  rw [takeWhile_of_dropWhile_eq_self hrest, List.append_nil]

theorem lexeme_of_word? (h : word? text = some (kind, rest)) :
    ∃ piece, text = piece ++ rest ∧ kind.Lexeme piece := by
  cases text with
  | nil => cases h
  | cons c text =>
      by_cases hc : isNameStart c = true
      · rw [word?_cons hc] at h
        obtain ⟨rfl, rfl⟩ := Prod.mk.injEq .. ▸ Option.some.inj h
        have hword : IsWord (c :: text.takeWhile isNamePart) :=
          ⟨hc, List.all_eq_true.mp List.all_takeWhile⟩
        refine ⟨_, ?_, lexeme_wordKind hword⟩
        rw [List.cons_append, List.takeWhile_append_dropWhile]
      · rw [word?, if_neg hc] at h
        cases h

end Words

section Symbols

variable {text rest : List Char} {kind : TokenKind} {m : Mark}

/-- Two signs come before one. -/
theorem symbols_sorted :
    Mark.symbols.Pairwise fun m later => later.text.toList.length ≤ m.text.toList.length := by
  decide +kernel

theorem symbol_ext {m' : Mark} (hm : m ∈ Mark.symbols) (hm' : m' ∈ Mark.symbols)
    (htext : m.text = m'.text) : m = m' := by
  have htable : ∀ m ∈ Mark.symbols, ∀ m' ∈ Mark.symbols, m.text = m'.text → m = m' := by
    decide +kernel
  exact htable m hm m' hm' htext

/-- The marks that are tried before one are not shorter, so that the first that fits is the
longest. -/
theorem takesAtLeast_symbol (hm : m ∈ Mark.symbols) (more : List Char) :
    TakesAtLeast symbol? (.mark m) m.text.toList more := by
  have hself : (stripWord m.text.toList (m.text.toList ++ more)).map (TokenKind.mark m, ·) =
      some (.mark m, more) := by rw [stripWord_append]; rfl
  cases hread : symbol? (m.text.toList ++ more) with
  | none =>
      rw [symbol?, List.findSome?_eq_none_iff] at hread
      cases hself.symm.trans (hread m hm)
  | some found =>
      obtain ⟨kind', rest⟩ := found
      obtain ⟨earlier, m', later, hsymbols, hfound, hnone⟩ := List.findSome?_eq_some_iff.mp hread
      obtain ⟨tail, hstrip, hpair⟩ := Option.map_eq_some_iff.mp hfound
      obtain ⟨rfl, rfl⟩ := Prod.mk.injEq .. ▸ hpair
      have htext := eq_append_of_stripWord hstrip
      have hle : m.text.toList.length ≤ m'.text.toList.length := by
        have hsorted := symbols_sorted
        rw [hsymbols, List.pairwise_append, List.pairwise_cons] at hsorted
        rw [hsymbols] at hm
        rcases List.mem_append.mp hm with hearlier | hlater
        · cases hself.symm.trans (hnone m hearlier)
        · rcases List.mem_cons.mp hlater with rfl | hlater
          · exact Nat.le_refl _
          · exact hsorted.2.1.1 m hlater
      have hlength := congrArg List.length htext
      rw [List.length_append, List.length_append] at hlength
      refine ⟨_, _, hread, ?_, ?_⟩
      · have htail : tail <:+ m.text.toList ++ more := by
          rw [htext]
          exact List.suffix_append ..
        exact List.suffix_of_suffix_length_le htail (List.suffix_append ..) (by omega)
      · rintro rfl
        have hspelling := List.append_cancel_right htext
        have hm' : m' ∈ Mark.symbols := hsymbols ▸ List.mem_append_right _ List.mem_cons_self
        rw [symbol_ext hm hm' (String.toList_inj.mp hspelling)]

theorem lexeme_of_symbol? (h : symbol? text = some (kind, rest)) :
    ∃ piece, text = piece ++ rest ∧ kind.Lexeme piece := by
  obtain ⟨m, hm, hfound⟩ := List.exists_of_findSome?_eq_some h
  obtain ⟨tail, hstrip, hpair⟩ := Option.map_eq_some_iff.mp hfound
  obtain ⟨rfl, rfl⟩ := Prod.mk.injEq .. ▸ hpair
  have hspelling : ∀ m ∈ Mark.symbols, m.text ∈ m.spellings := by decide +kernel
  exact ⟨_, eq_append_of_stripWord hstrip, .mark (hspelling m hm)⟩

end Symbols

section Longest

variable {text piece more rest : List Char} {kind kind' : TokenKind}

theorem TakesAtLeast.congr {read read' : List Char → Option (TokenKind × List Char)}
    (h : TakesAtLeast read kind piece more) (hread : read' (piece ++ more) = read (piece ++ more)) :
    TakesAtLeast read' kind piece more := by
  obtain ⟨kind', rest, hsome, hrest⟩ := h
  exact ⟨kind', rest, hread.trans hsome, hrest⟩

theorem not_isDigit_of_isNameStart {c : Char} (h : isNameStart c = true) :
    c.isDigit = false ∧ ¬ (c = '"' ∨ c = '\'') := by
  have htable : ∀ n < 0x80, isNameStart (Char.ofNat n) = true →
      (Char.ofNat n).isDigit = false ∧ ¬ (Char.ofNat n = '"' ∨ Char.ofNat n = '\'') := by
    decide +kernel
  by_cases hascii : c.toNat < 0x80
  · rw [← Char.ofNat_toNat c] at h ⊢
    exact htable _ hascii h
  · constructor
    · rw [Bool.eq_false_iff, ne_eq, Char.isDigit_iff_toNat]
      exact fun hdigit => hascii (Nat.lt_of_le_of_lt hdigit.2 (by decide))
    · rintro (rfl | rfl) <;> exact hascii (by decide)

theorem takesAtLeast_of_isWord (h : IsWord piece) (more : List Char) :
    TakesAtLeast lexeme? (wordKind piece) piece more := by
  refine (takesAtLeast_word h more).congr ?_
  obtain ⟨c, piece, rfl, hc, -⟩ := h.eq_cons
  obtain ⟨hdigit, hquote⟩ := not_isDigit_of_isNameStart hc
  rw [List.cons_append, lexeme?_cons, if_neg (Bool.eq_false_iff.mp hdigit), if_neg hquote,
    if_pos hc]

theorem lexeme?_of_quote {quote : Char} (h : IsQuote quote) (text : List Char) :
    lexeme? (quote :: text) = string? (quote :: text) := by
  have hdigit : quote.isDigit = false := by rcases h with rfl | rfl <;> rfl
  have hquote : quote = '"' ∨ quote = '\'' := h
  rw [lexeme?_cons, if_neg (Bool.eq_false_iff.mp hdigit), if_pos hquote]

/-- Wherever a token can stand, reading takes its text at least. -/
theorem TokenKind.Lexeme.takesAtLeast (h : kind.Lexeme piece) (more : List Char) :
    TakesAtLeast lexeme? kind piece more := by
  cases h with
  | whole hne hall =>
      obtain ⟨c, digits, rfl⟩ := List.exists_cons_of_ne_nil hne
      obtain ⟨hc, hdigits⟩ := List.forall_mem_cons.mp hall
      refine (takesAtLeast_whole hc hdigits more).congr ?_
      rw [List.cons_append, lexeme?_cons, if_pos hc]
  | decimal hne hall hplaces hallPlaces =>
      obtain ⟨c, digits, rfl⟩ := List.exists_cons_of_ne_nil hne
      obtain ⟨d, places, rfl⟩ := List.exists_cons_of_ne_nil hplaces
      obtain ⟨hc, hdigits⟩ := List.forall_mem_cons.mp hall
      obtain ⟨hd, hrest⟩ := List.forall_mem_cons.mp hallPlaces
      refine (takesAtLeast_decimal hc hdigits hd hrest more).congr ?_
      rw [List.cons_append, List.cons_append, lexeme?_cons, if_pos hc]
  | @string quote content body hquote hinscribed =>
      refine ⟨_, more, ?_, List.suffix_rfl, fun _ => rfl⟩
      rw [List.cons_append, List.append_assoc, List.singleton_append, lexeme?_of_quote hquote,
        string?_inscribed hquote hinscribed]
  | @mark m spelling hm =>
      rcases word_or_symbol hm with ⟨hword, hofWord⟩ | ⟨hsymbol, rfl⟩
      · rw [← wordKind_of_ofWord? hofWord]
        exact takesAtLeast_of_isWord hword more
      · refine (takesAtLeast_symbol hsymbol more).congr ?_
        obtain ⟨c, rest, htext⟩ := List.exists_cons_of_ne_nil (symbol_ne_nil hsymbol)
        obtain ⟨hdigit, hquote, hstart⟩ :=
          symbol_chars hsymbol c (htext ▸ List.mem_cons_self)
        rw [htext, List.cons_append, lexeme?_cons, if_neg (Bool.eq_false_iff.mp hdigit),
          if_neg hquote, if_neg (Bool.eq_false_iff.mp hstart)]
  | ident hword hnone =>
      rw [← wordKind_of_not_mem hnone]
      exact takesAtLeast_of_isWord hword more

theorem lexeme_of_lexeme? (h : lexeme? text = some (kind, rest)) :
    ∃ piece, text = piece ++ rest ∧ kind.Lexeme piece := by
  simp only [lexeme?, Option.orElse_eq_orElse, Option.orElse_eq_or, Option.or_eq_some_iff] at h
  rcases h with h | ⟨-, h | ⟨-, h | ⟨-, h⟩⟩⟩
  · exact lexeme_of_number? h
  · obtain ⟨quote, content, body, hquote, hinscribed, rfl, rfl⟩ := string?_eq_some_iff.mp h
    exact ⟨_, by simp, .string hquote hinscribed⟩
  · exact lexeme_of_word? h
  · exact lexeme_of_symbol? h

/-- No text is the end. -/
theorem ne_eof_of_lexeme? (h : lexeme? text = some (kind, rest)) : kind ≠ .eof := by
  obtain ⟨piece, -, hlexeme⟩ := lexeme_of_lexeme? h
  rintro rfl
  cases hlexeme

/-- The token at the front of a text is the longest that any class has there. -/
theorem lexeme?_eq_some_iff :
    lexeme? (piece ++ rest) = some (kind, rest) ↔ kind.Lexeme piece ∧
      ∀ kind' piece', TokenKind.Lexeme kind' piece' → piece' <+: piece ++ rest →
        piece'.length ≤ piece.length := by
  constructor
  · intro h
    obtain ⟨piece₁, htext, hlexeme⟩ := lexeme_of_lexeme? h
    obtain rfl := List.append_cancel_right htext
    refine ⟨hlexeme, fun kind' piece' hlexeme' hfits => ?_⟩
    obtain ⟨more, hmore⟩ := hfits
    obtain ⟨kind₁, rest₁, hread, hsuffix, -⟩ := hlexeme'.takesAtLeast more
    rw [hmore, h] at hread
    cases hread
    have hle := hsuffix.length_le
    have hlength := congrArg List.length hmore
    rw [List.length_append, List.length_append] at hlength
    omega
  · rintro ⟨hlexeme, hlongest⟩
    obtain ⟨kind', rest', hread, hsuffix, hkind⟩ := hlexeme.takesAtLeast rest
    obtain ⟨piece', htext, hlexeme'⟩ := lexeme_of_lexeme? hread
    have hle := hlongest _ _ hlexeme' ⟨rest', htext.symm⟩
    have hlength := congrArg List.length htext
    rw [List.length_append, List.length_append] at hlength
    obtain rfl : rest' = rest := hsuffix.eq_of_length_le (by omega)
    rw [hread, hkind rfl]

/-- No token is read only where none can stand. -/
theorem lexeme?_eq_none_iff :
    lexeme? text = none ↔ ∀ kind piece, TokenKind.Lexeme kind piece → ¬ piece <+: text := by
  constructor
  · rintro hnone kind piece hlexeme ⟨more, rfl⟩
    obtain ⟨_, _, hread, -⟩ := hlexeme.takesAtLeast more
    cases hread.symm.trans hnone
  · intro hnone
    cases hread : lexeme? text with
    | none => rfl
    | some found =>
        obtain ⟨piece, htext, hlexeme⟩ := lexeme_of_lexeme? hread
        exact absurd ⟨_, htext.symm⟩ (hnone _ _ hlexeme)

/-- A text is a token of one kind at most. -/
theorem TokenKind.Lexeme.unique (h : kind.Lexeme piece) (h' : kind'.Lexeme piece) :
    kind = kind' := by
  obtain ⟨kind₁, rest, hread, hrest, hkind⟩ := h.takesAtLeast []
  obtain ⟨kind₂, rest', hread', -, hkind'⟩ := h'.takesAtLeast []
  obtain rfl := List.suffix_nil.mp hrest
  cases hread.symm.trans hread'
  rw [← hkind rfl, ← hkind' rfl]

end Longest

end Expr
end Stencil
