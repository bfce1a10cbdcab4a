/-
String literals: the ways in which the characters of a string can be written between two quotes, and
the ways in which a literal breaks off.
-/
import Mathlib.Data.List.Forall2
import Mathlib.Data.Nat.Digits.Defs
import Stencil.Expr.Lexer

namespace Stencil
namespace Expr

section Hexadecimals

/-- The digit has this value in base sixteen; its letter may be small or capital. -/
def IsHexValue (digit : Char) (value : Nat) : Prop :=
  value < 16 ∧ (digit = Nat.digitChar value ∨ digit = (Nat.digitChar value).toUpper)

instance (digit : Char) (value : Nat) : Decidable (IsHexValue digit value) :=
  inferInstanceAs (Decidable (_ ∧ _))

/-- The digits name the number in base sixteen. -/
def NamesHex (digits : List Char) (n : Nat) : Prop :=
  ∃ values, List.Forall₂ IsHexValue digits values ∧ Nat.ofDigits 16 values.reverse = n

/-- The text goes on with no hexadecimal digit. -/
def NoHexAhead (text : List Char) : Prop := ∀ c ∈ text.head?, ∀ value, ¬ IsHexValue c value

variable {digits text rest : List Char} {n : Nat}

theorem isHexValue_iff {digit : Char} {value : Nat} :
    IsHexValue digit value ↔ isHexDigit digit = true ∧ hexDigit digit = value := by
  constructor
  · rintro ⟨hvalue, hdigit⟩
    have htable : ∀ v < 16, (isHexDigit (Nat.digitChar v) = true ∧ hexDigit (Nat.digitChar v) = v) ∧
        isHexDigit (Nat.digitChar v).toUpper = true ∧ hexDigit (Nat.digitChar v).toUpper = v := by
      decide
    obtain ⟨hsmall, hcapital⟩ := htable value hvalue
    rcases hdigit with rfl | rfl
    · exact hsmall
    · exact hcapital
  · rintro ⟨hdigit, rfl⟩
    have htable : ∀ n < 0x80, isHexDigit (Char.ofNat n) = true →
        IsHexValue (Char.ofNat n) (hexDigit (Char.ofNat n)) := by decide +kernel
    have hascii : digit.toNat < 0x80 := by
      simp only [isHexDigit, Bool.or_eq_true, Bool.and_eq_true, decide_eq_true_eq, Char.le_def,
        UInt32.le_iff_toNat_le] at hdigit
      rcases hdigit with (⟨-, hle⟩ | ⟨-, hle⟩) | ⟨-, hle⟩
      all_goals exact Nat.lt_of_le_of_lt hle (by decide)
    rw [← Char.ofNat_toNat digit] at hdigit ⊢
    exact htable _ hascii hdigit

theorem noHexAhead_iff : NoHexAhead text ↔ ∀ c ∈ text.head?, isHexDigit c = false := by
  refine forall₂_congr fun c _ => ?_
  rw [Bool.eq_false_iff]
  constructor
  · exact fun h hdigit => h _ (isHexValue_iff.mpr ⟨hdigit, rfl⟩)
  · exact fun h value hvalue => h (isHexValue_iff.mp hvalue).1

theorem forall₂_isHexValue_iff {values : List Nat} :
    List.Forall₂ IsHexValue digits values ↔
      (∀ d ∈ digits, isHexDigit d = true) ∧ digits.map hexDigit = values := by
  have hvalue : IsHexValue =
      fun digit value => isHexDigit digit = true ∧ hexDigit digit = value := by
    funext digit value
    exact propext isHexValue_iff
  rw [hvalue, List.forall₂_and_left, ← List.forall₂_map_left_iff, List.forall₂_eq_eq_eq]

/-- Reading digits from the left comes to the number that they name. -/
theorem namesHex_iff : NamesHex digits n ↔ (∀ d ∈ digits, isHexDigit d = true) ∧
    digits.foldl (fun n c => 16 * n + hexDigit c) 0 = n := by
  have hfold : Nat.ofDigits 16 (digits.map hexDigit).reverse =
      digits.foldl (fun n c => 16 * n + hexDigit c) 0 := by
    rw [Nat.ofDigits_eq_foldr, ← List.map_reverse, List.foldr_map, List.foldl_eq_foldr_reverse]
    simp only [Nat.cast_id, Nat.add_comm]
  simp only [NamesHex, forall₂_isHexValue_iff, ← hfold]
  constructor
  · rintro ⟨_, ⟨hall, rfl⟩, hvalue⟩
    exact ⟨hall, hvalue⟩
  · rintro ⟨hall, hvalue⟩
    exact ⟨_, ⟨hall, rfl⟩, hvalue⟩

end Hexadecimals

/-- What the code stands for behind a backslash. -/
inductive Escape : Char → (code : List Char) → Prop where
  | itself {c : Char} : c = '\\' ∨ c = '"' ∨ c = '\'' → Escape c [c]
  | newline : Escape '\n' ['n']
  | carriageReturn : Escape '\r' ['r']
  | tab : Escape '\t' ['t']
  | number {c : Char} {digits : List Char} : digits ≠ [] → digits.length ≤ 6 →
      NamesHex digits c.toNat → Escape c ('u' :: '\x7b' :: (digits ++ ['\x7d']))

/-- Why no escape stands at the front of a text. -/
inductive BadEscape : List Char → Prop where
  | ended : BadEscape []
  | unknown {c : Char} {rest : List Char} :
      c ∉ ['\\', '"', '\'', 'n', 'r', 't', 'u'] → BadEscape (c :: rest)
  | noBrace {rest : List Char} : rest.head? ≠ some '\x7b' → BadEscape ('u' :: rest)
  | noDigit {rest : List Char} : NoHexAhead rest → BadEscape ('u' :: '\x7b' :: rest)
  /-- The digits are not closed behind the last of them, or not behind the sixth. -/
  | notClosed {digits rest : List Char} {n : Nat} : digits ≠ [] → digits.length ≤ 6 →
      NamesHex digits n → digits.length = 6 ∨ NoHexAhead rest → rest.head? ≠ some '\x7d' →
        BadEscape ('u' :: '\x7b' :: (digits ++ rest))
  /-- The number is that of a surrogate, or there are not so many characters. -/
  | noCharacter {digits rest : List Char} {n : Nat} : digits ≠ [] → digits.length ≤ 6 →
      NamesHex digits n → 0xD800 ≤ n ∧ n ≤ 0xDFFF ∨ 0x10FFFF < n →
        BadEscape ('u' :: '\x7b' :: (digits ++ '\x7d' :: rest))

section Escapes

variable {text digits rest : List Char} {c : Char} {n : Nat}

/-- The digits of a number at the front of a text. -/
theorem take_hexDigits (hall : ∀ d ∈ digits, isHexDigit d = true) (hlength : digits.length ≤ 6)
    (hstop : digits.length = 6 ∨ NoHexAhead rest) :
    ((digits ++ rest).takeWhile isHexDigit).take 6 = digits := by
  rw [List.takeWhile_append_of_pos hall]
  rcases hstop with hsix | hahead
  · rw [← hsix, List.take_left]
  · have hnone : rest.takeWhile isHexDigit = [] := by
      cases rest with
      | nil => rfl
      | cons c rest => rw [List.takeWhile_cons, noHexAhead_iff.mp hahead c rfl]; rfl
    rw [hnone, List.append_nil, List.take_of_length_le hlength]

theorem noHexAhead_brace (rest : List Char) : NoHexAhead ('\x7d' :: rest) :=
  noHexAhead_iff.mpr fun _ hc => Option.some.inj hc ▸ rfl

theorem escape?_number (hne : digits ≠ []) (hlength : digits.length ≤ 6)
    (hdigits : NamesHex digits n) (rest : List Char) :
    escape? ('u' :: '\x7b' :: (digits ++ '\x7d' :: rest)) =
      if n.isValidChar then some (Char.ofNat n, rest) else none := by
  obtain ⟨hall, hvalue⟩ := namesHex_iff.mp hdigits
  have htake := take_hexDigits hall hlength (.inr (noHexAhead_brace rest))
  obtain ⟨d, more, rfl⟩ := List.exists_cons_of_ne_nil hne
  simp only [escape?, htake, List.drop_left, hvalue]

theorem escape?_notClosed (hall : ∀ d ∈ digits, isHexDigit d = true) (hlength : digits.length ≤ 6)
    (hstop : digits.length = 6 ∨ NoHexAhead rest)
    (hclosed : digits = [] ∨ rest.head? ≠ some '\x7d') :
    escape? ('u' :: '\x7b' :: (digits ++ rest)) = none := by
  have htake := take_hexDigits hall hlength hstop
  simp only [escape?, htake, List.drop_left]
  split
  · rcases hclosed with hnone | hrest
    · cases hnone
    · exact absurd rfl hrest
  · rfl

theorem escape?_of_escape {code : List Char} (h : Escape c code) (rest : List Char) :
    escape? (code ++ rest) = some (c, rest) := by
  cases h with
  | itself hc => rcases hc with rfl | rfl | rfl <;> rfl
  | newline | carriageReturn | tab => rfl
  | number hne hlength hdigits =>
      have hnumber := escape?_number hne hlength hdigits rest
      have hvalid : c.toNat.isValidChar := c.valid
      rw [if_pos hvalid, Char.ofNat_toNat] at hnumber
      simpa using hnumber

theorem escape?_of_badEscape (h : BadEscape text) : escape? text = none := by
  cases h with
  | ended => rfl
  | @unknown c rest hc =>
      simp only [List.mem_cons, List.not_mem_nil, not_or, or_false] at hc
      unfold escape?
      split <;> simp_all
  | @noBrace rest hbrace =>
      unfold escape?
      split <;> simp_all
  | noDigit hahead =>
      exact escape?_notClosed (List.forall_mem_nil _) (Nat.zero_le 6) (.inr hahead) (.inl rfl)
  | notClosed _ hlength hdigits hstop hrest =>
      exact escape?_notClosed (namesHex_iff.mp hdigits).1 hlength hstop (.inr hrest)
  | noCharacter hne hlength hdigits hn =>
      rw [escape?_number hne hlength hdigits, if_neg]
      simp only [Nat.isValidChar]
      omega

/-- At most six digits are read as a number. -/
theorem exists_hexDigits (text : List Char) : ∃ digits rest, text = digits ++ rest ∧
    (∀ d ∈ digits, isHexDigit d = true) ∧ digits.length ≤ 6 ∧
      (digits.length = 6 ∨ NoHexAhead rest) := by
  have hall : ∀ d ∈ text.takeWhile isHexDigit, isHexDigit d = true :=
    List.all_eq_true.mp List.all_takeWhile
  have hsplit : text.takeWhile isHexDigit ++ text.dropWhile isHexDigit = text :=
    List.takeWhile_append_dropWhile
  by_cases hmany : 6 ≤ (text.takeWhile isHexDigit).length
  · refine ⟨(text.takeWhile isHexDigit).take 6,
      (text.takeWhile isHexDigit).drop 6 ++ text.dropWhile isHexDigit, ?_, ?_, ?_, .inl ?_⟩
    · rw [← List.append_assoc, List.take_append_drop, hsplit]
    · exact fun d hd => hall d (List.mem_of_mem_take hd)
    · exact List.length_take_le ..
    · rw [List.length_take, Nat.min_eq_left hmany]
  · refine ⟨_, _, hsplit.symm, hall, by omega, .inr ?_⟩
    rw [noHexAhead_iff]
    intro c hc
    have hhead := List.head?_dropWhile_not isHexDigit text
    rwa [Option.mem_def.mp hc] at hhead

theorem number_or_badEscape (text : List Char) :
    (∃ c code rest, Escape c code ∧ 'u' :: '\x7b' :: text = code ++ rest) ∨
      BadEscape ('u' :: '\x7b' :: text) := by
  obtain ⟨digits, rest, rfl, hall, hlength, hstop⟩ := exists_hexDigits text
  have hdigits : NamesHex digits _ := namesHex_iff.mpr ⟨hall, rfl⟩
  by_cases hne : digits = []
  · subst hne
    rcases hstop with hsix | hahead
    · cases hsix
    · exact .inr (.noDigit hahead)
  by_cases hclosed : rest.head? = some '\x7d'
  · obtain ⟨rest, rfl⟩ := List.head?_eq_some_iff.mp hclosed
    generalize digits.foldl (fun n c => 16 * n + hexDigit c) 0 = n at hdigits
    by_cases hvalid : n.isValidChar
    · have hcharacter : (Char.ofNat n).toNat = n := by
        rw [Char.ofNat, dif_pos hvalid]
        rfl
      rw [← hcharacter] at hdigits
      exact .inl ⟨Char.ofNat n, _, rest, .number hne hlength hdigits, by simp⟩
    · refine .inr (.noCharacter hne hlength hdigits ?_)
      simp only [Nat.isValidChar] at hvalid
      omega
  · exact .inr (.notClosed hne hlength hdigits hstop hclosed)

/-- Behind a backslash stands an escape, or there is a reason why none does. -/
theorem escape_or_badEscape (text : List Char) :
    (∃ c code rest, Escape c code ∧ text = code ++ rest) ∨ BadEscape text := by
  cases text with
  | nil => exact .inr .ended
  | cons c rest =>
      by_cases hc : c ∈ ['\\', '"', '\'', 'n', 'r', 't', 'u']
      · simp only [List.mem_cons, List.not_mem_nil, or_false] at hc
        rcases hc with hc | hc | hc | rfl | rfl | rfl | rfl
        · exact .inl ⟨c, [c], rest, .itself (.inl hc), rfl⟩
        · exact .inl ⟨c, [c], rest, .itself (.inr (.inl hc)), rfl⟩
        · exact .inl ⟨c, [c], rest, .itself (.inr (.inr hc)), rfl⟩
        · exact .inl ⟨_, _, rest, .newline, rfl⟩
        · exact .inl ⟨_, _, rest, .carriageReturn, rfl⟩
        · exact .inl ⟨_, _, rest, .tab, rfl⟩
        · by_cases hbrace : rest.head? = some '\x7b'
          · obtain ⟨text, rfl⟩ := List.head?_eq_some_iff.mp hbrace
            exact number_or_badEscape text
          · exact .inr (.noBrace hbrace)
      · exact .inr (.unknown hc)

end Escapes

/-- Between quotes of one kind the text stands for the content. -/
inductive Inscribed (quote : Char) : (content text : List Char) → Prop where
  | nil : Inscribed quote [] []
  | plain {c : Char} {content text : List Char} : c ≠ quote → c ≠ '\\' →
      Inscribed quote content text → Inscribed quote (c :: content) (c :: text)
  | escaped {c : Char} {code content text : List Char} : Escape c code →
      Inscribed quote content text → Inscribed quote (c :: content) ('\\' :: (code ++ text))

/-- What keeps a string from going on: its text ends, or a backslash begins no escape. -/
inductive BreaksOff : List Char → Prop where
  | ended : BreaksOff []
  | escape {rest : List Char} : BadEscape rest → BreaksOff ('\\' :: rest)

/-- The two kinds of quotes. -/
def IsQuote (c : Char) : Prop := c = '"' ∨ c = '\''

theorem IsQuote.ne_backslash {quote : Char} (h : IsQuote quote) : quote ≠ '\\' := by
  rcases h with rfl | rfl <;> decide

section Bodies

variable {quote : Char} {content body text rest : List Char}

/-- A body is read character by character, and reading goes on behind it. -/
theorem stringBody_inscribed (hquote : IsQuote quote) (h : Inscribed quote content body)
    (seen rest : List Char) :
    stringBody quote seen (body ++ rest) = stringBody quote (content.reverse ++ seen) rest := by
  induction h generalizing seen with
  | nil => rfl
  | @plain c content text hplain hslash _ ih =>
      rw [List.cons_append, stringBody, if_neg hplain, if_neg hslash, ih, List.reverse_cons,
        List.append_assoc]
      rfl
  | @escaped c code content text hescape _ ih =>
      have hcode := escape?_of_escape hescape (text ++ rest)
      rw [List.cons_append, List.append_assoc, stringBody, if_neg hquote.ne_backslash.symm,
        if_pos rfl, List.reverse_cons, List.append_assoc]
      split
      · next hsome =>
          rw [hcode] at hsome
          cases hsome
          exact ih _
      · next hnone =>
          rw [hcode] at hnone
          cases hnone

theorem stringBody_closed (seen rest : List Char) :
    stringBody quote seen (quote :: rest) = some (seen.reverse, rest) := by
  rw [stringBody, if_pos rfl]

theorem stringBody_breaksOff (hquote : IsQuote quote) (h : BreaksOff text) (seen : List Char) :
    stringBody quote seen text = none := by
  cases h with
  | ended => rw [stringBody]
  | @escape rest hbad =>
      have hnone := escape?_of_badEscape hbad
      rw [stringBody, if_neg hquote.ne_backslash.symm, if_pos rfl]
      split
      · next hsome =>
          rw [hnone] at hsome
          cases hsome
      · rfl

/-- Every text goes on as a string up to a quote or to where it breaks off. -/
theorem exists_inscribed (quote : Char) (text : List Char) :
    ∃ content body rest, Inscribed quote content body ∧ text = body ++ rest ∧
      (rest.head? = some quote ∨ BreaksOff rest) := by
  induction hlength : text.length using Nat.strong_induction_on generalizing text with
  | _ n ih =>
  cases text with
  | nil => exact ⟨[], [], [], .nil, rfl, .inr .ended⟩
  | cons c tail =>
      by_cases hquote : c = quote
      · exact ⟨[], [], c :: tail, .nil, rfl, .inl (congrArg some hquote)⟩
      by_cases hslash : c = '\\'
      · subst hslash
        rcases escape_or_badEscape tail with ⟨c, code, more, hescape, rfl⟩ | hbad
        · have hlt : more.length < n := by
            rw [← hlength, List.length_cons, List.length_append]
            omega
          obtain ⟨content, body, rest, hinscribed, rfl, hrest⟩ := ih _ hlt more rfl
          exact ⟨_, _, rest, .escaped hescape hinscribed, by simp, hrest⟩
        · exact ⟨[], [], _, .nil, rfl, .inr (.escape hbad)⟩
      · obtain ⟨content, body, rest, hinscribed, rfl, hrest⟩ :=
          ih tail.length (by rw [← hlength]; exact Nat.lt_succ_self _) tail rfl
        exact ⟨_, _, rest, .plain hquote hslash hinscribed, rfl, hrest⟩

theorem string?_inscribed (hquote : IsQuote quote) (h : Inscribed quote content body)
    (rest : List Char) :
    string? (quote :: (body ++ quote :: rest)) = some (.string (String.ofList content), rest) := by
  have hquote' : (quote = '"' || quote = '\'') = true := by simpa [IsQuote] using hquote
  rw [string?, if_pos hquote', stringBody_inscribed hquote h, stringBody_closed, List.append_nil,
    List.reverse_reverse]
  rfl

theorem string?_breaksOff (hquote : IsQuote quote) (h : Inscribed quote content body)
    (hbreak : BreaksOff rest) : string? (quote :: (body ++ rest)) = none := by
  rw [string?, stringBody_inscribed hquote h, stringBody_breaksOff hquote hbreak]
  exact ite_self none

/-- A string token is a quote, the content written out, and the same quote. -/
theorem string?_eq_some_iff {kind : TokenKind} :
    string? text = some (kind, rest) ↔ ∃ quote content body, IsQuote quote ∧
      Inscribed quote content body ∧ kind = .string (String.ofList content) ∧
        text = quote :: (body ++ quote :: rest) := by
  constructor
  · intro h
    cases text with
    | nil => cases h
    | cons quote text =>
        have hquote : IsQuote quote := by
          by_contra hnot
          rw [string?, if_neg (by simpa [IsQuote] using hnot)] at h
          cases h
        obtain ⟨content, body, tail, hinscribed, rfl, htail | hbreak⟩ :=
          exists_inscribed quote text
        · obtain ⟨tail, rfl⟩ := List.head?_eq_some_iff.mp htail
          rw [string?_inscribed hquote hinscribed] at h
          cases h
          exact ⟨quote, content, body, hquote, hinscribed, rfl, rfl⟩
        · rw [string?_breaksOff hquote hinscribed hbreak] at h
          cases h
  · rintro ⟨quote, content, body, hquote, hinscribed, rfl, rfl⟩
    exact string?_inscribed hquote hinscribed rest

end Bodies

end Expr
end Stencil
