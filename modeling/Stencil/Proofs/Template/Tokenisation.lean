/-
The tokens of a template are its leftmost, shortest tokenisation: they tile the text, every
directive ends at its first closing delimiter, and no directive begins inside literal text.
-/
import Mathlib.Data.List.Chain
import Stencil.Proofs.Text.Words
import Stencil.Template.Lexer

namespace Stencil
namespace Template

/-- A directive of this kind, of any length, stands at the front of a text. -/
def TokenKind.Matches (kind : TokenKind) (text : List Char) : Prop :=
  ∃ opening closing body rest, kind.delimiters = some (opening, closing) ∧ body ≠ [] ∧
    text = opening ++ body ++ closing ++ rest

/-- The token is a directive that ends at the first closing delimiter after the first
character of its body. -/
def Token.IsDirective (t : Token) : Prop :=
  ∃ opening body closing, t.kind.delimiters = some (opening, closing) ∧
    t.raw.text = opening ++ body ++ closing ∧ body ≠ [] ∧ t.content.text = trim body ∧
      ∀ i, 0 < i → i < body.length → ¬ OccursAt closing (body ++ closing) i

/-- No directive begins inside `text` when `rest` follows it. -/
def IsLiteral (text rest : List Char) : Prop :=
  ∀ k < text.length, ∀ kind : TokenKind, ¬ kind.Matches (text.drop k ++ rest)

theorem directiveOf?_eq_some {kind : TokenKind} {text : List Char} {d : Directive}
    (h : directiveOf? kind text = some d) :
    d.kind = kind ∧ ∃ opening closing, kind.delimiters = some (opening, closing) ∧
      d.body ≠ [] ∧ text = opening ++ d.body ++ closing ++ d.rest ∧
        ∀ i, 0 < i → i < d.body.length → ¬ OccursAt closing (d.body ++ closing) i := by
  unfold directiveOf? at h
  split at h
  · cases h
  · next opening closing hdelimiters =>
      split at h
      · next first more hmore =>
          obtain ⟨⟨body, rest⟩, hsplit, rfl⟩ := Option.map_eq_some_iff.mp h
          obtain ⟨hbody, hfirst⟩ := splitWord_eq_some_iff.mp hsplit
          refine ⟨rfl, opening, closing, hdelimiters, by simp, ?_, ?_⟩
          · rw [eq_append_of_stripWord hmore, hbody]
            simp
          · intro i hpos hi hoccurs
            obtain ⟨j, rfl⟩ := Nat.exists_eq_succ_of_ne_zero (by omega : i ≠ 0)
            obtain ⟨after, hafter⟩ := hoccurs
            change closing ++ after = (body ++ closing).drop j at hafter
            have hj : j < body.length := Nat.lt_of_succ_lt_succ hi
            refine hfirst j hj ⟨after ++ rest, ?_⟩
            rw [hbody, List.drop_append_of_le_length (by rw [List.length_append]; omega),
              ← List.append_assoc, hafter]
      · cases h

/-- If no directive is found, none of any length is there. -/
theorem not_matches_of_directiveOf?_eq_none {kind : TokenKind} {text : List Char}
    (h : directiveOf? kind text = none) : ¬ kind.Matches text := by
  rintro ⟨opening, closing, body, rest, hdelimiters, hbody, rfl⟩
  obtain ⟨first, more, rfl⟩ := List.exists_cons_of_ne_nil hbody
  simp only [directiveOf?, hdelimiters, List.append_assoc, List.cons_append, stripWord_append,
    Option.map_eq_none_iff] at h
  exact splitWord_eq_none_iff.mp h more rest (by simp)

theorem not_matches_of_directive?_eq_none {text : List Char} (h : directive? text = none)
    (kind : TokenKind) : ¬ kind.Matches text := by
  cases kind with
  | text =>
      rintro ⟨_, _, _, _, hdelimiters, _⟩
      cases hdelimiters
  | _ =>
      refine not_matches_of_directiveOf?_eq_none ?_
      exact List.findSome?_eq_none_iff.mp h _ (by simp)

/-- A directive that is found is there. -/
theorem matches_of_directive? {text : List Char} {d : Directive}
    (h : directive? text = some d) : ∃ kind : TokenKind, kind.Matches text := by
  obtain ⟨kind, _, hkind⟩ := List.exists_of_findSome?_eq_some h
  obtain ⟨-, opening, closing, hdelimiters, hbody, htext, -⟩ := directiveOf?_eq_some hkind
  exact ⟨kind, opening, closing, d.body, d.rest, hdelimiters, hbody, htext⟩

/-- The raw text of a directive is what stands before its rest. -/
theorem token_isDirective {text : List Char} {d : Directive} (h : directive? text = some d)
    (start : Cursor) :
    text = text.take (text.length - d.rest.length) ++ d.rest ∧
      (d.token start (text.take (text.length - d.rest.length))).IsDirective := by
  obtain ⟨kind, _, hkind⟩ := List.exists_of_findSome?_eq_some h
  obtain ⟨hd, opening, closing, hdelimiters, hbody, htext, hfirst⟩ := directiveOf?_eq_some hkind
  have htake : text.take (text.length - d.rest.length) = opening ++ d.body ++ closing := by
    rw [htext, List.length_append, Nat.add_sub_cancel]
    exact List.take_left
  rw [htake]
  refine ⟨htext, opening, d.body, closing, ?_, rfl, hbody, rfl, hfirst⟩
  rw [← hdelimiters, ← hd]
  rfl

theorem directiveOf?_opening {kind : TokenKind} {opening closing : List Char}
    (h : kind.delimiters = some (opening, closing)) (first : Char) (more : List Char) :
    directiveOf? kind (opening ++ first :: more) =
      (splitWord closing more).map fun (body, rest) => ⟨kind, first :: body, rest⟩ := by
  simp only [directiveOf?, h, stripWord_append]

/-- The delimiters of one kind open no directive of another. -/
theorem directiveOf?_opening_eq_none {kind other : TokenKind} {opening closing : List Char}
    (h : kind.delimiters = some (opening, closing)) (hne : other ≠ kind) (rest : List Char) :
    directiveOf? other (opening ++ rest) = none := by
  cases other with
  | text => rfl
  | _ =>
      cases kind <;> cases h <;> simp_all [directiveOf?, TokenKind.delimiters, stripWord]

/-- Behind an opening delimiter and one more character the first closing delimiter decides. -/
theorem directive?_opening {kind : TokenKind} {opening closing : List Char}
    (h : kind.delimiters = some (opening, closing)) (first : Char) (more : List Char) :
    directive? (opening ++ first :: more) =
      (splitWord closing more).map fun (body, rest) => ⟨kind, first :: body, rest⟩ := by
  rw [← directiveOf?_opening h]
  have hother : ∀ other, other ≠ kind → directiveOf? other (opening ++ first :: more) = none :=
    fun other hne => directiveOf?_opening_eq_none h hne (first :: more)
  cases kind with
  | text => cases h
  | _ =>
      simp only [directive?, List.findSome?, hother, ne_eq, reduceCtorEq, not_false_eq_true]
      cases directiveOf? _ (opening ++ first :: more) <;> rfl

theorem scan_of_directive? {c : Char} {rest : List Char} {d : Directive}
    (h : directive? (c :: rest) = some d) (start : Cursor) (seen : List Char) :
    scan start seen (c :: rest) =
      textTokens start seen.reverse ++
        d.token (start.after seen.reverse) ((c :: rest).take (rest.length + 1 - d.rest.length)) ::
          scan ((start.after seen.reverse).after
            ((c :: rest).take (rest.length + 1 - d.rest.length))) [] d.rest := by
  rw [scan]
  split
  · next d' hd' =>
      cases h.symm.trans hd'
      rfl
  · next hnone => cases h.symm.trans hnone

theorem scan_of_directive?_eq_none {c : Char} {rest : List Char}
    (h : directive? (c :: rest) = none) (start : Cursor) (seen : List Char) :
    scan start seen (c :: rest) = scan start (c :: seen) rest := by
  rw [scan]
  split
  · next d hd => cases h.symm.trans hd
  · rfl

/-- A directive at the front of a text is its first token. -/
theorem scan_append_of_directive? {raw rest : List Char} {d : Directive} (hraw : raw ≠ [])
    (h : directive? (raw ++ rest) = some d) (hrest : d.rest = rest) (start : Cursor) :
    scan start [] (raw ++ rest) = d.token start raw :: scan (start.after raw) [] rest := by
  obtain ⟨c, more, rfl⟩ := List.exists_cons_of_ne_nil hraw
  have hcount : (more ++ rest).length + 1 - rest.length = (c :: more).length := by
    rw [List.length_append, List.length_cons]
    omega
  have htake : (c :: (more ++ rest)).take (c :: more).length = c :: more := List.take_left
  rw [List.cons_append] at h
  have hscan := scan_of_directive? h start []
  rw [hrest, hcount, htake] at hscan
  exact hscan

/-- The text that tokens stand for. -/
def rawText (tokens : List Token) : List Char := tokens.flatMap (·.raw.text)

theorem rawText_append (first rest : List Token) :
    rawText (first ++ rest) = rawText first ++ rawText rest :=
  List.flatMap_append

@[simp] theorem rawText_cons (t : Token) (tokens : List Token) :
    rawText (t :: tokens) = t.raw.text ++ rawText tokens := rfl

/-- A text and its tokens, read from the left: directives, and stretches of literal text that
end before a directive or with the text. -/
inductive Tokenises : List Char → List Token → Prop where
  | done : Tokenises [] []
  | directive {t : Token} {rest : List Char} {tokens : List Token} :
      t.IsDirective → Tokenises rest tokens → Tokenises (t.raw.text ++ rest) (t :: tokens)
  | text {t : Token} {rest : List Char} {tokens : List Token} :
      t.kind = .text → t.raw.text ≠ [] → IsLiteral t.raw.text rest →
        (∀ u ∈ tokens.head?, u.kind ≠ .text) → Tokenises rest tokens →
          Tokenises (t.raw.text ++ rest) (t :: tokens)

theorem Token.IsDirective.kind_ne_text {t : Token} (h : t.IsDirective) : t.kind ≠ .text := by
  obtain ⟨_, _, _, hdelimiters, _⟩ := h
  intro hkind
  rw [hkind] at hdelimiters
  cases hdelimiters

theorem tokenises_textTokens {text rest : List Char} {tokens : List Token} (start : Cursor)
    (hliteral : IsLiteral text rest) (hhead : ∀ u ∈ tokens.head?, u.kind ≠ .text)
    (h : Tokenises rest tokens) : Tokenises (text ++ rest) (textTokens start text ++ tokens) := by
  cases text with
  | nil => exact h
  | cons c more =>
      have hraw : c :: more ≠ [] := List.cons_ne_nil c more
      exact @Tokenises.text ⟨.text, ⟨c :: more, _⟩, ⟨c :: more, _⟩, _⟩ rest tokens rfl hraw
        hliteral hhead h

/-- Every step of the scan keeps pending only text in which no directive begins. -/
theorem tokenises_scan (start : Cursor) (seen text : List Char)
    (h : IsLiteral seen.reverse text) :
    Tokenises (seen.reverse ++ text) (scan start seen text) := by
  fun_induction scan start seen text with
  | case1 start seen =>
      simpa using tokenises_textTokens start h (by simp) .done
  | case2 start seen c rest d hd text raw opening ih =>
      obtain ⟨hrest, hdirective⟩ := token_isDirective hd opening
      have htail := ih (by simp [IsLiteral])
      rw [List.reverse_nil, List.nil_append] at htail
      refine tokenises_textTokens start h ?_ ?_
      · rintro u hu
        cases hu
        exact hdirective.kind_ne_text
      · have hopening : opening = start.after seen.reverse := by simp [opening, text]
        have hstep := Tokenises.directive hdirective htail
        rw [hopening] at hstep
        exact (congrArg (Tokenises · _) hrest).mpr hstep
  | case3 start seen c rest hnone ih =>
      have hliteral : IsLiteral (c :: seen).reverse rest := by
        intro k hk kind
        rw [List.length_reverse, List.length_cons] at hk
        rcases Nat.lt_succ_iff_lt_or_eq.mp hk with hlt | rfl
        · have hdrop := h k (by simpa using hlt) kind
          rwa [List.reverse_cons, List.drop_append_of_le_length (by simp; omega),
            List.append_assoc]
        · have hdrop : (c :: seen).reverse.drop seen.length = [c] := by
            rw [List.reverse_cons, ← List.length_reverse, List.drop_left]
          rw [hdrop]
          exact not_matches_of_directive?_eq_none hnone kind
      simpa using ih hliteral

/-- A text in which no directive begins is one token. -/
theorem scan_eq_textTokens (start : Cursor) (seen text : List Char)
    (h : ∀ k, ∀ kind : TokenKind, ¬ kind.Matches (text.drop k)) :
    scan start seen text = textTokens start (seen.reverse ++ text) := by
  fun_induction scan start seen text with
  | case1 start seen => rw [List.append_nil]
  | case2 start seen c rest d hd text raw opening ih =>
      obtain ⟨kind, hkind⟩ := matches_of_directive? hd
      exact absurd hkind (h 0 kind)
  | case3 start seen c rest hnone ih =>
      rw [ih fun k => h (k + 1), List.reverse_cons, List.append_assoc, List.singleton_append]

theorem tokenises_tokens (source : String) : Tokenises source.toList (tokens source) :=
  tokenises_scan {} [] source.toList (by simp [IsLiteral])

namespace Tokenises

variable {text : List Char} {tokens : List Token}

theorem rawText_eq (h : Tokenises text tokens) : rawText tokens = text := by
  induction h with
  | done => rfl
  | directive _ _ ih => rw [rawText_cons, ih]
  | text _ _ _ _ _ ih => rw [rawText_cons, ih]

theorem raw_ne_nil (h : Tokenises text tokens) : ∀ t ∈ tokens, t.raw.text ≠ [] := by
  induction h with
  | done => simp
  | directive hdirective _ ih =>
      obtain ⟨opening, body, closing, _, hraw, hbody, _⟩ := hdirective
      refine List.forall_mem_cons.mpr ⟨?_, ih⟩
      simp [hraw, hbody]
  | text _ hraw _ _ _ ih => exact List.forall_mem_cons.mpr ⟨hraw, ih⟩

theorem isDirective (h : Tokenises text tokens) :
    ∀ t ∈ tokens, t.kind ≠ .text → t.IsDirective := by
  induction h with
  | done => simp
  | directive hdirective _ ih => exact List.forall_mem_cons.mpr ⟨fun _ => hdirective, ih⟩
  | text hkind _ _ _ _ ih =>
      exact List.forall_mem_cons.mpr ⟨fun hne => absurd hkind hne, ih⟩

/-- Literal text is never cut in two. -/
theorem isChain (h : Tokenises text tokens) :
    tokens.IsChain fun t u => ¬ (t.kind = .text ∧ u.kind = .text) := by
  induction h with
  | done => exact .nil
  | directive hdirective _ ih =>
      refine List.isChain_cons.mpr ⟨fun u _ hboth => ?_, ih⟩
      exact hdirective.kind_ne_text hboth.1
  | text _ _ _ hhead _ ih =>
      exact List.isChain_cons.mpr ⟨fun u hu hboth => hhead u hu hboth.2, ih⟩

/-- There are at most as many tokens as characters. -/
theorem length_le (h : Tokenises text tokens) : tokens.length ≤ text.length := by
  have hlength : ∀ tokens : List Token, (∀ t ∈ tokens, t.raw.text ≠ []) →
      tokens.length ≤ (rawText tokens).length := by
    intro tokens
    induction tokens with
    | nil => simp
    | cons t tokens ih =>
        intro hne
        obtain ⟨ht, htokens⟩ := List.forall_mem_cons.mp hne
        have hpos : 0 < t.raw.text.length := List.length_pos_iff.mpr ht
        have htail := ih htokens
        rw [rawText_cons, List.length_cons, List.length_append]
        omega
  rw [← h.rawText_eq]
  exact hlength tokens h.raw_ne_nil

/-- What stands at a place inside a token of literal text begins no directive. -/
theorem not_matches (h : Tokenises text tokens) {before after : List Token} {t : Token}
    (htokens : tokens = before ++ t :: after) (hkind : t.kind = .text) {i : Nat}
    (hfirst : (rawText before).length ≤ i) (hlast : i < (rawText (before ++ [t])).length)
    (kind : TokenKind) : ¬ kind.Matches (text.drop i) := by
  induction h generalizing before i with
  | done => simp at htokens
  | @directive u rest tokens hdirective _ ih =>
      cases before with
      | nil =>
          obtain ⟨rfl, rfl⟩ := List.cons.inj htokens
          exact absurd hkind hdirective.kind_ne_text
      | cons v before =>
          obtain ⟨rfl, rfl⟩ := List.cons.inj htokens
          simp only [List.cons_append, rawText_cons, List.length_append] at hfirst hlast
          rw [List.drop_append, List.drop_eq_nil_of_le (by omega), List.nil_append]
          exact ih rfl (by omega) (by omega)
  | @text u rest tokens _ _ hliteral _ _ ih =>
      cases before with
      | nil =>
          obtain ⟨rfl, rfl⟩ := List.cons.inj htokens
          have hi : i < u.raw.text.length := by simpa [rawText] using hlast
          rw [List.drop_append_of_le_length (by omega)]
          exact hliteral i hi kind
      | cons v before =>
          obtain ⟨rfl, rfl⟩ := List.cons.inj htokens
          simp only [List.cons_append, rawText_cons, List.length_append] at hfirst hlast
          rw [List.drop_append, List.drop_eq_nil_of_le (by omega), List.nil_append]
          exact ih rfl (by omega) (by omega)

end Tokenises

/-- The tokenisation of a text that is leftmost and does not look past the first closing
delimiter. -/
structure IsTokenisation (text : List Char) (tokens : List Token) : Prop where
  finite : tokens.length ≤ text.length
  nonempty : ∀ t ∈ tokens, t.raw.text ≠ []
  tiles : rawText tokens = text
  separated : tokens.IsChain fun t u => ¬ (t.kind = .text ∧ u.kind = .text)
  directives : ∀ t ∈ tokens, t.kind ≠ .text → t.IsDirective
  literal : ∀ before t after, tokens = before ++ t :: after → t.kind = .text →
    ∀ i, (rawText before).length ≤ i → i < (rawText (before ++ [t])).length →
      ∀ kind : TokenKind, ¬ kind.Matches (text.drop i)

/-- Lexing is total: every source has its tokenisation, with no text lost before a directive
and no directive lost behind an opening delimiter that is never closed. -/
theorem isTokenisation_tokens (source : String) :
    IsTokenisation source.toList (tokens source) :=
  have h := tokenises_tokens source
  { finite := h.length_le
    nonempty := h.raw_ne_nil
    tiles := h.rawText_eq
    separated := h.isChain
    directives := h.isDirective
    literal := fun _ _ _ htokens hkind _ hfirst hlast =>
      h.not_matches htokens hkind hfirst hlast }

namespace TokenisationWitness

/-- The first character of a body may begin a closing delimiter. -/
example : (directive? ['\x7b', '\x7b', '\x7d', '\x7d', 'a', '\x7d', '\x7d']).map (·.body) =
    some ['\x7d', '\x7d', 'a'] := by
  decide

end TokenisationWitness

/-- The tokens of a template of one line, told by what stands in it.  No directive has a blank
inside its delimiters. -/
def lineTokens (start : Nat) : List (TokenKind × String) → List Token
  | [] => []
  | (kind, content) :: rest =>
      let (opening, closing) := kind.delimiters.getD ([], [])
      let raw := opening ++ content.toList ++ closing
      let stop := start + raw.length
      ⟨kind, ⟨content.toList, some (start + opening.length)⟩, ⟨raw, some start⟩,
        ⟨⟨1, start + 1⟩, ⟨1, stop + 1⟩⟩⟩ :: lineTokens stop rest

end Template
end Stencil
