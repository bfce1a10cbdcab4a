/-
Where a syntax error stands: at the first token with which no expression can begin any more, or
at the end of tokens that an expression begins with and that are none.
-/
import Stencil.Proofs.Expr.Viability

namespace Stencil
namespace Expr

section Numbered

/-- The tokens, each with its number for its start. -/
def numbered (tokens : List Token) : List Token :=
  tokens.mapIdx fun number token => { token with start := number }

variable {tokens before after : List Token} {t u : Token} {i : Nat}

theorem numbered_getElem? : (numbered tokens)[i]? = tokens[i]?.map ({ · with start := i }) :=
  List.getElem?_mapIdx

/-- The tokens at one place. -/
def SamePlace (tokens : List Token) (t t' : Token) : Prop :=
  ∃ i : Nat, tokens[i]? = some t ∧ (numbered tokens)[i]? = some t'

theorem SamePlace.kind (h : SamePlace tokens t u) : t.kind = u.kind := by
  obtain ⟨i, ht, hu⟩ := h
  rw [numbered_getElem?, ht] at hu
  obtain rfl := Option.some.inj hu
  rfl

theorem forall₂_samePlace : List.Forall₂ (SamePlace tokens) tokens (numbered tokens) := by
  have hlength : tokens.length = (numbered tokens).length := List.length_mapIdx.symm
  refine List.forall₂_iff_get.mpr ⟨hlength, fun i hi hi' => ⟨i, ?_, ?_⟩⟩
  · exact List.getElem?_eq_getElem hi
  · exact List.getElem?_eq_getElem hi'

theorem map_kind_numbered : (numbered tokens).map (·.kind) = tokens.map (·.kind) := by
  refine List.ext_getElem? fun i => ?_
  rw [List.getElem?_map, List.getElem?_map, numbered_getElem?, Option.map_map]
  rfl

theorem head?_numbered (h : ∀ token ∈ tokens.head?, token.isEof = false) :
    ∀ token ∈ (numbered tokens).head?, token.isEof = false := by
  rw [List.head?_eq_getElem?, numbered_getElem?, ← List.head?_eq_getElem?]
  intro token htoken
  obtain ⟨t, ht, rfl⟩ := Option.map_eq_some_iff.mp htoken
  exact h t ht

/-- A numbered token stands in one place alone. -/
theorem length_of_numbered (h : numbered tokens = before ++ u :: after) :
    before.length = u.start := by
  have hu : (numbered tokens)[before.length]? = some u := by
    rw [h, List.getElem?_append_right (Nat.le_refl _), Nat.sub_self]
    rfl
  rw [numbered_getElem?] at hu
  obtain ⟨t, -, rfl⟩ := Option.map_eq_some_iff.mp hu
  rfl

theorem not_mem_behind (h : numbered tokens = before ++ u :: after) : u ∉ after := by
  intro hmem
  obtain ⟨first, last, rfl⟩ := List.append_of_mem hmem
  have hagain : numbered tokens = (before ++ u :: first) ++ u :: last := by simpa using h
  have hlength := (length_of_numbered h).trans (length_of_numbered hagain).symm
  rw [List.length_append, List.length_cons] at hlength
  omega

end Numbered

/-- A token of some kind, anywhere. -/
def blank (kind : TokenKind) : Token := { kind, start := 0, stop := 0, range := {} }

section Failures

variable {ts tokens rest : List Token} {eof u : Token} {e : ExprError}

/-- A token that is refused stands behind a text that some expression begins with. -/
theorem stuck_of_ofTokens? (hne : ∀ token ∈ tokens.head?, token.isEof = false)
    (h : ofTokens? tokens = .error e) : Stuck (Writes .expr) tokens e := by
  have hhalts := halts_whole { tokens } hne
  unfold HaltsAt Runs at hhalts
  rwa [ofTokens?_eq_error_iff.mp h] at hhalts

theorem unexpectedToken_of_refusal (h : .unexpectedToken u = refusal tokens) :
    u.isEof = false ∧ ∃ after, tokens = u :: after := by
  rcases tokens with _ | ⟨t, after⟩
  · cases h
  · rw [refusal, unexpected] at h
    split at h
    · cases h
    · next hnot =>
        obtain rfl := ExprError.unexpectedToken.inj h
        exact ⟨Bool.eq_false_iff.mpr hnot, after, rfl⟩

theorem eof_of_refusal (h : .unexpectedEof = refusal tokens) :
    tokens = [] ∨ ∃ t after, tokens = t :: after ∧ t.isEof = true := by
  rcases tokens with _ | ⟨t, after⟩
  · exact .inl rfl
  · rw [refusal, unexpected] at h
    split at h
    · next heof => exact .inr ⟨t, after, rfl, heof⟩
    · cases h

/-- What was taken when the end was met is all that stands in front of it. -/
theorem text_of_eof {text : List TokenKind} (hts : ∀ t ∈ ts, t.isEof = false)
    (heof : eof.isEof = true) (h : Spells text (ts ++ eof :: rest) tokens) (hnone : .eof ∉ text)
    (hend : .unexpectedEof = refusal tokens) : text = ts.map (·.kind) := by
  obtain ⟨taken, htaken, rfl⟩ := h
  rcases eof_of_refusal hend with rfl | ⟨t, after, rfl, ht⟩
  · rw [List.append_nil] at htaken
    rw [Token.not_isEof_of_kinds hnone eof (htaken ▸ by simp)] at heof
    cases heof
  · rw [eq_of_first_eof hts heof hnone ht htaken]

/-- Nothing that stands behind it makes an expression of a text with a token that is refused. -/
theorem not_opens_of_numbered {before after : List Token}
    (h : numbered tokens = before ++ u :: after)
    (herror : ofTokens? (numbered tokens) = .error (.unexpectedToken u)) :
    ¬ Opens (Writes .expr) ((before ++ [u]).map (·.kind)) := by
  rintro ⟨more, tree, htree⟩
  have hsame : List.Forall₂ (fun t t' : Token => t.kind = t'.kind) (before ++ [u])
      (before ++ [u]) := List.forall₂_same.mpr fun _ _ => rfl
  rw [h, List.append_cons] at herror
  -- Read the same tokens in front of those that would go on.
  obtain ⟨u', -, herror'⟩ : ∃ u', u.kind = u'.kind ∧
      ofTokens? (before ++ [u] ++ (more.map blank ++ [blank .eof])) =
        .error (.unexpectedToken u') :=
    ofTokens?_echoes (fun h => h) hsame herror (not_mem_behind h)
  rw [← List.append_assoc] at herror'
  have hderives : Derives .expr ((before ++ [u] ++ more.map blank).map (·.kind)) tree := by
    rwa [List.map_append, List.map_map, show ((·.kind) ∘ blank) = id from rfl, List.map_id]
  have hdeep : ∀ e, ofTokens? (before ++ [u] ++ more.map blank ++ [blank .eof]) = .error e →
      ¬ TooDeep e := by
    rw [herror']
    rintro _ ⟨⟩ ⟨_, _, ⟨⟩⟩
  obtain ⟨e, hok, -⟩ := ofTokens?_of_derives rfl hdeep hderives
  rw [herror'] at hok
  cases hok

/-- The tokens are read again with their numbers, so that it can be told which of them is meant. -/
theorem unexpectedToken_splits (hne : ∀ token ∈ tokens.head?, token.isEof = false)
    (h : ofTokens? tokens = .error (.unexpectedToken u)) :
    ∃ before after, tokens = before ++ u :: after ∧ .eof ∉ (before ++ [u]).map (·.kind) ∧
      Opens (Writes .expr) (before.map (·.kind)) ∧
        ¬ Opens (Writes .expr) ((before ++ [u]).map (·.kind)) := by
  obtain ⟨u', hsame, herror⟩ : ∃ u', SamePlace tokens u u' ∧
      ofTokens? (numbered tokens ++ []) = .error (.unexpectedToken u') :=
    ofTokens?_echoes SamePlace.kind forall₂_samePlace (by rwa [List.append_nil]) List.not_mem_nil
  rw [List.append_nil] at herror
  have hstuck := stuck_of_ofTokens? (head?_numbered hne) herror
  obtain ⟨_, _, ⟨⟩⟩ | ⟨_, ⟨⟩⟩ | ⟨_, tail, ⟨taken, htaken, rfl⟩, hnone, hopens, hrefusal⟩ := hstuck
  obtain ⟨hnot, after, rfl⟩ := unexpectedToken_of_refusal hrefusal
  have hhopeless := not_opens_of_numbered htaken herror
  -- The same place in the tokens as they are.
  have hkinds : tokens.map (·.kind) = taken.map (·.kind) ++ u'.kind :: after.map (·.kind) := by
    rw [← map_kind_numbered, htaken, List.map_append, List.map_cons]
  obtain ⟨before, _, rfl, hbefore, hafter⟩ := List.map_eq_append_iff.mp hkinds
  obtain ⟨v, after', rfl, -, -⟩ := List.map_eq_cons_iff.mp hafter
  have hv : v = u := by
    obtain ⟨i, hu, hu'⟩ := hsame
    rw [numbered_getElem?, hu] at hu'
    have hlength : before.length = i := by
      rw [← List.length_map (f := (·.kind)), hbefore, List.length_map, length_of_numbered htaken,
        ← Option.some.inj hu']
    rw [← hlength, List.getElem?_append_right (Nat.le_refl _), Nat.sub_self] at hu
    exact Option.some.inj hu
  subst hv
  have hsplit : (before ++ [v]).map (·.kind) = (taken ++ [u']).map (·.kind) := by
    rw [List.map_append, List.map_append, hbefore, List.map_singleton, List.map_singleton,
      hsame.kind]
  refine ⟨before, after', rfl, ?_, hbefore ▸ hopens, hsplit ▸ hhopeless⟩
  rw [hsplit, List.map_append, List.map_singleton, List.mem_append, List.mem_singleton]
  rintro (heof | heof)
  · exact hnone heof
  · rw [Token.isEof_iff.mpr heof.symm] at hnot
    cases hnot

/-- Syntax errors are about the first token that leaves no way to go on.  The tokens before one
that is unexpected begin some expression, and with it they begin none; where more is expected,
the tokens begin a longer expression and are none themselves. -/
theorem ofTokens?_blames_first_hopeless (hts : ∀ t ∈ ts, t.isEof = false)
    (heof : eof.isEof = true) :
    (∀ u, ofTokens? (ts ++ eof :: rest) = .error (.unexpectedToken u) →
      ∃ before after, ts = before ++ u :: after ∧
        Opens (Writes .expr) (before.map (·.kind)) ∧
          ¬ Opens (Writes .expr) ((before ++ [u]).map (·.kind))) ∧
      (ofTokens? (ts ++ eof :: rest) = .error .unexpectedEof →
        (∃ more, more ≠ [] ∧ Writes .expr (ts.map (·.kind) ++ more)) ∧
          ¬ Writes .expr (ts.map (·.kind))) := by
  have hhead : ∀ e, ofTokens? (ts ++ eof :: rest) = .error e → e ≠ .empty →
      ∀ token ∈ (ts ++ eof :: rest).head?, token.isEof = false := by
    intro e herror hnot
    rcases ts with _ | ⟨first, more⟩
    · rw [List.nil_append, ofTokens?_of_eof heof] at herror
      exact absurd (Except.error.inj herror).symm hnot
    · rintro token ⟨⟩
      exact hts first List.mem_cons_self
  constructor
  · intro u herror
    obtain ⟨before, after, htokens, hnone, hopens, hhopeless⟩ :=
      unexpectedToken_splits (hhead _ herror nofun) herror
    refine ⟨before, after.takeWhile (!·.isEof), ?_, hopens, hhopeless⟩
    have hbefore : ∀ t ∈ before ++ [u], (!t.isEof) = true := by
      intro t ht
      rw [Bool.not_eq_true']
      exact Token.not_isEof_of_kinds hnone t ht
    have hsame := congrArg (List.takeWhile (!·.isEof)) htokens
    rwa [takeWhile_append_eof hts heof, List.append_cons,
      List.takeWhile_append_of_pos hbefore, ← List.append_cons] at hsame
  · intro herror
    have hnone : ¬ Writes .expr (ts.map (·.kind)) := by
      rintro ⟨tree, htree⟩
      have hdeep : ∀ e, ofTokens? (ts ++ eof :: rest) = .error e → ¬ TooDeep e := by
        rw [herror]
        rintro _ ⟨⟩ ⟨_, _, ⟨⟩⟩
      obtain ⟨e, hok, -⟩ := ofTokens?_of_derives heof hdeep htree
      rw [herror] at hok
      cases hok
    refine ⟨?_, hnone⟩
    have hstuck := stuck_of_ofTokens? (hhead _ herror nofun) herror
    obtain ⟨_, _, ⟨⟩⟩ | ⟨_, ⟨⟩⟩ | ⟨_, tail, hspells, hnoEof, ⟨more, hmore⟩, hrefusal⟩ := hstuck
    obtain rfl := text_of_eof hts heof hspells hnoEof hrefusal
    refine ⟨more, ?_, hmore⟩
    rintro rfl
    rw [List.append_nil] at hmore
    exact hnone hmore

end Failures

namespace OffenderWitness

/-- The tokens of `[a for b in c if d else e]`. -/
def comprehension : List Token :=
  [.mark .leftBracket, .ident "a", .mark .forWord, .ident "b", .mark .inWord, .ident "c",
    .mark .ifWord, .ident "d", .mark .elseWord, .ident "e", .mark .rightBracket].map blank

/-- The tokens of `a not`. -/
def negated : List Token := [.ident "a", .mark .notWord].map blank

/-- No `else` goes with the test of a comprehension, and `in` is awaited behind `not`. -/
theorem blames_else_and_end :
    (∃ before after, comprehension = before ++ blank (.mark .elseWord) :: after ∧
      Opens (Writes .expr) (before.map (·.kind)) ∧
        ¬ Opens (Writes .expr) ((before ++ [blank (.mark .elseWord)]).map (·.kind))) ∧
      (∃ more, more ≠ [] ∧ Writes .expr (negated.map (·.kind) ++ more)) ∧
        ¬ Writes .expr (negated.map (·.kind)) := by
  have hcomprehension : ∀ t ∈ comprehension, t.isEof = false := by decide
  have hnegated : ∀ t ∈ negated, t.isEof = false := by decide
  have hrefused : ofTokens? (comprehension ++ [blank .eof]) =
      .error (.unexpectedToken (blank (.mark .elseWord))) := by rfl
  have hawaited : ofTokens? (negated ++ [blank .eof]) = .error .unexpectedEof := by rfl
  exact ⟨(ofTokens?_blames_first_hopeless hcomprehension rfl).1 _ hrefused,
    (ofTokens?_blames_first_hopeless hnegated rfl).2 hawaited⟩

end OffenderWitness

end Expr
end Stencil
