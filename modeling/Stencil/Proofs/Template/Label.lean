/-
The label of a compile error: it is the directive that the error is about, or the piece of it that
the error blames.
-/
import Stencil.Engine
import Stencil.Proofs.Diagnostic
import Stencil.Proofs.Template.Blockless
import Stencil.Proofs.Template.Refusal

namespace Stencil

namespace Expr

/-- Where the tokens of a text start: the end of the text for the last, and one of its characters,
which is no blank, for the others. -/
theorem Lexed.start_of_mem {lead text : List Char} {tokens : List Token}
    (h : Lexed lead text tokens) {t : Token} (ht : t ∈ tokens) :
    t.range.start = Position.after {} (lead ++ text) ∨
      ∃ front c rest, text = front ++ c :: rest ∧ isBlank c = false ∧
        t.range.start = Position.after {} (lead ++ front) := by
  induction h with
  | eof hblanks =>
      obtain rfl := List.mem_singleton.mp ht
      exact .inl rfl
  | @token lead blanks piece rest token tokens hblanks hcovers hrest ih =>
      rcases List.mem_cons.mp ht with rfl | ht
      · obtain ⟨c, more, rfl, hc⟩ := (Solid.of_lexeme? hcovers.lexeme).first
        refine .inr ⟨blanks, c, more ++ rest, by simp, hc, ?_⟩
        rw [hcovers.range]
        rfl
      · rcases ih ht with hend | ⟨front, c, more, rfl, hc, hstart⟩
        · exact .inl (by rw [hend]; simp)
        · refine .inr ⟨blanks ++ piece ++ front, c, more, by simp, hc, ?_⟩
          rw [hstart]
          simp

/-- What an error blames is a piece of the text. -/
theorem Offends.split {text lead piece : List Char} {cause : ExprError}
    (h : Offends text cause lead piece) : piece ≠ [] ∧ ∃ rest, text = lead ++ piece ++ rest := by
  cases h with
  | token htext hcovers =>
      obtain ⟨c, more, rfl, -⟩ := (Solid.of_lexeme? hcovers.lexeme).first
      exact ⟨List.cons_ne_nil c more, _, htext⟩
  | @character _ rest c htext => exact ⟨List.cons_ne_nil c [], rest, by rw [htext]; simp⟩

end Expr

/-- Where an expression is too deep: at its end, or at one of its characters, which is no blank. -/
theorem Expression.place_of_tooDeep {text : List Char} {limit : Nat} {place : Position}
    (h : compile? text = .error (.tooDeeplyNested limit place)) :
    place = Position.after {} text ∨
      ∃ front c rest, text = front ++ c :: rest ∧ isBlank c = false ∧
        place = Position.after {} front := by
  rcases error_of_bind h with hread | ⟨e, -, hcompile⟩
  · rcases error_of_bind hread with htokens | ⟨tokens, htokens, hparse⟩
    · have hscanned := Expr.scanned_tokenize text
      rw [htokens] at hscanned
      obtain ⟨_, _, ⟨⟩⟩ := hscanned
    · have hlexed := Expr.tokenize_eq_ok_iff.mp htokens
      obtain ⟨t, ht, rfl⟩ := Expr.deepAt_of_ofTokens? hparse limit place rfl hlexed.ends
      exact hlexed.start_of_mem ht
  · cases hcompile

/-- The range in an expression of what its error is about; other errors are about a whole
directive. -/
def ParseError.inner? : ParseError → Option Range
  | .malformedExpression _ cause _ => cause.range?
  | _ => none

/-- The span covers a piece, which is not empty, of a text that stands behind `before`. -/
def Span.Within (span : Span) (before text : List Char) : Prop :=
  ∃ lead piece rest, text = lead ++ piece ++ rest ∧ piece ≠ [] ∧
    span = ⟨byteCount (before ++ lead), byteCount piece⟩

theorem Span.Within.stop_le {span : Span} {before text : List Char} (h : span.Within before text) :
    span.start + span.length ≤ byteCount before + byteCount text := by
  obtain ⟨lead, piece, rest, rfl, -, rfl⟩ := h
  simp only [byteCount_append]
  omega

namespace Template

/-- The expression of the directive is too deep at its end, and a newline stands there. -/
def Token.DeepAtNewline (t : Token) (e : ParseError) : Prop :=
  ∃ expression limit range inside rest,
    e = .malformedExpression expression
      (.tooDeeplyNested limit (Position.after {} t.content.text)) range ∧
    t.content.CutFrom t.raw inside ∧ t.raw.text = inside ++ t.content.text ++ '\n' :: rest

section Labels

variable {t : Token} {before : List Char} {resolver : Resolver} {e : ParseError}

/-- Without a range of its own an error is about the directive. -/
theorem Token.Refused.range_eq (h : t.Refused resolver e) (hinner : e.inner? = none) :
    e.range = t.range := by
  cases h with
  | unknownTag => rfl
  | load => rfl
  | malformed =>
      rw [ParseError.range, Token.rangeOf, TagSite.rangeOf]
      rw [show ExprError.range? _ = none from hinner]

theorem Token.Stands.cutFrom (h : t.Stands before) (hkind : t.kind ≠ .text) :
    ∃ inside closing, t.raw.text = inside ++ t.content.text ++ closing ∧ closing ≠ [] ∧
      t.content.CutFrom t.raw inside := by
  obtain ⟨inside, closing, hraw, hclosing, hstart⟩ := h.closed hkind
  exact ⟨inside, closing, hraw, hclosing, ⟨closing, hraw.symm⟩, before.length, h.start, hstart⟩

/-- The range of an error in the content of a directive stands behind the opening delimiter. -/
theorem Token.Stands.rangeOf_eq (h : t.Stands before) {inside lead piece : List Char}
    (hcontent : t.content.CutFrom t.raw inside) {cause : ExprError}
    (hrange : cause.range? = some (Range.behind lead piece)) :
    t.rangeOf cause = Range.behind (before ++ inside ++ lead) piece := by
  rw [Token.rangeOf, TagSite.rangeOf, hrange, TagSite.origin?_of_cutFrom _ hcontent]
  · exact Range.behind_offsetBy ..
  · rw [h.range]
    rfl

/-- What the error of a directive is about stands in the directive, unless it is a newline. -/
theorem exists_behind {cause : ExprError} {closing : List Char} (hclosing : closing ≠ [])
    (hcompile : Expression.compile? t.content.text = .error cause)
    (hdeep : ∀ limit rest, cause = .tooDeeplyNested limit (Position.after {} t.content.text) →
      closing ≠ '\n' :: rest) :
    cause.range? = none ∨ ∃ lead piece rest, t.content.text ++ closing = lead ++ piece ++ rest ∧
      piece ≠ [] ∧ cause.range? = some (Range.behind lead piece) := by
  have hoffends : ∀ lead piece, Expr.Offends t.content.text cause lead piece →
      ∃ lead piece rest, t.content.text ++ closing = lead ++ piece ++ rest ∧
        piece ≠ [] ∧ cause.range? = some (Range.behind lead piece) := by
    intro lead piece h
    obtain ⟨hpiece, rest, htext⟩ := h.split
    exact ⟨lead, piece, rest ++ closing, by rw [htext]; simp, hpiece, h.range?_eq⟩
  have haccuses := Expression.accuses_of_compile? hcompile
  cases cause with
  | unexpectedToken | unexpectedCharacter =>
      obtain ⟨lead, piece, h⟩ := haccuses
      exact .inr (hoffends lead piece h)
  | tooDeeplyNested limit place =>
      have hplaced : ∀ lead c rest, t.content.text ++ closing = lead ++ c :: rest → c ≠ '\n' →
          place = Position.after {} lead →
            ∃ lead piece rest, t.content.text ++ closing = lead ++ piece ++ rest ∧ piece ≠ [] ∧
              ExprError.range? (.tooDeeplyNested limit place) = some (Range.behind lead piece) := by
        rintro lead c rest htext hc rfl
        refine ⟨lead, [c], rest, by rw [htext]; simp, List.cons_ne_nil c [], ?_⟩
        rw [Range.behind_singleton lead hc]
        rfl
      obtain ⟨c, more, rfl⟩ := List.exists_cons_of_ne_nil hclosing
      rcases Expression.place_of_tooDeep hcompile with rfl | ⟨front, c', rest, htext, hc', hplace⟩
      · refine .inr (hplaced t.content.text c more rfl ?_ rfl)
        rintro rfl
        exact hdeep limit more rfl rfl
      · refine .inr (hplaced front c' (rest ++ c :: more) (by rw [htext]; simp) ?_ hplace)
        rintro rfl
        cases hc'
  | _ => exact .inl rfl

theorem Token.Refused.kind_ne_text (h : t.Refused resolver e) : t.kind ≠ .text := by
  rintro hkind
  cases h with
  | unknownTag hblock => cases hblock.symm.trans hkind
  | load hload => cases hload.symm.trans hkind
  | malformed hvar => cases hvar.symm.trans hkind

variable {source after : List Char}

theorem Token.Refused.span_eq (h : t.Refused resolver e) (hstands : t.Stands before)
    (hsource : source = before ++ t.raw.text ++ after) (hinner : e.inner? = none) :
    Span.ofRange source e.range = ⟨byteCount before, byteCount t.raw.text⟩ := by
  obtain ⟨inside, closing, hraw, hclosing, -⟩ := hstands.cutFrom h.kind_ne_text
  have hne : t.raw.text ≠ [] := by
    rw [hraw]
    exact List.append_ne_nil_of_right_ne_nil _ hclosing
  rw [h.range_eq hinner, hstands.range, hsource, Span.ofRange_behind hne]

/-- The label of an error that the reader has with a directive. -/
theorem Token.Refused.within (h : t.Refused resolver e) (hstands : t.Stands before)
    (hsource : source = before ++ t.raw.text ++ after) (hdeep : ¬ t.DeepAtNewline e) :
    (Span.ofRange source e.range).Within before t.raw.text := by
  obtain ⟨inside, closing, hraw, hclosing, hcontent⟩ := hstands.cutFrom h.kind_ne_text
  have hwhole : e.inner? = none → (Span.ofRange source e.range).Within before t.raw.text := by
    intro hinner
    refine ⟨[], t.raw.text, [], (List.append_nil _).symm, ?_, ?_⟩
    · rw [hraw]
      exact List.append_ne_nil_of_right_ne_nil _ hclosing
    · rw [h.span_eq hstands hsource hinner, List.append_nil]
  cases h with
  | unknownTag => exact hwhole rfl
  | load => exact hwhole rfl
  | @malformed cause _ hcompile =>
      have hend : ∀ limit rest, cause = .tooDeeplyNested limit (Position.after {} t.content.text) →
          closing ≠ '\n' :: rest := by
        rintro limit rest rfl rfl
        exact hdeep ⟨_, limit, _, inside, rest, rfl, hcontent, hraw⟩
      rcases exists_behind hclosing hcompile hend with
        hnone | ⟨lead, piece, rest, htext, hne, hrange⟩
      · exact hwhole hnone
      · rw [List.append_assoc, htext] at hraw
        refine ⟨inside ++ lead, piece, rest, by rw [hraw]; simp, hne, ?_⟩
        have hspan := @Span.ofRange_behind (before ++ inside ++ lead) piece (rest ++ after) hne
        rw [ParseError.range, hstands.rangeOf_eq hcontent hrange, hsource, hraw]
        simpa only [List.append_assoc] using hspan

end Labels

/-- The label of an error of a directive never leaves the directive, and it is the whole directive
unless the error says which range of the expression it is about -- except for an expression that is
too deep at its end, where the label runs on if a newline stands there.  The errors that the handler
of a tag makes up are its own. -/
theorem label_within_directive {engine : Engine} {name source : String} {d : Diagnostic}
    (h : engine.compile name source = .error d) :
    ∃ e, d = ⟨.parse e, source⟩ ∧
      (e.OfDirective →
        (∃ bound called whole,
          Visits ⟨name, engine.resolver, engine.known⟩
              { tokens := tokens source, library := engine.library }
              (.handling bound called whole whole called) ∧
            Invents ⟨name, engine.resolver, engine.known⟩ bound e whole called) ∨
        ∃ t ∈ tokens source, ∃ before after,
          source.toList = before ++ t.raw.text ++ after ∧ t.Refused engine.resolver e ∧
            (e.inner? = none → d.label = ⟨byteCount before, byteCount t.raw.text⟩) ∧
              (¬ t.DeepAtNewline e → d.label.Within before t.raw.text)) := by
  unfold Engine.compile at h
  split at h
  · next e hdefine =>
      cases h
      refine ⟨e, rfl, fun he => ?_⟩
      rcases origin_of_define he hdefine with ⟨ht, hrefused⟩ | ⟨hvisits, hinvents⟩
      · obtain ⟨before, after, hsource, hstands⟩ := stands_tokens ht
        refine .inr ⟨_, ht, before, after, hsource, hrefused, ?_, ?_⟩
        · exact hrefused.span_eq hstands hsource
        · exact hrefused.within hstands hsource
      · exact .inl ⟨_, _, _, hvisits, hinvents⟩
  · cases h

namespace ParenthesisWitness

open OffenderWitness (source directive cause tokens_source compile?_content nothing_before)

theorem blockless_source : ∀ t ∈ tokens source, t.kind ≠ .block := by
  rw [tokens_source]
  decide

/-- The label of a parenthesis that is closed without being open lies in the directive. -/
theorem label_within_parenthesis :
    ∃ d, ({} : Engine).compile "page" source = .error d ∧ d.label.Within [] directive.raw.text := by
  have hcompile : ({} : Engine).compile "page" source = .error ⟨.parse
      (.malformedExpression directive.content.toString cause (directive.rangeOf cause)),
        source⟩ := by
    rw [compile_blockless blockless_source, tokens_source, List.findSome?_cons,
      Token.flaw?_of_malformed rfl compile?_content]
  obtain ⟨e, he, hlabel⟩ := label_within_directive hcompile
  cases he
  refine ⟨_, hcompile, ?_⟩
  rcases hlabel trivial with ⟨bound, called, whole, hvisits, -⟩ |
    ⟨t, ht, before, after, hsource, -, -, hwithin⟩
  · obtain ⟨t, ht, hblock⟩ := hvisits.calls_block
    exact absurd hblock (blockless_source t ht)
  · rw [tokens_source, List.mem_singleton] at ht
    subst ht
    obtain rfl := nothing_before hsource
    apply hwithin
    rintro ⟨_, _, _, _, _, hdeep, -⟩
    cases hdeep

end ParenthesisWitness

namespace DepthExample

/-- The expression of so many signs, and no operand. -/
def signs : List Char := List.replicate 128 '-'

/-- A directive with one sign more than the limit allows, the delimiter on the next line. -/
def deep : String := String.ofList ("\x7b\x7b".toList ++ signs ++ "\n\x7d\x7dx".toList)

def directive : Token where
  kind := .var
  content := ⟨signs, some 2⟩
  raw := ⟨"\x7b\x7b".toList ++ signs ++ "\n\x7d\x7d".toList, some 0⟩
  range := ⟨⟨1, 1⟩, ⟨2, 3⟩⟩

def behind : Token where
  kind := .text
  content := ⟨['x'], some 133⟩
  raw := ⟨['x'], some 133⟩
  range := ⟨⟨2, 3⟩, ⟨2, 4⟩⟩

theorem tokens_deep : tokens deep = [directive, behind] := by decide +kernel

def cause : ExprError := .tooDeeplyNested 128 ⟨1, 129⟩

theorem compile?_directive : Expression.compile? directive.content.text = .error cause :=
  Expr.error_of_map (f := fun _ => ()) (by decide +kernel)

def refusal : ParseError :=
  .malformedExpression directive.content.toString cause (directive.rangeOf cause)

theorem compile_deep :
    ({} : Engine).compile "page" deep = .error ⟨.parse refusal, deep⟩ := by
  have hblock : ∀ t ∈ tokens deep, t.kind ≠ .block := by
    rw [tokens_deep]
    decide
  have hflaw : directive.flaw? ({} : Engine).resolver = some refusal :=
    Token.flaw?_of_malformed rfl compile?_directive
  rw [compile_blockless hblock, tokens_deep, List.findSome?_cons, hflaw]

theorem label_deep : (⟨.parse refusal, deep⟩ : Diagnostic).label = ⟨130, 4⟩ := by
  decide +kernel

/-- The label ends behind the directive, in the text that follows it. -/
theorem label_leaves_directive :
    ¬ ∀ {engine : Engine} {name source : String} {d : Diagnostic} {e : ParseError} {t : Token}
      {before after : List Char},
      engine.compile name source = .error d → d = ⟨.parse e, source⟩ → t ∈ tokens source →
        source.toList = before ++ t.raw.text ++ after → t.Refused engine.resolver e →
          d.label.Within before t.raw.text := by
  intro hall
  have hmem : directive ∈ tokens deep := by
    rw [tokens_deep]
    exact List.mem_cons_self
  have hsource : deep.toList = [] ++ directive.raw.text ++ ['x'] := by
    rw [deep, String.toList_ofList]
    exact (List.append_assoc ("\x7b\x7b".toList ++ signs) "\n\x7d\x7d".toList ['x']).symm
  have hwithin := hall compile_deep rfl hmem hsource (.malformed rfl compile?_directive)
  have hle := hwithin.stop_le
  rw [label_deep] at hle
  revert hle
  decide +kernel

end DepthExample

end Template

end Stencil
