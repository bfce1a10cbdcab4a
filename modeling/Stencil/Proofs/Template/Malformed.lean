/-
Errors in expressions: whatever a template is, and whatever its tags do, the error of an
expression that is cut out of the current directive points at the place in the template where
the token or the character stands that it is about.
-/
import Stencil.Proofs.Arguments
import Stencil.Proofs.Excerpt
import Stencil.Proofs.Expr.Building
import Stencil.Proofs.Expr.Places
import Stencil.Proofs.Template.Balance
import Stencil.Proofs.Template.Places

namespace Stencil

namespace Expr

/-- What an error says of the text that it is found in: what is unexpected stands there. -/
def Accuses (text : List Char) (cause : ExprError) : Prop :=
  match cause with
  | .unexpectedToken _ | .unexpectedCharacter _ _ => ∃ lead piece, Offends text cause lead piece
  | _ => True

theorem Offends.range?_eq {text lead piece : List Char} {cause : ExprError}
    (h : Offends text cause lead piece) : cause.range? = some (Range.behind lead piece) := by
  cases h with
  | token _ hcovers => exact congrArg some hcovers.range
  | character _ _ hc =>
      rw [Range.behind_singleton _ hc]
      rfl

theorem accuses_of_tokenize {text : List Char} {cause : ExprError}
    (h : tokenize text = .error cause) : Accuses text cause := by
  have hscanned := scanned_tokenize text
  rw [h] at hscanned
  obtain ⟨lead, piece, hoffends⟩ := hscanned
  cases hoffends with
  | token htext hcovers => exact ⟨lead, piece, .token htext hcovers⟩
  | character htext hnone hc => exact ⟨lead, _, .character htext hnone hc⟩

theorem accuses_of_blames {text : List Char} {tokens : List Token} {cause : ExprError}
    (htokens : tokenize text = .ok tokens) (h : Blames tokens cause) : Accuses text cause := by
  have hscanned := scanned_tokenize text
  rw [htokens] at hscanned
  cases cause with
  | unexpectedToken token =>
      obtain ⟨hmem, hnot⟩ := h
      obtain ⟨lead, piece, rest, htext, hcovers⟩ := hscanned token hmem hnot
      exact ⟨lead, piece, .token htext hcovers⟩
  | unexpectedCharacter | duplicateKeyword => exact h.elim
  | _ => trivial

end Expr

/-- The error of two steps is the error of one of them. -/
theorem error_of_bind {ε α β : Type} {first : Except ε α} {next : α → Except ε β} {e : ε}
    (h : first >>= next = .error e) :
    first = .error e ∨ ∃ a, first = .ok a ∧ next a = .error e := by
  cases first with
  | error e' =>
      cases h
      exact .inl rfl
  | ok a => exact .inr ⟨a, rfl, h⟩

open Stencil.Expr in
theorem Expression.accuses_of_compile? {text : List Char} {cause : ExprError}
    (h : compile? text = .error cause) : Accuses text cause := by
  rcases error_of_bind h with hread | ⟨e, -, hcompile⟩
  · rcases error_of_bind hread with htokens | ⟨tokens, htokens, hparse⟩
    · exact accuses_of_tokenize htokens
    · exact accuses_of_blames htokens (blames_of_ofTokens? hparse)
  · cases hcompile

open Stencil.Expr in
theorem Arguments.accuses_of_compile? {text : List Char} {cause : ExprError}
    (h : compile? text = .error cause) : Accuses text cause := by
  rcases error_of_bind h with htokens | ⟨tokens, htokens, hargs⟩
  · exact accuses_of_tokenize htokens
  · rcases error_of_bind hargs with hparse | ⟨items, -, hadd⟩
    · exact accuses_of_blames htokens (blames_of_argumentsOfTokens? hparse)
    · rcases @foldlM_add text [] .nil items with ⟨hok, -⟩ | ⟨name, herror, -⟩
      · cases hok.symm.trans hadd
      · cases herror.symm.trans hadd
        trivial

namespace TagSite

variable {site : TagSite} {slice : Excerpt} {before inside : List Char}

/-- The place of a piece of the directive. -/
theorem origin?_of_cutFrom (hstart : site.range.start = Position.after {} before)
    (h : slice.CutFrom site.directive inside) :
    site.origin? slice = some (Position.after {} (before ++ inside)) := by
  rw [origin?, h.placeIn?_eq, Option.map_some, h.take_inside, hstart,
    Position.after_offsetBy_after]

/-- The error of an expression that stands behind `front` is about the template: its range is
that of the token or of the character that is unexpected, or of the whole directive if the error
has no place in the expression. -/
def Points (site : TagSite) (front text : List Char) (cause : ExprError) (range : Range) : Prop :=
  match cause with
  | .unexpectedToken _ | .unexpectedCharacter _ _ =>
      ∃ lead piece, Expr.Offends text cause lead piece ∧
        range = Range.behind (front ++ lead) piece
  | _ => cause.range? = none → range = site.range

theorem points_rangeOf {cause : ExprError} (hstart : site.range.start = Position.after {} before)
    (hslice : slice.CutFrom site.directive inside) (h : Expr.Accuses slice.text cause) :
    site.Points (before ++ inside) slice.text cause (site.rangeOf slice cause) := by
  have hplaced : ∀ lead piece, Expr.Offends slice.text cause lead piece →
      site.rangeOf slice cause = Range.behind (before ++ inside ++ lead) piece := by
    intro lead piece hoffends
    rw [rangeOf, hoffends.range?_eq, origin?_of_cutFrom hstart hslice]
    exact Range.behind_offsetBy ..
  have hwhole : cause.range? = none → site.rangeOf slice cause = site.range := by
    intro hnone
    rw [rangeOf, hnone]
  unfold Points
  split
  · obtain ⟨lead, piece, hoffends⟩ := h
    exact ⟨lead, piece, hoffends, hplaced lead piece hoffends⟩
  · obtain ⟨lead, piece, hoffends⟩ := h
    exact ⟨lead, piece, hoffends, hplaced lead piece hoffends⟩
  · exact hwhole

/-- The errors of an expression, or of arguments, that are cut out of the current directive. -/
theorem malformed_points (hstart : site.range.start = Position.after {} before)
    (hslice : slice.CutFrom site.directive inside) {e : ParseError}
    (h : site.expression slice = .error e ∨ site.arguments slice = .error e) :
    ∃ cause range, e = .malformedExpression slice.toString cause range ∧
      site.Points (before ++ inside) slice.text cause range := by
  have hmapped : ∃ cause, e = site.malformed slice cause ∧ Expr.Accuses slice.text cause := by
    rcases h with h | h
    · unfold expression at h
      rcases hcompile : Expression.compile? slice.text with cause | expression
      · rw [hcompile] at h
        cases h
        exact ⟨cause, rfl, Expression.accuses_of_compile? hcompile⟩
      · rw [hcompile] at h
        cases h
    · unfold arguments at h
      rcases hcompile : Arguments.compile? slice.text with cause | args
      · rw [hcompile] at h
        cases h
        exact ⟨cause, rfl, Arguments.accuses_of_compile? hcompile⟩
      · rw [hcompile] at h
        cases h
  obtain ⟨cause, rfl, haccuses⟩ := hmapped
  exact ⟨cause, _, rfl, points_rangeOf hstart hslice haccuses⟩

end TagSite

namespace Template

/-- The token stands in a text behind `before`. -/
structure Token.Stands (t : Token) (before : List Char) : Prop where
  start : t.raw.start = some before.length
  range : t.range = Range.behind before t.raw.text
  /-- Its content is a piece of it. -/
  content : ∃ inside, t.content.CutFrom t.raw inside
  /-- A delimiter stands behind the content of a directive. -/
  closed : t.kind ≠ .text → ∃ inside closing, t.raw.text = inside ++ t.content.text ++ closing ∧
    closing ≠ [] ∧ t.content.start = some (before.length + inside.length)

/-- The place behind a text. -/
def Cursor.behind (lead : List Char) : Cursor := ⟨lead.length, Position.after {} lead⟩

theorem Cursor.after_behind (lead text : List Char) :
    (Cursor.behind lead).after text = Cursor.behind (lead ++ text) := by
  rw [Cursor.after, Cursor.behind, Cursor.behind, List.length_append, Position.after_append]

theorem stands_textTokens {lead text : List Char} {t : Token}
    (h : t ∈ textTokens (.behind lead) text) : t.raw.text = text ∧ t.Stands lead := by
  cases text with
  | nil => cases h
  | cons c rest =>
      obtain rfl := List.mem_singleton.mp h
      refine ⟨rfl, rfl, ?_, ⟨[], .self rfl⟩, fun hkind => absurd rfl hkind⟩
      rw [Cursor.after_behind]
      rfl

theorem length_delimiters {kind : TokenKind} {opening closing : List Char}
    (h : kind.delimiters = some (opening, closing)) :
    opening.length = 2 ∧ closing.length = 2 := by
  cases kind <;> cases h <;> exact ⟨rfl, rfl⟩

theorem stands_directive {text : List Char} {d : Directive} (h : directive? text = some d)
    (lead : List Char) :
    (d.token (.behind lead) (text.take (text.length - d.rest.length))).Stands lead := by
  obtain ⟨kind, -, hkind⟩ := List.exists_of_findSome?_eq_some h
  obtain ⟨-, opening, closing, hdelimiters, -, htext, -⟩ := directiveOf?_eq_some hkind
  have hraw : text.take (text.length - d.rest.length) = opening ++ d.body ++ closing := by
    rw [htext, List.length_append, Nat.add_sub_cancel]
    exact List.take_left
  obtain ⟨htwo, hclosing⟩ := length_delimiters hdelimiters
  rw [hraw]
  have hbody : Excerpt.CutFrom ⟨d.body, some (lead.length + 2)⟩
      ⟨opening ++ d.body ++ closing, some lead.length⟩ opening := by
    constructor
    · exact List.prefix_append ..
    · exact ⟨lead.length, rfl, by rw [htwo]⟩
  refine ⟨rfl, ?_, ⟨_, (Excerpt.CutFrom.trim rfl).trans hbody⟩, fun _ => ?_⟩
  · change Range.mk _ _ = Range.mk _ _
    rw [Cursor.after_behind]
    rfl
  · obtain ⟨blanks, hblanks⟩ := exists_eq_trim d.body
    refine ⟨opening ++ d.body.takeWhile isBlank, blanks ++ closing, ?_, ?_, ?_⟩
    · refine (congrArg (opening ++ · ++ closing) hblanks).trans ?_
      simp only [List.append_assoc]
      rfl
    · exact List.append_ne_nil_of_right_ne_nil _ (List.ne_nil_of_length_eq_add_one hclosing)
    · rw [List.length_append, htwo, ← Nat.add_assoc]
      rfl

/-- Every token stands behind what the tokens before it stand for. -/
theorem stands_scan (lead seen text : List Char) {start : Cursor} (hstart : start = .behind lead) :
    ∀ t ∈ scan start seen text, ∃ before after,
      lead ++ seen.reverse ++ text = before ++ t.raw.text ++ after ∧ t.Stands before := by
  fun_induction scan start seen text generalizing lead with
  | case1 start seen =>
      intro t ht
      subst hstart
      obtain ⟨hraw, hstands⟩ := stands_textTokens ht
      exact ⟨lead, [], by rw [hraw], hstands⟩
  | case2 start seen c rest d hd text raw opening ih =>
      subst hstart
      have hopening : opening = (Cursor.behind lead).after seen.reverse := by simp [opening, text]
      have hsplit : c :: rest = raw ++ d.rest := (token_isDirective hd opening).1
      intro t ht
      rcases List.mem_append.mp ht with htext | ht
      · obtain ⟨hraw, hstands⟩ := stands_textTokens htext
        exact ⟨lead, c :: rest, by rw [hraw], hstands⟩
      · rw [← hopening] at ht
        rcases List.mem_cons.mp ht with rfl | ht
        · rw [hopening, Cursor.after_behind]
          refine ⟨lead ++ seen.reverse, d.rest, ?_, stands_directive hd _⟩
          exact (congrArg _ hsplit).trans (List.append_assoc ..).symm
        · have hafter : opening.after raw = .behind (lead ++ seen.reverse ++ raw) := by
            rw [hopening, Cursor.after_behind, Cursor.after_behind]
          obtain ⟨before, after, hwhole, hstands⟩ := ih _ hafter t ht
          refine ⟨before, after, ?_, hstands⟩
          rw [← hwhole, hsplit, List.reverse_nil, List.append_nil, List.append_assoc _ raw]
  | case3 start seen c rest hnone ih =>
      intro t ht
      obtain ⟨before, after, hwhole, hstands⟩ := ih lead hstart t ht
      refine ⟨before, after, ?_, hstands⟩
      rw [← hwhole, List.reverse_cons, ← List.append_assoc, List.append_assoc _ [c]]
      rfl

/-- Where a token of a template stands. -/
theorem stands_tokens {source : String} {t : Token} (h : t ∈ tokens source) :
    ∃ before after, source.toList = before ++ t.raw.text ++ after ∧ t.Stands before :=
  stands_scan [] [] source.toList rfl t h

/-- The token is the current one. -/
def Progress.At (p : Progress) (t : Token) : Prop := p.range = t.range ∧ p.directive = t.raw

/-- Reading goes on in the same tokens, and at one of them or where it was. -/
def Progress.Ahead (p q : Progress) : Prop :=
  q.tokens <:+ p.tokens ∧
    (q.range = p.range ∧ q.directive = p.directive ∨ ∃ t ∈ p.tokens, q.At t)

theorem Progress.Ahead.refl (p : Progress) : p.Ahead p := ⟨List.suffix_rfl, .inl ⟨rfl, rfl⟩⟩

theorem Progress.Ahead.trans {p q r : Progress} (h : p.Ahead q) (h' : q.Ahead r) : p.Ahead r := by
  obtain ⟨htokens, hplace⟩ := h
  obtain ⟨htokens', hplace'⟩ := h'
  refine ⟨htokens'.trans htokens, ?_⟩
  rcases hplace' with ⟨hrange, hdirective⟩ | ⟨t, ht, hat⟩
  · unfold Progress.At
    rw [hrange, hdirective]
    exact hplace
  · exact .inr ⟨t, htokens.mem ht, hat⟩

theorem keeps_ahead (frame : Frame) : frame.Keeps Progress.Ahead where
  refl := .refl
  trans h h' := h.trans h'
  token p := by
    obtain ⟨tokens, library, scopes, methods, pending, parent, range, directive⟩ := p
    cases tokens with
    | nil => exact ⟨List.suffix_rfl, .inl ⟨rfl, rfl⟩⟩
    | cons t rest =>
        exact ⟨List.suffix_cons t rest, .inr ⟨t, List.mem_cons_self, rfl, rfl⟩⟩
  emit statement p := by
    unfold Progress.emit
    split <;> exact ⟨List.suffix_rfl, .inl ⟨rfl, rfl⟩⟩
  parent t p := by
    unfold Reading.parent
    split <;> exact ⟨List.suffix_rfl, .inl ⟨rfl, rfl⟩⟩
  load path p := by
    unfold Reading.load
    split <;> exact ⟨List.suffix_rfl, .inl ⟨rfl, rfl⟩⟩
  scope h := h
  abandon _ h := h
  define _ _ h := h

theorem token?_some {p q : Progress} {t : Token} (h : Reading.token? p = (.ok (some t), q)) :
    p.tokens = t :: q.tokens ∧ q.At t := by
  obtain ⟨tokens, library, scopes, methods, pending, parent, range, directive⟩ := p
  cases tokens with
  | nil => cases h
  | cons u rest =>
      cases h
      exact ⟨rfl, rfl, rfl⟩

section Sites

variable {frame : Frame} {start : Progress}

theorem ahead_nested (frame : Frame) (bound : Nat) (ends : List String) :
    Reading.Within Progress.Ahead (Reading.nested frame bound ends) :=
  .inScope (keeps_ahead frame) (.upTo (keeps_ahead frame) bound ends)

/-- What is read keeps to the tokens that were left. -/
theorem ahead_of_eq {α : Type} {read : Reading α} (h : Reading.Within Progress.Ahead read)
    {p q : Progress} {result : Except ParseError α} (hread : read p = (result, q)) :
    p.Ahead q := by
  have hahead := h p
  rwa [hread] at hahead

/-- No more tokens are left than the bound allows; a handler goes on in those that were left when it
was called, at the token in front of them. -/
def Point.Behind (all : List Token) : Point → Prop
  | .reading bound _ p => p.tokens.length ≤ bound ∧ p.tokens <:+ all
  | .handling bound called _ _ p =>
      p.tokens.length ≤ bound ∧ called.Ahead p ∧ ∃ t, t :: called.tokens <:+ all ∧ called.At t

theorem Point.Behind.step {all : List Token} {bound : Nat} {called p q : Progress}
    {whole rest next : TagProgram (Option Statement)}
    (h : (Point.handling bound called whole rest p).Behind all) (hahead : p.Ahead q) :
    (Point.handling bound called whole next q).Behind all :=
  ⟨hahead.1.length_le.trans h.1, h.2.1.trans hahead, h.2.2⟩

/-- The tokens of a scope that a handler asks for are among those that are left. -/
theorem Point.Behind.left {all : List Token} {bound : Nat} {called p : Progress}
    {whole rest : TagProgram (Option Statement)}
    (h : (Point.handling bound called whole rest p).Behind all) :
    p.tokens.length ≤ bound ∧ p.tokens <:+ all := by
  obtain ⟨hbound, hcalled, t, hall, -⟩ := h
  exact ⟨hbound, hcalled.1.trans ((List.suffix_cons t _).trans hall)⟩

theorem Visits.behind {point : Point} (h : Visits frame start point) :
    point.Behind start.tokens := by
  induction h with
  | start => exact ⟨le_rfl, List.suffix_rfl⟩
  | @next bound ends p q r token _ htoken hhandle ih =>
      obtain ⟨hbound, hall⟩ := ih
      have htokens := (token?_some htoken).1
      have hrest : q.tokens <:+ p.tokens := ⟨[token], htokens.symm⟩
      have hahead := ahead_of_eq
        (.handle (keeps_ahead frame) (ahead_nested frame bound) ends token) hhandle
      refine ⟨hahead.1.length_le.trans ?_, hahead.1.trans (hrest.trans hall)⟩
      rw [htokens, List.length_cons] at hbound
      exact Nat.le_of_succ_le_succ hbound
  | @call bound ends p q token handler _ htoken _ _ _ ih =>
      obtain ⟨hbound, hall⟩ := ih
      obtain ⟨htokens, hat⟩ := token?_some htoken
      rw [htokens] at hbound hall
      exact ⟨Nat.le_of_succ_le_succ hbound, .refl q, token, hall, hat⟩
  | look _ ih => exact ih
  | emit _ ih => exact ih.step ((keeps_ahead frame).emit _ _)
  | scope _ ih => exact ih.left
  | scopeRead _ hread ih => exact ih.step (ahead_of_eq (ahead_nested frame _ _) hread)
  | method _ _ ih => exact ih.left
  | @methodRead bound _ _ _ _ name ends _ _ _ hread ih =>
      have hmethod :=
        Reading.Within.asMethod (keeps_ahead frame) (ahead_nested frame bound ends) name
      exact ih.step (ahead_of_eq hmethod hread)
  | setParent _ hread ih => exact ih.step (ahead_of_eq ((keeps_ahead frame).parent _) hread)

/-- The tokens that are left are some of all the tokens; while a handler runs, one of them is the
current token. -/
def Point.Among (all : List Token) : Point → Prop
  | .reading _ _ p => p.tokens <:+ all
  | .handling _ _ _ _ p => p.tokens <:+ all ∧ ∃ t ∈ all, p.At t

theorem Visits.among {point : Point} (h : Visits frame start point) :
    point.Among start.tokens := by
  have hbehind := h.behind
  cases point with
  | reading bound ends p => exact hbehind.2
  | handling bound called whole rest p =>
      obtain ⟨-, ⟨htokens, hplace⟩, t, hall, hat⟩ := hbehind
      have hcalled := (List.suffix_cons t _).trans hall
      refine ⟨htokens.trans hcalled, ?_⟩
      rcases hplace with ⟨hrange, hdirective⟩ | ⟨u, hu, hat'⟩
      · exact ⟨t, hall.mem List.mem_cons_self, hrange.trans hat.1, hdirective.trans hat.2⟩
      · exact ⟨u, hcalled.mem hu, hat'⟩

/-- The token that the reader takes is one of all the tokens. -/
theorem Visits.token_mem {bound : Nat} {ends : List String} {p q : Progress} {t : Token}
    (h : Visits frame start (.reading bound ends p))
    (htoken : Reading.token? p = (.ok (some t), q)) : t ∈ start.tokens := by
  apply (show p.tokens <:+ start.tokens from h.among).mem
  rw [(token?_some htoken).1]
  exact List.mem_cons_self

/-- What can be seen of a template while it is read: by the reader, at the token that it has just
taken, and by the handler of a tag. -/
inductive Sees (frame : Frame) (start : Progress) : TagSite → Prop where
  | reader {bound : Nat} {ends : List String} {p q : Progress} {token : Token} :
      Visits frame start (.reading (bound + 1) ends p) →
        Reading.token? p = (.ok (some token), q) → Sees frame start (q.site frame)
  | handler {bound : Nat} {called p : Progress} {whole rest : TagProgram (Option Statement)} :
      Visits frame start (.handling bound called whole rest p) → Sees frame start (p.site frame)

theorem Sees.current {site : TagSite} (h : Sees frame start site) :
    ∃ t ∈ start.tokens, site.range = t.range ∧ site.directive = t.raw := by
  cases h with
  | reader hvisits htoken =>
      exact ⟨_, hvisits.token_mem htoken, (token?_some htoken).2⟩
  | handler hvisits =>
      obtain ⟨-, t, ht, hat⟩ := hvisits.among
      exact ⟨t, ht, hat⟩

/-- Whatever is read, and whatever the handlers do, the current directive stands in the template
behind some text, and the error of an expression or of arguments that are cut out of it points at
the token or the character of the template that is unexpected.  The content of the directive is
such a piece, and so are the arguments of a tag that has any. -/
theorem malformed_points_at_offender {library : Library} {source : String} {site : TagSite}
    (h : Sees frame { tokens := tokens source, library } site) :
    ∃ t ∈ tokens source, ∃ before after,
      site.range = t.range ∧ site.directive = t.raw ∧
      source.toList = before ++ t.raw.text ++ after ∧
      t.range = Range.behind before t.raw.text ∧
      (∃ inside, t.content.CutFrom t.raw inside) ∧
      ((∃ inside, t.content.splitBlank.2.CutFrom t.raw inside) ∨
        t.content.splitBlank.2.text = []) ∧
      ∀ slice inside, slice.CutFrom t.raw inside → ∀ e,
        site.expression slice = .error e ∨ site.arguments slice = .error e →
          ∃ cause range, e = .malformedExpression slice.toString cause range ∧
            site.Points (before ++ inside) slice.text cause range := by
  obtain ⟨t, ht, hrange, hdirective⟩ := h.current
  obtain ⟨before, after, hsource, hstands⟩ := stands_tokens ht
  obtain ⟨inside, hcontent⟩ := hstands.content
  obtain ⟨_, -, hstart⟩ := hcontent.start
  refine ⟨t, ht, before, after, hrange, hdirective, hsource, hstands.range, ⟨inside, hcontent⟩,
    ?_, ?_⟩
  · rcases Excerpt.CutFrom.splitBlank hstart with ⟨inner, hargs⟩ | hnone
    · exact .inl ⟨_, hargs.trans hcontent⟩
    · exact .inr hnone
  · intro slice inside hslice e he
    have hplace : site.range.start = Position.after {} before := by rw [hrange, hstands.range]; rfl
    rw [← hdirective] at hslice
    exact TagSite.malformed_points hplace hslice he

end Sites

namespace OffenderWitness

/-- A directive of two lines, in the second of which a parenthesis is closed that is not open. -/
def source : String := "\x7b\x7b a +\n   ) \x7d\x7d"

def frame : Frame := ⟨"page", Resolver.ofTable [], []⟩

def directive : Token where
  kind := .var
  content := ⟨"a +\n   )".toList, some 3⟩
  raw := ⟨source.toList, some 0⟩
  range := ⟨⟨1, 1⟩, ⟨2, 8⟩⟩

theorem tokens_source : tokens source = [directive] := by decide +kernel

/-- Where the directive is current. -/
def current : Progress where
  tokens := []
  library := {}
  scopes := [[]]
  range := directive.range
  directive := directive.raw

theorem sees_current :
    Sees frame { tokens := tokens source, library := {} } (current.site frame) := by
  rw [tokens_source]
  exact .reader .start rfl

def cause : ExprError := .unexpectedToken ⟨.mark .rightParen, 7, 8, ⟨⟨2, 4⟩, ⟨2, 5⟩⟩⟩

theorem compile?_content : Expression.compile? directive.content.text = .error cause :=
  Expr.error_of_map (f := fun _ => ()) (by decide +kernel)

theorem expression_eq_error :
    (current.site frame).expression directive.content =
      .error (.malformedExpression "a +\n   )" cause ⟨⟨2, 4⟩, ⟨2, 5⟩⟩) := by
  unfold TagSite.expression
  rw [compile?_content]
  rfl

/-- The directive is the whole template. -/
theorem nothing_before {before after : List Char}
    (h : source.toList = before ++ directive.raw.text ++ after) : before = [] := by
  have hlength := congrArg List.length h
  rw [List.length_append, List.length_append] at hlength
  change source.toList.length = before.length + source.toList.length + after.length at hlength
  exact List.eq_nil_of_length_eq_zero (by omega)

/-- The error points at the fourth column of the second line of the template. -/
theorem malformed_points_at_parenthesis :
    ∃ slice inside, slice.CutFrom directive.raw inside ∧
      ∃ cause, (current.site frame).expression slice =
        .error (.malformedExpression "a +\n   )" cause ⟨⟨2, 4⟩, ⟨2, 5⟩⟩) ∧
      (current.site frame).Points inside slice.text cause ⟨⟨2, 4⟩, ⟨2, 5⟩⟩ := by
  obtain ⟨t, ht, before, after, -, hdirective, hsource, -, ⟨inside, hcontent⟩, -, herrors⟩ :=
    malformed_points_at_offender sees_current
  rw [tokens_source, List.mem_singleton] at ht
  subst ht
  obtain rfl := nothing_before hsource
  obtain ⟨cause, range, he, hpoints⟩ :=
    herrors directive.content inside hcontent _ (.inl expression_eq_error)
  cases he
  exact ⟨directive.content, inside, hcontent, _, expression_eq_error, hpoints⟩

end OffenderWitness

end Template

end Stencil
