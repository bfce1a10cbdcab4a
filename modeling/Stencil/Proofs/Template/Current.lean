/-
The current directive while scopes are read inside one another.  The last token that reading took
is the current one, also behind a scope that a handler asked for: what is current then is the end
tag of the scope and not the directive whose handler goes on.
-/
import Stencil.Proofs.Template.Directive
import Stencil.Proofs.Template.Malformed
import Stencil.Proofs.Text.Words
import Stencil.Tag.Inline

namespace Stencil
namespace Template

/-- The tokens stand one behind another, the first of them behind `lead`. -/
def StandInRow (lead : List Char) : List Token → Prop
  | [] => True
  | t :: rest => t.Stands lead ∧ StandInRow (lead ++ t.raw.text) rest

theorem standInRow_append {lead : List Char} {first rest : List Token} :
    StandInRow lead (first ++ rest) ↔
      StandInRow lead first ∧ StandInRow (lead ++ rawText first) rest := by
  induction first generalizing lead with
  | nil => simp [StandInRow, rawText]
  | cons t first ih =>
      simp only [List.cons_append, StandInRow, ih, rawText_cons, List.append_assoc, and_assoc]

theorem standInRow_textTokens (lead text : List Char) :
    StandInRow lead (textTokens (.behind lead) text) ∧
      rawText (textTokens (.behind lead) text) = text := by
  by_cases htext : text = []
  · subst htext
    exact ⟨trivial, rfl⟩
  · obtain ⟨c, rest, rfl⟩ := List.exists_cons_of_ne_nil htext
    have hmem : _ ∈ textTokens (.behind lead) (c :: rest) := List.mem_singleton.mpr rfl
    exact ⟨⟨(stands_textTokens hmem).2, trivial⟩, List.append_nil _⟩

/-- Every step of the scan puts its tokens behind those before them. -/
theorem standInRow_scan (lead seen text : List Char) {start : Cursor}
    (hstart : start = .behind lead) : StandInRow lead (scan start seen text) := by
  fun_induction scan start seen text generalizing lead with
  | case1 start seen =>
      subst hstart
      exact (standInRow_textTokens lead seen.reverse).1
  | case2 start seen c rest d hd text raw opening ih =>
      subst hstart
      have hopening : opening = .behind (lead ++ seen.reverse) := by
        rw [← Cursor.after_behind]
        simp [opening, text]
      have hafter : opening.after raw = .behind (lead ++ seen.reverse ++ raw) := by
        rw [hopening, Cursor.after_behind]
      obtain ⟨htext, hraw⟩ := standInRow_textTokens lead seen.reverse
      have hstands := stands_directive hd (lead ++ seen.reverse)
      have hrest := ih _ hafter
      rw [hopening] at hrest
      rw [standInRow_append, hraw, Cursor.after_behind]
      exact ⟨htext, hstands, hrest⟩
  | case3 start seen c rest hnone ih => exact ih lead hstart

/-- A token of a template stands behind the text of the tokens before it. -/
theorem stands_of_tokens_eq {source : String} {before after : List Token} {t : Token}
    (h : tokens source = before ++ t :: after) : t.Stands (rawText before) := by
  have hrow : StandInRow [] (tokens source) := standInRow_scan [] [] source.toList rfl
  rw [h, standInRow_append] at hrow
  exact hrow.2.1

/-- Tokens at two places of a template have two ranges. -/
theorem range_ne_of_tokens_eq {source : String} {before between after : List Token} {t u : Token}
    (h : tokens source = before ++ t :: between ++ u :: after) : u.range ≠ t.range := by
  have hsecond := stands_of_tokens_eq h
  rw [List.append_assoc, List.cons_append] at h
  have hfirst := stands_of_tokens_eq h
  have hraw : t.raw.text ≠ [] := by
    apply (tokenises_tokens source).raw_ne_nil
    rw [h]
    exact List.mem_append_right _ List.mem_cons_self
  have hplace : (Position.after {} (rawText before)).Before
      (Position.after {} (rawText (before ++ t :: between))) := by
    rw [rawText_append before, Position.after_append]
    apply Position.before_after
    rw [rawText_cons]
    exact List.append_ne_nil_of_left_ne_nil hraw _
  intro heq
  rw [hfirst.range, hsecond.range] at heq
  exact hplace.ne (congrArg Range.start heq).symm

namespace Progress

/-- The current directive: its range and its text. -/
def current (p : Progress) : Range × Excerpt := (p.range, p.directive)

/-- Reading went from `p` to `q` through the tokens `read`; the last of them is current. -/
structure Reads (p : Progress) (read : List Token) (q : Progress) : Prop where
  tokens : p.tokens = read ++ q.tokens
  current : q.current = read.foldl (fun _ t => (t.range, t.raw)) p.current

namespace Reads

variable {p q r : Progress} {first rest : List Token} {t : Token}

theorem refl (p : Progress) : p.Reads [] p := ⟨rfl, rfl⟩

theorem trans (h : p.Reads first q) (h' : q.Reads rest r) : p.Reads (first ++ rest) r := by
  constructor
  · rw [h.tokens, h'.tokens, List.append_assoc]
  · rw [h'.current, h.current, List.foldl_append]

theorem at_last (h : p.Reads (first ++ [t]) q) : q.At t := by
  have hcurrent := h.current
  rw [List.foldl_append] at hcurrent
  exact Prod.mk.inj hcurrent

theorem of_nil (h : p.Reads [] q) : q.current = p.current := h.current

end Reads

end Progress

/-- Every reading goes through the tokens that it takes. -/
theorem keeps_reads (frame : Frame) : frame.Keeps fun p q => ∃ read, p.Reads read q where
  refl p := ⟨[], .refl p⟩
  trans := by
    rintro p q r ⟨first, hfirst⟩ ⟨rest, hrest⟩
    exact ⟨first ++ rest, hfirst.trans hrest⟩
  token p := by
    obtain ⟨tokens, library, scopes, methods, pending, parent, range, directive⟩ := p
    rcases tokens with _ | ⟨t, rest⟩
    · exact ⟨[], .refl _⟩
    · exact ⟨[t], rfl, rfl⟩
  emit statement p := by
    unfold Progress.emit
    split <;> exact ⟨[], rfl, rfl⟩
  parent t p := by
    unfold Reading.parent
    split <;> exact ⟨[], rfl, rfl⟩
  load path p := by
    unfold Reading.load
    split <;> exact ⟨[], rfl, rfl⟩
  scope := by
    rintro p q ⟨read, htokens, hcurrent⟩
    exact ⟨read, htokens, hcurrent⟩
  abandon := by
    rintro name p q - ⟨read, htokens, hcurrent⟩
    exact ⟨read, htokens, hcurrent⟩
  define := by
    rintro name p q body - ⟨read, htokens, hcurrent⟩
    exact ⟨read, htokens, hcurrent⟩

namespace Reading

variable {frame : Frame} {ends : List String} {p q : Progress} {closing : String}

/-- Only an end tag closes a scope. -/
theorem handle_some {scope : List String → Reading (List Statement × String)} {token : Token}
    (h : handle frame scope ends token p = (.ok (some closing), q)) :
    (token.kind = .block ∧ token.tagName = closing ∧ closing ∈ ends) ∧ q = p := by
  unfold handle at h
  rcases hkind : token.kind with _ | _ | _ | _ | _
  · rw [hkind] at h
    cases h
  · rw [hkind] at h
    obtain ⟨_, r, -, h⟩ := @ok_of_bind _ _ get _ _ _ _ h
    obtain ⟨e, r, -, h⟩ := ok_of_bind h
    cases h
  · rw [hkind] at h
    change (if ends.contains token.tagName = true then pure (some token.tagName) else
      tag frame scope token.content.splitBlank.1 token.content.splitBlank.2 >>=
        fun _ => pure none : Reading (Option String)) p = _ at h
    by_cases hends : ends.contains token.tagName = true
    · rw [if_pos hends] at h
      cases h
      exact ⟨⟨rfl, rfl, List.contains_iff_mem.mp hends⟩, rfl⟩
    · rw [if_neg hends] at h
      obtain ⟨_, r, -, h⟩ := ok_of_bind h
      cases h
  · rw [hkind] at h
    cases h
  · rw [hkind] at h
    obtain ⟨_, r, -, h⟩ := ok_of_bind h
    cases h

/-- The tokens of a scope: all that are left, or those up to the end tag that closes it. -/
def Closes (ends : List String) (read : List Token) (closing : String) (q : Progress) : Prop :=
  (ends = [] ∧ q.tokens = []) ∨
    ∃ front closer, read = front ++ [closer] ∧ closer.kind = .block ∧
      closer.tagName = closing ∧ closing ∈ ends

theorem token?_none (h : token? p = (.ok none, q)) : p.tokens = [] ∧ q = p := by
  unfold token? at h
  split at h
  · next hnil =>
      cases h
      exact ⟨hnil, rfl⟩
  · cases h

theorem closes_atEnd (htokens : p.tokens = []) (h : atEnd ends p = (.ok closing, q)) :
    ∃ read, p.Reads read q ∧ Closes ends read closing q := by
  unfold atEnd at h
  by_cases hends : ends.isEmpty = true
  · rw [if_pos hends] at h
    cases h
    exact ⟨[], .refl p, .inl ⟨List.isEmpty_iff.mp hends, htokens⟩⟩
  · rw [if_neg hends] at h
    cases h

/-- The run: every token before the last leaves the scope open. -/
theorem closes_upTo {bound : Nat} (hbound : p.tokens.length ≤ bound)
    (h : upTo frame bound ends p = (.ok closing, q)) :
    ∃ read, p.Reads read q ∧ Closes ends read closing q := by
  induction bound generalizing p with
  | zero => exact closes_atEnd (List.eq_nil_of_length_eq_zero (Nat.le_zero.mp hbound)) h
  | succ bound ih =>
      obtain ⟨found, r, htoken, hhandling⟩ := ok_of_bind h
      rcases found with _ | t
      · obtain ⟨htokens, rfl⟩ := token?_none htoken
        exact closes_atEnd htokens hhandling
      · obtain ⟨htokens, hat⟩ := token?_some htoken
        have hfirst : p.Reads [t] r := ⟨htokens, congrArg₂ Prod.mk hat.1 hat.2⟩
        obtain ⟨found, m, hhandle, hrest⟩ := ok_of_bind hhandling
        rcases found with _ | found
        · have hkeeps := keeps_reads frame
          have hnested : ∀ ends, Within _ (nested frame bound ends) :=
            fun ends => .inScope hkeeps (.upTo hkeeps bound ends)
          obtain ⟨between, hbetween⟩ := Within.handle hkeeps hnested ends t r
          rw [hhandle] at hbetween
          dsimp only at hbetween
          have hlength := congrArg List.length (hfirst.trans hbetween).tokens
          rw [List.length_append, List.length_append, List.length_singleton] at hlength
          obtain ⟨read, hread, hcloses⟩ := ih (show m.tokens.length ≤ bound by omega) hrest
          refine ⟨_, (hfirst.trans hbetween).trans hread, ?_⟩
          rcases hcloses with hall | ⟨front, closer, rfl, hcloser⟩
          · exact .inl hall
          · exact .inr ⟨_, closer, (List.append_assoc ..).symm, hcloser⟩
        · cases hrest
          obtain ⟨hcloser, rfl⟩ := handle_some hhandle
          exact ⟨[t], hfirst, .inr ⟨[], t, rfl, hcloser⟩⟩

/-- What a handler has read when a scope that it asked for was read. -/
theorem closes_nested {bound : Nat} {body : List Statement} (hbound : p.tokens.length ≤ bound)
    (h : nested frame bound ends p = (.ok (body, closing), q)) :
    ∃ read, p.Reads read q ∧ Closes ends read closing q := by
  rcases hread : upTo frame bound ends p.push with ⟨e | found, r⟩
  · unfold nested inScope at h
    rw [hread] at h
    cases h
  · unfold nested inScope at h
    rw [hread] at h
    cases h
    obtain ⟨read, hreads, hcloses⟩ := closes_upTo (p := p.push) hbound hread
    exact ⟨read, ⟨hreads.tokens, hreads.current⟩, hcloses⟩

theorem closes_asMethod {bound : Nat} {name : String} (hbound : p.tokens.length ≤ bound)
    (h : asMethod name (nested frame bound ends) p = (.ok closing, q)) :
    ∃ read, p.Reads read q ∧ Closes ends read closing q := by
  unfold asMethod at h
  split at h
  · cases h
  · rcases hread : nested frame bound ends { p with pending := name :: p.pending }
      with ⟨e | ⟨body, found⟩, r⟩
    · rw [hread] at h
      cases h
    · rw [hread] at h
      cases h
      obtain ⟨read, hreads, hcloses⟩ :=
        closes_nested (p := { p with pending := name :: p.pending }) hbound hread
      exact ⟨read, ⟨hreads.tokens, hreads.current⟩, hcloses⟩

end Reading

section Handlers

variable {frame : Frame}

/-- A piece that was cut out in front of an excerpt is looked for by its text. -/
theorem origin?_eq_of_before {site : TagSite} {slice : Excerpt} {first start : Nat}
    (hsite : site.directive.start = some first) (hslice : slice.start = some start)
    (h : start < first) :
    site.origin? slice = none ∨
      ∃ inside, inside ++ slice.text <+: site.directive.text ∧
        site.origin? slice = some ((Position.after {} inside).offsetBy site.range.start) := by
  have hplace : site.directive.placeIn? slice = findWord slice.text site.directive.text := by
    simp [Excerpt.placeIn?, hsite, hslice, Nat.not_le.mpr h]
  unfold TagSite.origin?
  rw [hplace]
  rcases hfind : findWord slice.text site.directive.text with _ | place
  · exact .inl rfl
  · obtain ⟨k, hk, hoccurs, -⟩ := findFrom_eq_some hfind
    obtain rfl : place = k := hk.trans (Nat.zero_add k)
    obtain ⟨rest, hrest⟩ := hoccurs
    refine .inr ⟨site.directive.text.take place, ⟨rest, ?_⟩, rfl⟩
    rw [List.append_assoc, hrest, List.take_append_drop]

/-- The errors that a handler raises where `q` stands, be it about a piece of its own directive,
are about the directive `t`: they are put at all of it, or at a copy of the piece inside it. -/
structure Progress.Accuses (frame : Frame) (q : Progress) (own : Excerpt) (t : Token) : Prop where
  invalidArguments : ∀ tag reason,
    (q.site frame).invalidArguments tag reason = .invalidArguments tag reason t.range
  parentAlreadySet : q.parent.isSome → ∀ parent,
    Reading.parent parent q = (.error (.parentAlreadySet t.range), q)
  duplicateMethod : ∀ name, q.isTaken name = true → ∀ read,
    Reading.asMethod name read q = (.error (.duplicateMethod name t.range), q)
  malformed : ∀ slice inside, slice.CutFrom own inside → slice.text ≠ [] → ∀ cause,
    (q.site frame).rangeOf slice cause = t.range ∨
      ∃ copied range, copied ++ slice.text <+: t.raw.text ∧ cause.range? = some range ∧
        (q.site frame).rangeOf slice cause =
          range.offsetBy ((Position.after {} copied).offsetBy t.range.start)

theorem Progress.At.accuses {q : Progress} {own : Excerpt} {t : Token} {first place : Nat}
    (h : q.At t) (hown : own.start = some place) (ht : t.raw.start = some first)
    (hbefore : place + own.text.length ≤ first) : q.Accuses frame own t where
  invalidArguments tag reason := congrArg _ h.1
  parentAlreadySet hparent parent := by
    rw [Reading.parent, if_pos hparent, h.1]
  duplicateMethod name htaken read := by
    rw [Reading.asMethod, if_pos htaken, h.1]
  malformed := by
    intro slice inside hslice hne cause
    obtain ⟨_, hstart, hsliceStart⟩ := hslice.start
    rw [hown] at hstart
    cases hstart
    have hlength := hslice.text.length_le
    rw [List.length_append] at hlength
    have hpos := List.length_pos_iff.mpr hne
    have hwhole : (q.site frame).range = t.range := h.1
    have hraw : (q.site frame).directive = t.raw := h.2
    have hsite : (q.site frame).directive.start = some first := by rw [hraw, ht]
    rcases origin?_eq_of_before hsite hsliceStart (by omega) with hnone | ⟨copied, hcopied, hsome⟩
    · left
      rw [TagSite.rangeOf, hnone, hwhole]
      cases cause.range? <;> rfl
    · rcases hrange : cause.range? with _ | range
      · left
        rw [TagSite.rangeOf, hrange, hwhole]
      · right
        rw [hraw] at hcopied
        rw [hwhole] at hsome
        refine ⟨copied, range, hcopied, rfl, ?_⟩
        rw [TagSite.rangeOf, hrange, hsome]

/-- When a scope that a handler asked for has been read, be it the body of a method, the current
directive is the last that was read: the end tag that closes the scope, or the last token of the
template.  It is the directive of the handler only if no token was left to read and no other
scope had been read; the errors that the handler raises from then on are about the end tag, and
not about its own directive. -/
theorem current_behind_scope {library : Library} {source : String} {bound : Nat}
    {called p q : Progress} {whole rest : TagProgram (Option Statement)} {ends : List String}
    {closing : String}
    (hvisits : Visits frame { tokens := tokens source, library }
      (.handling bound called whole rest p))
    (hread : (∃ body, Reading.nested frame bound ends p = (.ok (body, closing), q)) ∨
      ∃ name, Reading.asMethod name (Reading.nested frame bound ends) p = (.ok closing, q)) :
    ∃ read, p.tokens = read ++ q.tokens ∧ Reading.Closes ends read closing q ∧
      (q.range = called.range ↔ read = [] ∧ p.range = called.range) ∧
      ∀ front last, read = front ++ [last] →
        q.At last ∧ q.Accuses frame called.directive last := by
  obtain ⟨hbound, ⟨⟨passed, hpassed⟩, -⟩, t, ⟨before, hall⟩, hcalled⟩ := hvisits.behind
  obtain ⟨read, hreads, hcloses⟩ : ∃ read, p.Reads read q ∧ Reading.Closes ends read closing q := by
    rcases hread with ⟨body, hread⟩ | ⟨name, hread⟩
    · exact Reading.closes_nested hbound hread
    · exact Reading.closes_asMethod hbound hread
  have hlast : ∀ front last, read = front ++ [last] →
      tokens source = before ++ t :: (passed ++ front) ++ last :: q.tokens := by
    rintro front last rfl
    have hsource : before ++ t :: called.tokens = tokens source := hall
    rw [← hsource, ← hpassed, hreads.tokens]
    simp
  refine ⟨read, hreads.tokens, hcloses, ?_, ?_⟩
  · rcases List.eq_nil_or_concat read with rfl | ⟨front, last, hfront⟩
    · rw [show q.range = p.range from congrArg Prod.fst hreads.of_nil]
      simp
    · rw [List.concat_eq_append] at hfront
      have hne := range_ne_of_tokens_eq (hlast front last hfront)
      subst hfront
      rw [hreads.at_last.1, hcalled.1]
      simp [hne]
  · intro front last hfront
    have hsource := hlast front last hfront
    have hlastStands := stands_of_tokens_eq hsource
    rw [List.append_assoc, List.cons_append] at hsource
    have hown := stands_of_tokens_eq hsource
    subst hfront
    refine ⟨hreads.at_last, hreads.at_last.accuses (hcalled.2 ▸ hown.start) hlastStands.start ?_⟩
    rw [hcalled.2, rawText_append, rawText_cons]
    simp only [List.length_append]
    omega

end Handlers

namespace LateExample

/-- A tag that reads its arguments behind its body, and cannot. -/
def source : String := "\x7b%late )%\x7d\x7b%endlate%\x7d"

def frame : Frame := ⟨"page", Resolver.ofTable [], []⟩

def library : Library := Library.addTag "late" Tag.late {}

def opening : Token where
  kind := .block
  content := ⟨"late )".toList, some 2⟩
  raw := ⟨"\x7b%late )%\x7d".toList, some 0⟩
  range := ⟨⟨1, 1⟩, ⟨1, 11⟩⟩

def closer : Token where
  kind := .block
  content := ⟨"endlate".toList, some 12⟩
  raw := ⟨"\x7b%endlate%\x7d".toList, some 10⟩
  range := ⟨⟨1, 11⟩, ⟨1, 22⟩⟩

theorem tokens_source : tokens source = [opening, closer] := by decide +kernel

/-- Where the handler is called. -/
def called : Progress where
  tokens := [closer]
  library := library
  scopes := [[]]
  range := opening.range
  directive := opening.raw

/-- Where it goes on. -/
def behind : Progress :=
  { called with tokens := [], range := closer.range, directive := closer.raw }

def program : TagProgram (Option Statement) := Tag.late opening.content.splitBlank.2

theorem visits_called : Visits frame { tokens := tokens source, library }
    (.handling 1 called program program called) := by
  rw [tokens_source]
  exact .call .start rfl rfl rfl rfl

theorem nested_called :
    Reading.nested frame 1 ["endlate"] called = (.ok ([], "endlate"), behind) := by
  rfl

/-- Behind the body the end tag is current, and the handler's errors are about it. -/
theorem current_behind_body :
    behind.range ≠ called.range ∧ behind.Accuses frame opening.raw closer := by
  obtain ⟨read, htokens, -, hrange, hlast⟩ :=
    current_behind_scope visits_called (.inl ⟨[], nested_called⟩)
  have hread : read = [closer] := (List.append_nil read).symm.trans htokens.symm
  subst hread
  refine ⟨?_, (hlast [] closer rfl).2⟩
  intro heq
  cases (hrange.mp heq).1

/-- The directive of a handler does not become current again when a scope has been read. -/
theorem not_current_again :
    ¬ ∀ {frame : Frame} {library : Library} {source : String} {bound : Nat}
      {called p q : Progress} {whole rest : TagProgram (Option Statement)} {ends : List String}
      {body : List Statement} {closing : String},
      Visits frame { tokens := tokens source, library } (.handling bound called whole rest p) →
        Reading.nested frame bound ends p = (.ok (body, closing), q) →
          q.range = called.range := by
  intro hall
  have hrange : behind.range = called.range := hall visits_called nested_called
  revert hrange
  decide

/-- The parenthesis stands in the first directive, and the error is put at the second. -/
example : (define frame library source).mapError (·.range) = .error closer.range :=
  Expr.error_of_map (f := fun _ => ()) (by decide +kernel)

end LateExample

end Template
end Stencil
