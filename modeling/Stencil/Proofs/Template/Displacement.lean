/-
A template behind other text.  Its tokens are the same, further on; and what reads them without
looking at places cannot tell the difference.
-/
import Stencil.Proofs.Position
import Stencil.Proofs.Template.Relocation
import Stencil.Proofs.Template.Tokenisation

namespace Stencil
namespace Template

/-- The cursor in a text that goes on at `origin`. -/
def Cursor.displace (c origin : Cursor) : Cursor :=
  ⟨c.offset + origin.offset, c.position.offsetBy origin.position⟩

/-- The token of a text that goes on at `origin`. -/
def Token.displace (origin : Cursor) (t : Token) : Token where
  kind := t.kind
  content := t.content.shift origin.offset
  raw := t.raw.shift origin.offset
  range := t.range.offsetBy origin.position

variable {origin start : Cursor}

theorem Cursor.displace_default (origin : Cursor) : Cursor.displace {} origin = origin := by
  obtain ⟨offset, position⟩ := origin
  simp [Cursor.displace, Position.default_offsetBy]

theorem Cursor.after_append (c : Cursor) (first rest : List Char) :
    c.after (first ++ rest) = (c.after first).after rest := by
  unfold Cursor.after
  rw [List.length_append, Position.after_append, Nat.add_assoc]

theorem Cursor.after_displace (hstart : start.position.Proper) (text : List Char) :
    (start.displace origin).after text = (start.after text).displace origin := by
  unfold Cursor.after Cursor.displace
  rw [Position.after_offsetBy hstart, Nat.add_right_comm]

theorem textTokens_displace (hstart : start.position.Proper) (text : List Char) :
    textTokens (start.displace origin) text =
      (textTokens start text).map (Token.displace origin) := by
  cases text with
  | nil => rfl
  | cons c rest =>
      change [Token.mk _ _ _ _] = [Token.mk _ _ _ _]
      rw [Cursor.after_displace hstart]
      rfl

theorem Directive.token_displace (d : Directive) (hstart : start.position.Proper)
    (raw : List Char) :
    d.token (start.displace origin) raw = (d.token start raw).displace origin := by
  have hcontent : Excerpt.trim ⟨d.body, some (start.offset + origin.offset + 2)⟩ =
      (Excerpt.trim ⟨d.body, some (start.offset + 2)⟩).shift origin.offset := by
    rw [← Excerpt.trim_shift, Nat.add_right_comm]
    rfl
  change Token.mk _ _ _ _ = Token.mk _ _ _ _
  rw [Cursor.after_displace hstart]
  exact congrArg (Token.mk d.kind · _ _) hcontent

/-- The scan of a text does not depend on where it begins, but for the places it gives. -/
theorem scan_displace (hstart : start.position.Proper) (seen text : List Char) :
    scan (start.displace origin) seen text =
      (scan start seen text).map (Token.displace origin) := by
  fun_induction scan start seen text with
  | case1 start seen =>
      rw [scan]
      exact textTokens_displace hstart _
  | case2 start seen c rest d hd text raw opening ih =>
      have hopening : start.after seen.reverse = opening := by simp [opening, text]
      have hproper : opening.position.Proper := hstart.after _
      rw [scan_of_directive? hd, Cursor.after_displace hstart, hopening,
        Cursor.after_displace hproper, Directive.token_displace d hproper,
        textTokens_displace hstart, ih (hproper.after _), List.map_append, List.map_cons, hopening]
  | case3 start seen c rest hnone ih =>
      rw [scan_of_directive?_eq_none hnone]
      exact ih hstart

theorem proper_textTokens (hstart : start.position.Proper) (text : List Char) :
    ∀ t ∈ textTokens start text, t.range.start.Proper := by
  cases text with
  | nil => exact nofun
  | cons c rest => exact List.forall_mem_singleton.mpr hstart

theorem proper_scan (hstart : start.position.Proper) (seen text : List Char) :
    ∀ t ∈ scan start seen text, t.range.start.Proper := by
  fun_induction scan start seen text with
  | case1 start seen => exact proper_textTokens hstart _
  | case2 start seen c rest d hd text raw opening ih =>
      have hopening : start.after seen.reverse = opening := by simp [opening, text]
      have hproper : opening.position.Proper := hstart.after _
      intro t ht
      dsimp only at ht
      rw [hopening] at ht
      rcases List.mem_append.mp ht with hmem | hmem
      · exact proper_textTokens hstart _ t hmem
      · rcases List.mem_cons.mp hmem with rfl | hmem
        · exact hproper
        · exact ih (hproper.after _) t hmem
  | case3 start seen c rest hnone ih => exact ih hstart

theorem proper_tokens (source : String) : ∀ t ∈ tokens source, t.range.start.Proper :=
  proper_scan Position.proper_default [] source.toList

end Template

/-- An excerpt stands in another wherever both stand. -/
theorem Excerpt.placeIn?_shift (whole source : Excerpt) (count : Nat) :
    (whole.shift count).placeIn? (source.shift count) = whole.placeIn? source := by
  unfold placeIn?
  rw [text_shift, text_shift]
  rcases whole with ⟨text, first⟩
  rcases source with ⟨text', place⟩
  cases first with
  | none => rfl
  | some first =>
      cases place with
      | none => rfl
      | some place =>
          have hstart : first + count ≤ place + count ↔ first ≤ place := by omega
          have hstop : place + count + text'.length ≤ first + count + text.length ↔
              place + text'.length ≤ first + text.length := by omega
          have hsub : place + count - (first + count) = place - first := by omega
          simp [shift, hstart, hstop, hsub]

namespace Relocation

open Template

variable {origin : Cursor} {made : Range → Prop}

theorem origin?_of_shift {site site' : TagSite} (hstart : site.range.start.Proper)
    (hrange : site'.range = site.range.offsetBy origin.position)
    (hdirective : site'.directive = site.directive.shift origin.offset) (source : Excerpt) :
    site'.origin? (source.shift origin.offset) =
      (site.origin? source).map (·.offsetBy origin.position) := by
  unfold TagSite.origin?
  rw [hdirective, Excerpt.placeIn?_shift, hrange, Option.map_map]
  congr 1
  funext place
  exact (Position.offsetBy_offsetBy _ hstart _).symm

theorem proper_of_origin? {site : TagSite} (hstart : site.range.start.Proper) {source : Excerpt}
    {place : Position} (h : site.origin? source = some place) : place.Proper := by
  obtain ⟨count, -, rfl⟩ := Option.map_eq_some_iff.mp h
  exact .offsetBy hstart (Position.proper_default.after _)

/-- A reading of a text that goes on at `origin`.  The ranges of errors are moved, but for those
that a handler has made itself. -/
def behind (origin : Cursor) (made : Range → Prop) : Relocation where
  offset := origin.offset
  here r d r' d' :=
    r.start.Proper ∧ r' = r.offsetBy origin.position ∧ d' = d.shift origin.offset
  range r r' := r' = r.offsetBy origin.position ∨ made r ∧ r' = r
  range_of_here h := .inl h.2.1
  stop_of_here := by
    rintro r d r' d' ⟨-, rfl, -⟩
    exact .inl rfl
  rangeOf_of_here := by
    rintro site site' ⟨hstart, hrange, hdirective⟩ source cause
    left
    unfold TagSite.rangeOf
    rw [origin?_of_shift hstart hrange hdirective]
    cases cause.range? with
    | none => exact hrange
    | some range =>
        cases hplace : site.origin? source with
        | none => exact hrange
        | some place =>
            have hproper := proper_of_origin? hstart hplace
            exact (range.offsetBy_offsetBy hproper origin.position).symm

theorem streams_behind {all : List Token} (hall : ∀ t ∈ all, t.range.start.Proper) :
    (behind origin made).Streams all (all.map (Token.displace origin)) := by
  induction all with
  | nil => exact .nil
  | cons t rest ih =>
      obtain ⟨ht, hrest⟩ := List.forall_mem_cons.mp hall
      exact .cons ⟨rfl, rfl, ht, rfl, rfl⟩ (ih hrest)

end Relocation

namespace Template

variable {origin : Cursor} {made : Range → Prop}

namespace Gathering

/-- At the top of a template nothing depends on what has been read last. -/
theorem definition_upTo_at (frame : Frame) (bound : Nat) (pending : List String) (place : Place)
    (range : Range) (directive : Excerpt) :
    (upTo frame bound [] pending { place with range, directive }).definition frame =
      (upTo frame bound [] pending place).definition frame := by
  obtain ⟨tokens, library, methods, parent, _, _⟩ := place
  cases tokens with
  | nil =>
      rw [upTo_of_nil _ rfl, upTo_of_nil _ rfl]
      rfl
  | cons t rest =>
      cases bound with
      | zero => rfl
      | succ bound =>
          rw [upTo_of_cons _ rfl, upTo_of_cons _ rfl]
          rfl

end Gathering

/-- A template behind other text defines what it defines by itself. -/
theorem results_displace (frame : Frame) {library : Library}
    (hlibrary : library.Relocatable (.behind origin made))
    (hresolver : frame.resolver.Relocatable (.behind origin made)) {all : List Token}
    (hall : ∀ t ∈ all, t.range.start.Proper) :
    (Relocation.behind origin made).Results (defineTokens frame library all)
      (defineTokens frame library (all.map (Token.displace origin))) := by
  let moved := all.map (Token.displace origin)
  -- The other reading is taken to start behind its origin, where it would stand in the whole text.
  let start : Place :=
    ⟨moved, library, [], none, Range.offsetBy {} origin.position,
      (Excerpt.ofString "").shift origin.offset⟩
  have hstart : (Gathering.upTo frame moved.length [] [] start).definition frame =
      (Gathering.upTo frame moved.length [] [] (.before library moved)).definition frame :=
    Gathering.definition_upTo_at frame moved.length [] (.before library moved) _ _
  have hplaces : (Relocation.behind origin made).Places (.before library all) start :=
    { tokens := Relocation.streams_behind hall
      here := ⟨Position.proper_default, rfl, rfl⟩
      library := rfl
      methods := rfl
      parent := rfl
      relocatable := hlibrary }
  have hread := Relocation.Gatherings.upTo hresolver all.length moved.length [] [] _ _ hplaces
    (Nat.le_refl _) (Nat.le_refl _)
  have hresults := hread.definition frame
  rw [hstart] at hresults
  rw [defineTokens_eq_gathering, defineTokens_eq_gathering]
  exact hresults

end Template
end Stencil
