/-
Handlers that do not look where they are.  Two readings are compared that agree in all but where
their tokens stand.  A handler that reads no range does the same in both: the errors that it is
answered and those that it gives differ in their ranges only, and nothing else depends on them.
-/
import Stencil.Library
import Stencil.Proofs.Table

namespace Stencil

/-- The excerpt when `count` more characters stand before the template. -/
def Excerpt.shift (count : Nat) (e : Excerpt) : Excerpt := ⟨e.text, e.start.map (· + count)⟩

/-- The error with another range. -/
def ParseError.at (range : Range) : ParseError → ParseError
  | .unknownTag name _ => .unknownTag name range
  | .unterminatedBlock expected _ => .unterminatedBlock expected range
  | .malformedExpression expression cause _ => .malformedExpression expression cause range
  | .duplicateMethod name _ => .duplicateMethod name range
  | .parentAlreadySet _ => .parentAlreadySet range
  | .invalidArguments tag reason _ => .invalidArguments tag reason range
  | .load cause _ => .load cause range

/-- How the places of one reading correspond to those of another.  `here` relates the range and
the text of the current directives, `range` the ranges of errors; the errors that the reader
makes at corresponding places have corresponding ranges. -/
structure Relocation where
  /-- The number of characters by which excerpts stand further behind. -/
  offset : Nat
  here : Range → Excerpt → Range → Excerpt → Prop
  range : Range → Range → Prop
  range_of_here : ∀ {r d r' d'}, here r d r' d' → range r r'
  stop_of_here : ∀ {r d r' d'}, here r d r' d' → range ⟨r.stop, r.stop⟩ ⟨r'.stop, r'.stop⟩
  rangeOf_of_here : ∀ {site site' : TagSite},
    here site.range site.directive site'.range site'.directive → ∀ source cause,
      range (site.rangeOf source cause) (site'.rangeOf (source.shift offset) cause)

namespace Relocation

variable {α β : Type} {rel : Relocation}

/-- Readings of which nothing is said where they are. -/
def anywhere : Relocation where
  offset := 0
  here _ _ _ _ := True
  range _ _ := True
  range_of_here _ := trivial
  stop_of_here _ := trivial
  rangeOf_of_here _ _ _ := trivial

/-- The same result, or errors that differ in their ranges only. -/
inductive Results (rel : Relocation) : Except ParseError α → Except ParseError α → Prop where
  | ok (a : α) : Results rel (.ok a) (.ok a)
  | error {e : ParseError} {range : Range} :
      rel.range e.range range → Results rel (.error e) (.error (e.at range))

/-- What a handler sees in the two readings. -/
structure Sites (rel : Relocation) (site site' : TagSite) : Prop where
  same : site' =
    { site with range := site'.range, directive := site'.directive, remaining := site'.remaining }
  here : rel.here site.range site.directive site'.range site'.directive

/-- The tokens that are left before and behind a scope: the end tag of a scope that is read to
its end is one of them. -/
def Costs (ends : List String) (result : Except ParseError α) (before after : Nat) : Prop :=
  after ≤ before ∧ (ends ≠ [] → ∀ a, result = .ok a → after < before)

/-- Programs that ask for the same as long as they are given the same answers, in two readings
in which `left` and `right` tokens are left. -/
inductive Programs (rel : Relocation) :
    (left right : Nat) → TagProgram α → TagProgram α → Prop where
  | done {left right : Nat} {result result' : Except ParseError α} :
      rel.Results result result' → Programs rel left right (.done result) (.done result')
  | look {left right : Nat} {resume resume' : TagSite → TagProgram α} :
      (∀ site site', rel.Sites site site' → site.remaining = left → site'.remaining = right →
        Programs rel left right (resume site) (resume' site')) →
      Programs rel left right (.look resume) (.look resume')
  | emit {left right : Nat} (statement : Statement) {next next' : TagProgram α} :
      Programs rel left right next next' →
        Programs rel left right (.emit statement next) (.emit statement next')
  | parseUntil {left right : Nat} (ends : List String)
      {resume resume' : Except ParseError (List Statement × String) → TagProgram α} :
      (∀ left' right' answer answer', rel.Results answer answer' →
        Costs ends answer left left' → Costs ends answer' right right' →
          Programs rel left' right' (resume answer) (resume' answer')) →
      Programs rel left right (.parseUntil ends resume) (.parseUntil ends resume')
  | buildMethod {left right : Nat} (name : String) (ends : List String)
      {resume resume' : Except ParseError String → TagProgram α} :
      (∀ left' right' answer answer', rel.Results answer answer' →
        Costs ends answer left left' → Costs ends answer' right right' →
          Programs rel left' right' (resume answer) (resume' answer')) →
      Programs rel left right (.buildMethod name ends resume) (.buildMethod name ends resume')
  | setParent {left right : Nat} (parent : Template)
      {resume resume' : Except ParseError Unit → TagProgram α} :
      (∀ answer answer', rel.Results answer answer' →
        Programs rel left right (resume answer) (resume' answer')) →
      Programs rel left right (.setParent parent resume) (.setParent parent resume')

end Relocation

/-- The handler does the same wherever its tag stands. -/
def Handler.Relocatable (rel : Relocation) (handler : Handler) : Prop :=
  ∀ (args : Excerpt) (left right : Nat),
    rel.Programs left right (handler args) (handler (args.shift rel.offset))

/-- All tags of the library do the same wherever they stand. -/
def Library.Relocatable (rel : Relocation) (l : Library) : Prop :=
  ∀ tag ∈ l.tags, tag.2.Relocatable rel

/-- So do the tags of all libraries that can be loaded. -/
def Resolver.Relocatable (rel : Relocation) (resolver : Resolver) : Prop :=
  ∀ path library, resolver path = .ok library → library.Relocatable rel

theorem Library.Relocatable.merge {rel : Relocation} {l other : Library}
    (h : l.Relocatable rel) (hother : other.Relocatable rel) : (l.merge other).Relocatable rel := by
  intro tag htag
  rcases Table.mem_of_mem_insertAll htag with hmem | hmem
  · exact hother tag hmem
  · exact h tag hmem

theorem Library.Relocatable.tag {rel : Relocation} {l : Library} (h : l.Relocatable rel)
    {name : String} {handler : Handler} (htag : l.tag? name = some handler) :
    handler.Relocatable rel :=
  h _ (Table.mem_of_find? htag)

theorem Resolver.relocatable_ofTable {rel : Relocation} {libraries : Table Library}
    (h : ∀ entry ∈ libraries, entry.2.Relocatable rel) : (ofTable libraries).Relocatable rel := by
  intro path library hpath
  unfold ofTable at hpath
  split at hpath
  · next found hfind =>
      cases hpath
      exact h _ (Table.mem_of_find? hfind)
  · cases hpath

namespace Excerpt

variable (count : Nat) (e : Excerpt)

@[simp] theorem text_shift : (e.shift count).text = e.text := rfl

@[simp] theorem toString_shift : (e.shift count).toString = e.toString := rfl

@[simp] theorem isEmpty_shift : (e.shift count).isEmpty = e.isEmpty := rfl

@[simp] theorem shift_zero : e.shift 0 = e := by
  simp [shift]

theorem shift_ofString (text : String) : (ofString text).shift count = ofString text := rfl

theorem drop_shift (n : Nat) : (e.shift count).drop n = (e.drop n).shift count := by
  simp [shift, drop, Function.comp_def, Nat.add_right_comm]

theorem take_shift (n : Nat) : (e.shift count).take n = (e.take n).shift count := rfl

theorem trim_shift : (e.shift count).trim = e.trim.shift count := by
  simp [shift, trim, Function.comp_def, Nat.add_right_comm]

theorem splitWord_shift (word : String) :
    (e.shift count).splitWord word =
      (e.splitWord word).map fun (before, after) => (before.shift count, after.shift count) := by
  unfold splitWord
  rw [text_shift, Option.map_map]
  simp only [Function.comp_def, take_shift, drop_shift]

theorem splitBlank_shift :
    (e.shift count).splitBlank =
      (e.splitBlank.1.shift count, e.splitBlank.2.shift count) := by
  unfold splitBlank
  rw [text_shift]
  by_cases hword : (e.text.takeWhile (!isBlank ·)).length < e.text.length
  · simp only [hword, ↓reduceIte, take_shift, drop_shift, trim_shift]
  · simp only [hword, ↓reduceIte, shift_ofString]

end Excerpt

namespace Relocation

variable {α β : Type} {rel : Relocation}

section Costs

variable {ends : List String} {result : Except ParseError α} {result' : Except ParseError β}
  {first second third : Nat}

theorem Costs.of_le (h : second ≤ first) : Costs [] result first second :=
  ⟨h, fun hends => absurd rfl hends⟩

theorem Costs.of_lt (h : second < first) : Costs ends result first second :=
  ⟨Nat.le_of_lt h, fun _ _ _ => h⟩

theorem Costs.of_error {e : ParseError} (h : second ≤ first) :
    Costs ends (.error e : Except ParseError α) first second :=
  ⟨h, fun _ _ hok => nomatch hok⟩

theorem Costs.trans (h : Costs ends result second third) (hle : second ≤ first) :
    Costs ends result first third :=
  ⟨Nat.le_trans h.1 hle, fun hends a hok => Nat.lt_of_lt_of_le (h.2 hends a hok) hle⟩

theorem Costs.of_ok (hresult : ∀ b, result' = .ok b → ∃ a, result = .ok a)
    (h : Costs ends result first second) : Costs ends result' first second :=
  ⟨h.1, fun hends b hok => (hresult b hok).elim (h.2 hends)⟩

theorem Costs.map (f : α → β) (h : Costs ends result first second) :
    Costs ends (result.map f) first second := by
  refine h.of_ok fun b hok => ?_
  cases result with
  | error e => cases hok
  | ok a => exact ⟨a, rfl⟩

end Costs

theorem Results.map {result result' : Except ParseError α} (h : rel.Results result result')
    (f : α → β) : rel.Results (result.map f) (result'.map f) := by
  cases h with
  | ok a => exact .ok (f a)
  | error hrange => exact .error hrange

theorem Results.mapError {ε : Type} {f f' : ε → ParseError}
    (h : ∀ cause, ∃ range, rel.range (f cause).range range ∧ f' cause = (f cause).at range)
    (result : Except ε α) : rel.Results (result.mapError f) (result.mapError f') := by
  cases result with
  | ok a => exact .ok a
  | error cause =>
      obtain ⟨range, hrange, hf⟩ := h cause
      have herror : rel.Results (.error (f cause) : Except ParseError α) _ := .error hrange
      rwa [← hf] at herror

namespace Sites

variable {site site' : TagSite}

theorem known (h : rel.Sites site site') : site'.known = site.known := by
  rw [h.same]

theorem expression (h : rel.Sites site site') (source : Excerpt) :
    rel.Results (site.expression source) (site'.expression (source.shift rel.offset)) :=
  .mapError (fun cause => ⟨_, rel.rangeOf_of_here h.here source cause, rfl⟩) _

theorem arguments (h : rel.Sites site site') (source : Excerpt) :
    rel.Results (site.arguments source) (site'.arguments (source.shift rel.offset)) :=
  .mapError (fun cause => ⟨_, rel.rangeOf_of_here h.here source cause, rfl⟩) _

theorem invalidArguments (h : rel.Sites site site') (tag reason : String) :
    rel.Results (.error (site.invalidArguments tag reason) : Except ParseError α)
      (.error (site'.invalidArguments tag reason)) :=
  .error (e := site.invalidArguments tag reason) (rel.range_of_here h.here)

end Sites

namespace Programs

variable {left right : Nat} {program program' : TagProgram α}

theorem pure (a : α) : rel.Programs left right (Pure.pure a : TagProgram α) (Pure.pure a) :=
  .done (.ok a)

theorem bind (h : rel.Programs left right program program') {f f' : α → TagProgram β}
    (hf : ∀ a left' right', left' ≤ left → right' ≤ right →
      rel.Programs left' right' (f a) (f' a)) :
    rel.Programs left right (program >>= f) (program' >>= f') := by
  change rel.Programs left right (program.bind f) (program'.bind f')
  induction h with
  | done hresult =>
      cases hresult with
      | ok a => exact hf a _ _ (Nat.le_refl _) (Nat.le_refl _)
      | error hrange => exact .done (.error hrange)
  | look _ ih =>
      exact .look fun site site' hsite hleft hright => ih site site' hsite hleft hright hf
  | emit statement _ ih => exact .emit statement (ih hf)
  | parseUntil ends _ ih =>
      exact .parseUntil ends fun _ _ answer answer' hanswer hleft hright =>
        ih _ _ answer answer' hanswer hleft hright fun a _ _ hl hr =>
          hf a _ _ (Nat.le_trans hl hleft.1) (Nat.le_trans hr hright.1)
  | buildMethod name ends _ ih =>
      exact .buildMethod name ends fun _ _ answer answer' hanswer hleft hright =>
        ih _ _ answer answer' hanswer hleft hright fun a _ _ hl hr =>
          hf a _ _ (Nat.le_trans hl hleft.1) (Nat.le_trans hr hright.1)
  | setParent parent _ ih =>
      exact .setParent parent fun answer answer' hanswer => ih answer answer' hanswer hf

theorem write (statement : Statement) :
    rel.Programs left right (TagProgram.write statement) (TagProgram.write statement) :=
  .emit statement (.pure ())

theorem extend (parent : Template) :
    rel.Programs left right (TagProgram.extend parent) (TagProgram.extend parent) :=
  .setParent parent fun _ _ hanswer => .done hanswer

theorem scope (ends : List String) :
    rel.Programs left right (TagProgram.scope ends) (TagProgram.scope ends) :=
  .parseUntil ends fun _ _ _ _ hanswer _ _ => .done hanswer

theorem method (name : String) (ends : List String) :
    rel.Programs left right (TagProgram.method name ends) (TagProgram.method name ends) :=
  .buildMethod name ends fun _ _ _ _ hanswer _ _ => .done hanswer

theorem expression (source : Excerpt) :
    rel.Programs left right (TagProgram.expression source)
      (TagProgram.expression (source.shift rel.offset)) :=
  .look fun _ _ hsite _ _ => .done (hsite.expression source)

theorem arguments (source : Excerpt) :
    rel.Programs left right (TagProgram.arguments source)
      (TagProgram.arguments (source.shift rel.offset)) :=
  .look fun _ _ hsite _ _ => .done (hsite.arguments source)

theorem invalidArguments (tag reason : String) :
    rel.Programs left right (TagProgram.invalidArguments tag reason : TagProgram α)
      (TagProgram.invalidArguments tag reason) :=
  .look fun _ _ hsite _ _ => .done (hsite.invalidArguments tag reason)

/-- Behind a scope that has an end tag fewer tokens are left. -/
theorem scope_bind {ends : List String} (hends : ends ≠ [])
    {f f' : List Statement × String → TagProgram β}
    (hf : ∀ a left' right', left' < left → right' < right →
      rel.Programs left' right' (f a) (f' a)) :
    rel.Programs left right (TagProgram.scope ends >>= f) (TagProgram.scope ends >>= f') := by
  refine .parseUntil ends fun left' right' answer answer' hanswer hleft hright => ?_
  cases hanswer with
  | ok a => exact hf a _ _ (hleft.2 hends a rfl) (hright.2 hends a rfl)
  | error hrange => exact .done (.error hrange)

end Programs

end Relocation
end Stencil
