/-
Places of a text that stands behind another: counting on from a place is counting from the start
and then moving the place.
-/
import Stencil.Position

namespace Stencil

/-- Lines and columns count from one. -/
structure Position.Proper (p : Position) : Prop where
  line : 1 ≤ p.line
  column : 1 ≤ p.column

namespace Position

theorem proper_default : Proper {} := ⟨Nat.le_refl 1, Nat.le_refl 1⟩

variable {p : Position}

theorem Proper.next (h : p.Proper) (c : Char) : (p.next c).Proper := by
  unfold Position.next
  by_cases hc : c = '\n'
  · rw [if_pos hc]
    exact ⟨Nat.le_add_left 1 _, Nat.le_refl 1⟩
  · rw [if_neg hc]
    exact ⟨h.line, Nat.le_add_left 1 _⟩

theorem Proper.after (h : p.Proper) (text : List Char) : (p.after text).Proper := by
  induction text generalizing p with
  | nil => exact h
  | cons c rest ih => exact ih (h.next c)

theorem Proper.offsetBy {origin : Position} (horigin : origin.Proper) (h : p.Proper) :
    (p.offsetBy origin).Proper := by
  obtain ⟨hline, hcolumn⟩ := h
  obtain ⟨hline', hcolumn'⟩ := horigin
  unfold Position.offsetBy
  by_cases hfirst : p.line ≤ 1
  · rw [if_pos hfirst]
    constructor
    · exact hline'
    · exact Nat.le_add_right_of_le hcolumn'
  · rw [if_neg hfirst]
    constructor
    · change 1 ≤ origin.line + p.line - 1
      omega
    · exact hcolumn

theorem default_offsetBy (origin : Position) : offsetBy {} origin = origin := rfl

theorem offsetBy_default (h : p.Proper) : p.offsetBy {} = p := by
  obtain ⟨line, column⟩ := p
  obtain ⟨hline, hcolumn⟩ := h
  dsimp only at hline hcolumn
  by_cases hfirst : line ≤ 1
  · simp only [offsetBy, hfirst, ↓reduceIte, Position.mk.injEq]
    omega
  · simp only [offsetBy, hfirst, ↓reduceIte, Position.mk.injEq, and_true]
    omega

/-- Places can be moved one after another. -/
theorem offsetBy_offsetBy (p : Position) {q : Position} (hq : q.Proper) (origin : Position) :
    (p.offsetBy q).offsetBy origin = p.offsetBy (q.offsetBy origin) := by
  obtain ⟨hline, hcolumn⟩ := hq
  by_cases hfirst : p.line ≤ 1
  · by_cases hfirst' : q.line ≤ 1
    · simp only [offsetBy, hfirst, hfirst', ↓reduceIte, Position.mk.injEq, true_and]
      omega
    · simp only [offsetBy, hfirst, hfirst', ↓reduceIte]
  · have hlater : ¬ q.line + p.line - 1 ≤ 1 := by omega
    by_cases hfirst' : q.line ≤ 1
    · simp only [offsetBy, hfirst, hlater, hfirst', ↓reduceIte, Position.mk.injEq, and_true]
      omega
    · simp only [offsetBy, hfirst, hlater, hfirst', ↓reduceIte, Position.mk.injEq, and_true]
      omega

theorem next_offsetBy (h : p.Proper) (origin : Position) (c : Char) :
    (p.offsetBy origin).next c = (p.next c).offsetBy origin := by
  obtain ⟨hline, hcolumn⟩ := h
  by_cases hfirst : p.line ≤ 1
  · by_cases hc : c = '\n'
    · have hlater : ¬ p.line + 1 ≤ 1 := by omega
      simp only [offsetBy, next, hfirst, hc, hlater, ↓reduceIte, Position.mk.injEq, and_true]
      omega
    · simp only [offsetBy, next, hfirst, hc, ↓reduceIte, Position.mk.injEq, true_and]
      omega
  · by_cases hc : c = '\n'
    · have hlater : ¬ p.line + 1 ≤ 1 := by omega
      simp only [offsetBy, next, hfirst, hc, hlater, ↓reduceIte, Position.mk.injEq, and_true]
      omega
    · simp only [offsetBy, next, hfirst, hc, ↓reduceIte]

theorem after_offsetBy (h : p.Proper) (origin : Position) (text : List Char) :
    (p.offsetBy origin).after text = (p.after text).offsetBy origin := by
  induction text generalizing p with
  | nil => rfl
  | cons c rest ih => rw [after_cons, next_offsetBy h, ih (h.next c), after_cons]

theorem after_newlines (p : Position) (n : Nat) :
    p.after (List.replicate (n + 1) '\n') = ⟨p.line + (n + 1), 1⟩ := by
  induction n generalizing p with
  | zero => rfl
  | succ n ih =>
      rw [List.replicate_succ, after_cons, ih, next, if_pos rfl, Nat.add_assoc, Nat.add_comm 1]

/-- Turns a place that is not before `origin` into a place relative to it. -/
def relativeTo (p origin : Position) : Position :=
  if p.line = origin.line then ⟨1, p.column - origin.column + 1⟩
  else ⟨p.line - origin.line + 1, p.column⟩

theorem offsetBy_relativeTo (h : p.Proper) (origin : Position) :
    (p.offsetBy origin).relativeTo origin = p := by
  obtain ⟨line, column⟩ := p
  obtain ⟨hline, hcolumn⟩ := h
  dsimp only at hline hcolumn
  by_cases hfirst : line ≤ 1
  · simp only [offsetBy, relativeTo, hfirst, ↓reduceIte, Position.mk.injEq]
    omega
  · have hlater : ¬ origin.line + line - 1 = origin.line := by omega
    simp only [offsetBy, relativeTo, hfirst, hlater, ↓reduceIte, Position.mk.injEq, and_true]
    omega

end Position

namespace Position

/-- One place stands before another in reading order. -/
def Before (p q : Position) : Prop := p.line < q.line ∨ p.line = q.line ∧ p.column < q.column

variable {p q r : Position}

theorem Before.trans (h : p.Before q) (h' : q.Before r) : p.Before r := by
  unfold Before at *
  omega

theorem Before.ne (h : p.Before q) : p ≠ q := by
  rintro rfl
  rcases h with hline | ⟨-, hcolumn⟩
  · exact Nat.lt_irrefl _ hline
  · exact Nat.lt_irrefl _ hcolumn

theorem before_next (p : Position) (c : Char) : p.Before (p.next c) := by
  unfold Position.next
  by_cases hc : c = '\n'
  · rw [if_pos hc]
    exact .inl (Nat.lt_succ_self _)
  · rw [if_neg hc]
    exact .inr ⟨rfl, Nat.lt_succ_self _⟩

/-- One place stands before another, or is the same. -/
def UpTo (p q : Position) : Prop := p.line < q.line ∨ p.line = q.line ∧ p.column ≤ q.column

theorem UpTo.refl (p : Position) : p.UpTo p := .inr ⟨rfl, Nat.le_refl _⟩

theorem UpTo.trans (h : p.UpTo q) (h' : q.UpTo r) : p.UpTo r := by
  unfold UpTo at *
  omega

theorem Before.upTo (h : p.Before q) : p.UpTo q := h.imp_right fun h => ⟨h.1, Nat.le_of_lt h.2⟩

/-- Reading goes on to later places. -/
theorem before_after (p : Position) {text : List Char} (h : text ≠ []) :
    p.Before (p.after text) := by
  induction text generalizing p with
  | nil => exact absurd rfl h
  | cons c rest ih =>
      by_cases hrest : rest = []
      · subst hrest
        exact before_next p c
      · exact (before_next p c).trans (ih (p.next c) hrest)

theorem upTo_after (p : Position) (text : List Char) : p.UpTo (p.after text) := by
  induction text generalizing p with
  | nil => exact .refl p
  | cons c rest ih => exact (before_next p c).upTo.trans (ih (p.next c))

end Position

theorem Range.offsetBy_offsetBy (r : Range) {q : Position} (hq : q.Proper) (origin : Position) :
    (r.offsetBy q).offsetBy origin = r.offsetBy (q.offsetBy origin) := by
  unfold offsetBy
  rw [Position.offsetBy_offsetBy _ hq, Position.offsetBy_offsetBy _ hq]

theorem lineBreaks_cons (c : Char) (text : List Char) :
    lineBreaks (c :: text) = lineBreaks text + if c = '\n' then 1 else 0 := by
  simp [lineBreaks, List.count_cons]

theorem lastLine_cons {text : List Char} (h : lineBreaks text ≠ 0) (c : Char) :
    lastLine (c :: text) = lastLine text := by
  have hmem : '\n' ∈ text.reverse := by
    rw [List.mem_reverse]
    exact List.count_pos_iff.mp (Nat.pos_of_ne_zero h)
  have hshort : (text.reverse.takeWhile (· ≠ '\n')).length ≠ text.reverse.length := by
    intro hlength
    have hall := (List.takeWhile_prefix _).eq_of_length hlength
    have hnot := List.all_eq_true.mp (List.all_takeWhile (l := text.reverse)) '\n' (hall ▸ hmem)
    simp at hnot
  rw [lastLine, List.reverse_cons, List.takeWhile_append, if_neg hshort, lastLine]

theorem ne_newline_of_lineBreaks {text : List Char} (h : lineBreaks text = 0) :
    ∀ c ∈ text.reverse, decide (c ≠ '\n') = true := by
  intro c hc
  rw [List.mem_reverse] at hc
  refine decide_eq_true fun hnewline => ?_
  exact List.count_eq_zero.mp h (hnewline ▸ hc)

/-- The last line is what stands behind complete lines and has no newline in it. -/
theorem lastLine_append {lines current : List Char} (hlines : ∀ c ∈ lines.getLast?, c = '\n')
    (hcurrent : lineBreaks current = 0) : lastLine (lines ++ current) = current := by
  have hstop : lines.reverse.takeWhile (· ≠ '\n') = [] := by
    rcases hreverse : lines.reverse with _ | ⟨c, front⟩
    · rfl
    · rw [hlines c (by rw [List.getLast?_eq_head?_reverse, hreverse]; rfl)]
      rfl
  rw [lastLine, List.reverse_append,
    List.takeWhile_append_of_pos (ne_newline_of_lineBreaks hcurrent), hstop, List.append_nil,
    List.reverse_reverse]

theorem lastLine_newline {text : List Char} (h : lineBreaks text = 0) :
    lastLine ('\n' :: text) = text :=
  @lastLine_append ['\n'] text (by simp) h

theorem lastLine_eq_self {text : List Char} (h : lineBreaks text = 0) : lastLine text = text :=
  @lastLine_append [] text nofun h

/-- A text is complete lines and its last line. -/
theorem exists_lines (text : List Char) : ∃ lines, text = lines ++ lastLine text ∧
    (∀ c ∈ lines.getLast?, c = '\n') ∧ lineBreaks (lastLine text) = 0 := by
  refine ⟨(text.reverse.dropWhile (· ≠ '\n')).reverse, ?_, ?_, ?_⟩
  · rw [lastLine, ← List.reverse_append, List.takeWhile_append_dropWhile, List.reverse_reverse]
  · intro c hc
    rw [List.getLast?_reverse] at hc
    have hhead := List.head?_dropWhile_not (· ≠ '\n') text.reverse
    rw [Option.mem_def.mp hc] at hhead
    simpa using hhead
  · rw [lineBreaks, List.count_eq_zero, lastLine, List.mem_reverse]
    intro hmem
    have hnot := List.all_eq_true.mp (List.all_takeWhile (l := text.reverse)) '\n' hmem
    simp at hnot

/-- Counting the newlines of a text comes to the same as reading it character by character. -/
theorem Range.ofText_eq (start : Position) (text : List Char) :
    Range.ofText start text = ⟨start, start.after text⟩ := by
  have hstop : ∀ start : Position, start.after text =
      if lineBreaks text = 0 then ⟨start.line, start.column + text.length⟩
      else ⟨start.line + lineBreaks text, (lastLine text).length + 1⟩ := by
    induction text with
    | nil => intro start; rfl
    | cons c text ih =>
        intro start
        rw [Position.after_cons, ih, lineBreaks_cons, Position.next]
        by_cases hc : c = '\n'
        · subst hc
          rw [if_pos rfl, if_pos rfl, if_neg (Nat.succ_ne_zero _)]
          by_cases hbreaks : lineBreaks text = 0
          · rw [if_pos hbreaks, lastLine_newline hbreaks, hbreaks, Nat.add_comm 1]
          · rw [if_neg hbreaks, lastLine_cons hbreaks, Nat.add_right_comm, Nat.add_assoc]
        · simp only [if_neg hc, Nat.add_zero]
          by_cases hbreaks : lineBreaks text = 0
          · rw [if_pos hbreaks, if_pos hbreaks, List.length_cons, Nat.add_assoc,
              Nat.add_comm 1]
          · rw [if_neg hbreaks, if_neg hbreaks, lastLine_cons hbreaks]
  rw [ofText, hstop]
  split <;> rfl

/-- The line and the column fit the words that they are stored in. -/
structure Position.Fits (p : Position) : Prop where
  line : p.line < UInt32.size
  column : p.column < UInt64.size

namespace StoredPosition

@[simp] theorem stored_place (p : StoredPosition) : p.place.stored = p := by
  rw [Position.stored, place, UInt32.ofNat_toNat, UInt64.ofNat_toNat]

theorem fits_place (p : StoredPosition) : p.place.Fits := ⟨p.line.toNat_lt, p.column.toNat_lt⟩

end StoredPosition

theorem Position.Fits.stored_line_le_one {p : Position} (h : p.Fits) :
    p.stored.line ≤ 1 ↔ p.line ≤ 1 := by
  rw [UInt32.le_iff_toNat_le, stored, UInt32.toNat_ofNat_of_lt' h.line, UInt32.toNat_one]

/-- Taking one off a column stops at zero, in words as in numbers. -/
theorem Position.Fits.stored_column_sub_one {p : Position} (h : p.Fits) :
    (if p.stored.column = 0 then 0 else p.stored.column - 1) = .ofNat (p.column - 1) := by
  have hzero : p.stored.column = 0 ↔ p.column = 0 := by
    rw [← UInt64.toNat_inj, stored, UInt64.toNat_ofNat_of_lt' h.column, UInt64.toNat_zero]
  by_cases hcolumn : p.column = 0
  · rw [if_pos (hzero.mpr hcolumn), hcolumn]
    rfl
  · rw [if_neg (mt hzero.mp hcolumn), UInt64.ofNat_sub (Nat.pos_of_ne_zero hcolumn)]
    rfl

/-- A place that fits is moved in words as it is in numbers, also where the sums wrap around: the
words only have to tell whether it stands on the first line. -/
theorem Position.stored_offsetBy {p : Position} (h : p.Fits) (origin : Position) :
    (p.offsetBy origin).stored = p.stored.offsetBy origin.stored := by
  unfold Position.offsetBy StoredPosition.offsetBy
  simp only [h.stored_line_le_one, h.stored_column_sub_one]
  by_cases hfirst : p.line ≤ 1
  · rw [if_pos hfirst, if_pos hfirst]
    simp only [stored, UInt64.ofNat_add]
  · have hpositive : 1 ≤ origin.line + p.line := by omega
    rw [if_neg hfirst, if_neg hfirst]
    simp only [stored, UInt32.ofNat_sub hpositive, UInt32.ofNat_add]
    rfl

namespace StoredPosition

variable {p q : StoredPosition}

theorem offsetBy_eq (p origin : StoredPosition) :
    p.offsetBy origin = (p.place.offsetBy origin.place).stored := by
  rw [Position.stored_offsetBy p.fits_place, stored_place, stored_place]

/-- Places can be moved one after another, if the first move fits. -/
theorem offsetBy_offsetBy (hq : q.place.Proper) (hfits : (p.place.offsetBy q.place).Fits)
    (origin : StoredPosition) :
    (p.offsetBy q).offsetBy origin = p.offsetBy (q.offsetBy origin) :=
  calc (p.offsetBy q).offsetBy origin
    _ = (p.place.offsetBy q.place).stored.offsetBy origin.place.stored := by
        rw [offsetBy_eq p q, stored_place]
    _ = ((p.place.offsetBy q.place).offsetBy origin.place).stored :=
        (Position.stored_offsetBy hfits _).symm
    _ = (p.place.offsetBy (q.place.offsetBy origin.place)).stored := by
        rw [Position.offsetBy_offsetBy _ hq]
    _ = p.place.stored.offsetBy (q.place.offsetBy origin.place).stored :=
        Position.stored_offsetBy p.fits_place _
    _ = p.offsetBy (q.offsetBy origin) := by rw [stored_place, ← offsetBy_eq]

theorem default_offsetBy (origin : StoredPosition) : offsetBy {} origin = origin := by
  have hcolumn : origin.column + (1 - 1) = origin.column := UInt64.add_zero _
  exact congrArg (StoredPosition.mk origin.line) hcolumn

theorem offsetBy_default (h : p.place.Proper) : p.offsetBy {} = p := by
  rw [offsetBy_eq]
  change (p.place.offsetBy {}).stored = p
  rw [Position.offsetBy_default h, stored_place]

/-- The place behind a text, as it is stored. -/
def behind (text : List Char) : StoredPosition := (Position.after {} text).stored

end StoredPosition

/-- Counting the newlines of a text in words comes to the same place, even if the count wraps
around. -/
theorem StoredRange.ofText_stored (start : Position) (text : List Char) :
    ofText start.stored text = ⟨start.stored, (start.after text).stored⟩ := by
  have hstop : (Range.ofText start text).stop = start.after text := by rw [Range.ofText_eq]
  rw [← hstop, ofText, Range.ofText]
  by_cases hbreaks : lineBreaks text = 0
  · simp only [if_pos hbreaks, Position.stored, UInt64.ofNat_add]
  · simp only [if_neg hbreaks, Position.stored, UInt32.ofNat_add]

/-- The place behind a text that is counted out: each newline of the text ends a line, and each
character behind the last of them takes a column. -/
def Position.counted (text : List Char) : Position :=
  ⟨1 + lineBreaks text, 1 + (lastLine text).length⟩

/-- Reading a text from its start comes to the place that is counted out. -/
theorem Position.after_default (text : List Char) : after {} text = counted text := by
  have hstop : (Range.ofText {} text).stop = after {} text := by rw [Range.ofText_eq]
  rw [← hstop, Range.ofText, counted]
  by_cases hbreaks : lineBreaks text = 0
  · rw [if_pos hbreaks, hbreaks, lastLine_eq_self hbreaks]
  · rw [if_neg hbreaks, Nat.add_comm 1 (lastLine text).length]

/-- The range of `piece` in a text that begins with `before` and goes on with `piece`. -/
def Range.behind (before piece : List Char) : Range :=
  ⟨Position.after {} before, Position.after {} (before ++ piece)⟩

theorem Range.behind_singleton (front : List Char) {c : Char} (hc : c ≠ '\n') :
    Range.behind front [c] = ⟨Position.after {} front,
      ⟨(Position.after {} front).line, (Position.after {} front).column + 1⟩⟩ := by
  rw [Range.behind, Position.after_append, Position.after_cons, Position.after_nil, Position.next,
    if_neg hc]

theorem Position.after_offsetBy_after (front text : List Char) :
    (after {} text).offsetBy (after {} front) = after {} (front ++ text) := by
  rw [← after_offsetBy proper_default, default_offsetBy, after_append]

/-- Behind a longer text a piece is moved by as much as is put in front. -/
theorem Range.behind_offsetBy (front before piece : List Char) :
    (behind before piece).offsetBy (Position.after {} front) = behind (front ++ before) piece := by
  rw [behind, offsetBy, Position.after_offsetBy_after, Position.after_offsetBy_after, behind,
    List.append_assoc]

end Stencil
