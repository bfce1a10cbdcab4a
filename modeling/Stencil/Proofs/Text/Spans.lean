/-
Places of spans.  A place behind some text is a place in the text behind it, moved by that text;
and what a span tells from its own newlines is where it begins and where the rest of its source
begins.
-/
import Stencil.Proofs.Text.Bytes

namespace Stencil

/-- What numbers the line and the column of a byte of a source. -/
structure Locator where
  line : List Char → Nat → UInt32
  column : List Char → Nat → UInt64

namespace Locator

def place (locate : Locator) (source : List Char) (offset : Nat) : StoredPosition :=
  ⟨locate.line source offset, locate.column source offset⟩

/-- Lines and columns are numbered from one, in words.  The line of a byte goes up by one for each
newline in front of it, and its column by one for each character, of however many bytes, between it
and the beginning of its line. -/
structure Lawful (locate : Locator) : Prop where
  line_eq : ∀ before rest : List Char,
    locate.line (before ++ rest) (byteCount before) = .ofNat (1 + lineBreaks before)
  column_eq : ∀ lines current rest : List Char, (∀ c ∈ lines.getLast?, c = '\n') →
    lineBreaks current = 0 →
      locate.column (lines ++ current ++ rest) (byteCount (lines ++ current)) =
        .ofNat (1 + current.length)

/-- Counts what is in front of the byte. -/
def counting : Locator where
  line source offset := .ofNat (1 + lineBreaks (takeBytes offset source))
  column source offset := .ofNat (1 + (lastLine (takeBytes offset source)).length)

theorem lawful_counting : counting.Lawful := by
  constructor
  · intro before rest
    change UInt32.ofNat (1 + lineBreaks (takeBytes _ _)) = _
    rw [takeBytes_byteCount]
  · intro lines current rest hlines hcurrent
    change UInt64.ofNat (1 + (lastLine (takeBytes _ _)).length) = _
    rw [takeBytes_byteCount, lastLine_append hlines hcurrent]

variable {locate : Locator}

/-- The place behind some text is the one that the text is read to, whatever follows. -/
theorem Lawful.place_eq (h : locate.Lawful) (before rest : List Char) :
    locate.place (before ++ rest) (byteCount before) = StoredPosition.behind before := by
  obtain ⟨lines, hsplit, hlines, hcurrent⟩ := exists_lines before
  have hcolumn := h.column_eq lines (lastLine before) rest hlines hcurrent
  rw [← hsplit] at hcolumn
  rw [place, h.line_eq, hcolumn, StoredPosition.behind, Position.after_default, Position.counted,
    Position.stored]

theorem Lawful.ends_eq (h : locate.Lawful) (before span rest : List Char) :
    locate.place (before ++ span ++ rest) (byteCount before) = StoredPosition.behind before ∧
      locate.place (before ++ span ++ rest) (byteCount (before ++ span)) =
        StoredPosition.behind (before ++ span) := by
  refine ⟨?_, h.place_eq (before ++ span) rest⟩
  rw [List.append_assoc]
  exact h.place_eq before (span ++ rest)

end Locator

namespace StoredPosition

/-- Behind a text that fits, moving is reading on. -/
theorem behind_append (first : List Char) {second : List Char}
    (h : (Position.after {} second).Fits) :
    behind (first ++ second) = (behind second).offsetBy (behind first) := by
  rw [behind, ← Position.after_offsetBy_after, Position.stored_offsetBy h]
  rfl

/-- Places compose as texts do, as long as nothing overflows: the place behind two texts is the
place behind the second, moved by the place behind the first, if the place behind the second fits
its words.  So moving is associative, if the first of the moves fits, and the start of a text is its
unit.  And wherever a source is cut, the end that a span tells from its own newlines, as the end of
its range or as a place that is moved to where the span begins, is the place where the rest of the
source begins. -/
theorem places_compose :
    (∀ first second : List Char, (Position.after {} second).Fits →
      behind (first ++ second) = (behind second).offsetBy (behind first)) ∧
    (∀ p q r : StoredPosition, q.place.Proper → (p.place.offsetBy q.place).Fits →
      (p.offsetBy q).offsetBy r = p.offsetBy (q.offsetBy r)) ∧
    (∀ p : StoredPosition, p.place.Proper → offsetBy {} p = p ∧ p.offsetBy {} = p) ∧
    ∀ {locate : Locator}, locate.Lawful → ∀ {source before span rest : List Char},
      source = before ++ span ++ rest →
        locate.place source (byteCount before) = behind before ∧
        locate.place source (byteCount (before ++ span)) = behind (before ++ span) ∧
        StoredRange.ofText (locate.place source (byteCount before)) span =
          ⟨locate.place source (byteCount before),
            locate.place source (byteCount (before ++ span))⟩ ∧
        ((Position.counted span).Fits →
          (Position.counted span).stored.offsetBy (locate.place source (byteCount before)) =
            locate.place source (byteCount (before ++ span))) := by
  refine ⟨fun first _ => behind_append first, fun _ _ r hq hfits => offsetBy_offsetBy hq hfits r,
    fun p hp => ⟨default_offsetBy p, offsetBy_default hp⟩, ?_⟩
  rintro locate h _ before span rest rfl
  obtain ⟨hstart, hend⟩ := h.ends_eq before span rest
  rw [hstart, hend]
  refine ⟨rfl, rfl, ?_, fun hfits => ?_⟩
  · rw [behind, StoredRange.ofText_stored, ← Position.after_append]
    rfl
  · rw [← Position.after_default] at hfits ⊢
    exact (behind_append before hfits).symm

/-- The span begins behind a character of two bytes and goes over a newline. -/
theorem places_compose_counting :
    behind "a\nbc".toList = (behind "\nbc".toList).offsetBy (behind "a".toList) ∧
    ((⟨2, 3⟩ : StoredPosition).offsetBy ⟨1, 4⟩).offsetBy ⟨5, 6⟩ =
      (⟨2, 3⟩ : StoredPosition).offsetBy ((⟨1, 4⟩ : StoredPosition).offsetBy ⟨5, 6⟩) ∧
    (⟨2, 3⟩ : StoredPosition).offsetBy {} = ⟨2, 3⟩ ∧
    Locator.counting.place "é\nßx\ny€z".toList 5 = ⟨2, 2⟩ ∧
    StoredRange.ofText (Locator.counting.place "é\nßx\ny€z".toList 5) "x\ny€".toList =
      ⟨Locator.counting.place "é\nßx\ny€z".toList 5,
        Locator.counting.place "é\nßx\ny€z".toList 11⟩ ∧
    (⟨2, 3⟩ : StoredPosition).offsetBy (Locator.counting.place "é\nßx\ny€z".toList 5) =
      Locator.counting.place "é\nßx\ny€z".toList 11 := by
  obtain ⟨htexts, hassoc, hdefault, hspans⟩ := places_compose
  have hsplit : "é\nßx\ny€z".toList = "é\nß".toList ++ "x\ny€".toList ++ "z".toList := by decide
  obtain ⟨hstart, -, hrange, hmoved⟩ := hspans Locator.lawful_counting hsplit
  exact ⟨htexts "a".toList "\nbc".toList ⟨by decide, by decide⟩,
    hassoc _ ⟨1, 4⟩ _ ⟨by decide, by decide⟩ ⟨by decide, by decide⟩,
    (hdefault ⟨2, 3⟩ ⟨by decide, by decide⟩).2, hstart, hrange, hmoved ⟨by decide, by decide⟩⟩

/-- A text of so many newlines that the line behind it does not fit. -/
def endless : List Char := List.replicate 4294967295 '\n' ++ "abcd".toList

theorem after_endless (p : Position) : p.after endless = ⟨p.line + 4294967295, 5⟩ := by
  have hnewlines : p.after (List.replicate 4294967295 '\n') = ⟨p.line + 4294967295, 1⟩ :=
    p.after_newlines 4294967294
  rw [endless, Position.after_append, hnewlines]
  rfl

/-- Behind the newlines the line wraps around to zero.  What stands there is then taken to go on
with the line that it is moved to, so that places do not compose and moving is not associative. -/
theorem places_wrap_around :
    behind ("\n\nabcdef".toList ++ endless) = ⟨2, 5⟩ ∧
    (behind endless).offsetBy (behind "\n\nabcdef".toList) = ⟨3, 11⟩ ∧
    ((⟨2, 5⟩ : StoredPosition).offsetBy ⟨4294967295, 1⟩).offsetBy ⟨3, 7⟩ = ⟨3, 11⟩ ∧
    (⟨2, 5⟩ : StoredPosition).offsetBy ((⟨4294967295, 1⟩ : StoredPosition).offsetBy ⟨3, 7⟩) =
      ⟨2, 5⟩ := by
  have hendless : behind endless = ⟨0, 5⟩ := by
    rw [behind, after_endless]
    decide
  refine ⟨?_, ?_, by decide, by decide⟩
  · rw [behind, Position.after_append, after_endless]
    decide
  · rw [hendless]
    decide

end StoredPosition

end Stencil
