/-
Indexing and repeating texts and arrays.  Both are worked out in words of 64 bits, and no word ever
wraps round: an index finds exactly the item it means or none, and a repetition gives all its copies
or is refused because they take too many bytes.
-/
import Stencil.Value.Operations

namespace Stencil

namespace Number

/-- The number without its fraction, however large; infinity counts as the power of two that its
bits would write. -/
def truncation (n : Number) : Int :=
  if n.negative then -(n.units / unitsPerOne : Int) else (n.units / unitsPerOne : Int)

theorem whole_nonneg (n : Number) : 0 ≤ (n.units / unitsPerOne : Int) :=
  Int.ediv_nonneg (Int.natCast_nonneg _) (Int.natCast_nonneg _)

theorem intBound_eq : intBound = 9223372036854775808 := rfl

/-- The truncation clamped to words of 64 bits with a sign; zero for what is not a number. -/
theorem toInt_eq (n : Number) : n.toInt =
    if n.isNaN then 0 else max (-(intBound : Int)) (min n.truncation (intBound - 1)) := by
  have hbound := intBound_eq
  have hwhole := n.whole_nonneg
  simp only [toInt, truncation]
  split
  · rfl
  · split <;> omega

theorem toInt_bounds (n : Number) : -(intBound : Int) ≤ n.toInt ∧ n.toInt < intBound := by
  have hbound := intBound_eq
  rw [toInt_eq]
  split <;> omega

theorem isNaN_eq_false_of_isInt {n : Number} (h : n.isInt) : n.isNaN = false := by
  simp only [isInt, isFinite, Bool.and_eq_true, decide_eq_true_eq] at h
  simp only [isNaN, decide_eq_false_iff_not]
  omega

theorem truncation_nonpos {n : Number} (h : n.order ≤ 0) : n.truncation ≤ 0 := by
  unfold truncation
  cases hsign : n.negative with
  | true => exact Int.neg_nonpos_of_nonneg n.whole_nonneg
  | false =>
      have hzero : n.magnitude = 0 := by
        simp only [order, hsign, Bool.false_eq_true, if_false] at h
        omega
      have hunits : n.units = 0 := by rw [units, hzero]; rfl
      simp only [hunits, Int.natCast_zero, Int.zero_ediv, Bool.false_eq_true, if_false, Int.le_refl]

theorem truncation_nonneg {n : Number} (h : 0 < n.order) : 0 ≤ n.truncation := by
  unfold truncation
  cases hsign : n.negative with
  | true =>
      simp only [order, hsign, if_true] at h
      omega
  | false => exact n.whole_nonneg

end Number

namespace Val

theorem wordBound_eq : wordBound = 18446744073709551616 := rfl

theorem maxRepeatBytes_eq : maxRepeatBytes = 9223372036854775807 := rfl

/-- A number repeats as often as its integer says, and not at all if that is negative: the word with
the bits of the integer is taken of no negative one. -/
theorem repeatCount_eq (n : Number) : repeatCount n = n.toInt.toNat := by
  have hbounds := n.toInt_bounds
  have hbound := Number.intBound_eq
  have hword := wordBound_eq
  unfold repeatCount
  split
  · next hrefused =>
      rw [Bool.and_eq_true, decide_eq_true_eq] at hrefused
      have htruncation := Number.truncation_nonpos hrefused.2
      rw [Number.toInt_eq]
      split <;> omega
  · next hcounts =>
      have hnonneg : 0 ≤ n.toInt := by
        rw [Number.toInt_eq]
        cases hnan : n.isNaN with
        | true => exact Int.le_refl 0
        | false =>
            have htruncation : 0 ≤ n.truncation :=
              Number.truncation_nonneg (by simpa [hnan] using hcounts)
            simp only [Bool.false_eq_true, if_false]
            omega
      rw [Int.emod_eq_of_lt hnonneg (by omega)]

theorem repeatCount_le (n : Number) : repeatCount n ≤ maxRepeatBytes := by
  have hbounds := n.toInt_bounds
  have hbound := Number.intBound_eq
  have hmax := maxRepeatBytes_eq
  rw [repeatCount_eq]
  omega

/-- The length of a repetition is refused exactly if its bytes cannot be stored: where a product of
words is no word, the bytes are too many as well. -/
theorem repeatLength?_eq {bytes : Nat} (hbytes : 0 < bytes) (length count : Nat) :
    repeatLength? length count bytes =
      if length * count * bytes ≤ maxRepeatBytes then .ok (length * count)
      else .error (.failure "repeat count too large") := by
  have hword := wordBound_eq
  have hmax := maxRepeatBytes_eq
  have hle : length * count ≤ length * count * bytes := Nat.le_mul_of_pos_right _ hbytes
  unfold repeatLength? wordProduct?
  by_cases hfits : length * count * bytes ≤ maxRepeatBytes
  · have htotal : length * count < wordBound := by omega
    have hsize : length * count * bytes < wordBound := by omega
    simp [htotal, hsize, hfits, Option.filter]
  · by_cases htotal : length * count < wordBound
    · by_cases hsize : length * count * bytes < wordBound
      · simp [htotal, hsize, hfits, Option.filter]
      · simp [htotal, hsize, hfits, Option.filter]
    · simp [htotal, hfits, Option.filter]

/-- Going round a list as far as some copies reach gives the copies. -/
theorem cycleList_mul {α : Type} (count : Nat) (items : List α) :
    cycleList (items.length * count) items = (List.replicate count items).flatten := by
  rcases Nat.eq_zero_or_pos items.length with hempty | hpos
  · rw [List.length_eq_zero_iff] at hempty
    simp [cycleList, hempty]
  · have hlength : ((List.replicate count items).flatten).length = items.length * count := by
      simp [Nat.mul_comm]
    rw [cycleList, Nat.mul_div_cancel_left _ hpos, List.replicate_succ', List.flatten_append,
      ← hlength]
    exact List.take_left

/-- A length that can be stored and an integer as words, and their sum where the integer counts
from the end. -/
structure ExactWords (index : Int) (length : Nat) : Prop where
  length_eq : (Int64.ofNat length).toInt = length
  index_eq : (Int64.ofInt index).toInt = index
  sum_eq : index < 0 → (Int64.ofNat length + Int64.ofInt index).toInt = length + index

theorem exactWords {index : Int} {length : Nat}
    (hindex : -(Number.intBound : Int) ≤ index ∧ index < Number.intBound)
    (hlength : length ≤ maxRepeatBytes) : ExactWords index length := by
  have hmax := maxRepeatBytes_eq
  have hbound := Number.intBound_eq
  have hlengthWord : (Int64.ofNat length).toInt = length := Int64.toInt_ofNat_of_lt (by omega)
  have hindexWord : (Int64.ofInt index).toInt = index :=
    Int64.toInt_ofInt_of_le (by omega) (by omega)
  refine ⟨hlengthWord, hindexWord, fun hnegative => ?_⟩
  rw [Int64.toInt_add, hlengthWord, hindexWord]
  exact Int.bmod_eq_of_le (by omega) (by omega)

/-- The place that is worked out from an index, whether or not it lies in the sequence. -/
def placeWord (index : Int) (length : Nat) : Int64 :=
  if Int64.ofInt index < 0 then Int64.ofNat length + Int64.ofInt index else Int64.ofInt index

theorem place?_eq (index : Int) (length : Nat) : place? index length =
    if placeWord index length < 0 || Int64.ofNat length ≤ placeWord index length then .none
    else some (placeWord index length).toUInt64.toNat := rfl

theorem ExactWords.placeWord_eq {index : Int} {length : Nat} (h : ExactWords index length) :
    (placeWord index length).toInt = if index < 0 then length + index else index := by
  have hnegative : Int64.ofInt index < 0 ↔ index < 0 := by
    rw [Int64.lt_iff_toInt_lt, h.index_eq, Int64.toInt_zero]
  unfold placeWord
  split
  · next hword => rw [h.sum_eq (hnegative.mp hword), if_pos (hnegative.mp hword)]
  · next hword => rw [h.index_eq, if_neg (mt hnegative.mpr hword)]

/-- A place is found exactly if it lies in the sequence, at the index or that far from the end. -/
theorem ExactWords.place?_eq_some_iff {index : Int} {length : Nat} (h : ExactWords index length)
    {p : Nat} : place? index length = some p ↔
      p < length ∧ ((p : Int) = index ∨ (p : Int) = length + index ∧ index < 0) := by
  have hplace := h.placeWord_eq
  have hout : (placeWord index length < 0 || Int64.ofNat length ≤ placeWord index length) = true ↔
      (placeWord index length).toInt < 0 ∨ (length : Int) ≤ (placeWord index length).toInt := by
    rw [Bool.or_eq_true, decide_eq_true_eq, decide_eq_true_eq, Int64.lt_iff_toInt_lt,
      Int64.le_iff_toInt_le, h.length_eq, Int64.toInt_zero]
  rw [place?_eq]
  split
  · next hoff =>
      rw [hout, hplace] at hoff
      constructor
      · intro hp
        cases hp
      · rintro ⟨hp, hindex⟩
        split at hoff <;> omega
  · next hin =>
      rw [hout] at hin
      have hnonneg : 0 ≤ placeWord index length := by
        rw [Int64.le_iff_toInt_le, Int64.toInt_zero]
        omega
      rw [Int64.toNat_toUInt64_of_le hnonneg, Int64.toNatClampNeg, Option.some_inj]
      rw [hplace] at hin ⊢
      split at hin <;> omega

variable {κ : Type}

/-- Texts and arrays are what numbers index and repeat. -/
def isSequence : Val κ → Bool
  | string _ => true
  | array _ => true
  | _ => false

/-- The number of pieces that a sequence is stored in: a text byte by byte, an array item by
item. -/
def pieces : Val κ → Nat
  | string s => s.utf8ByteSize
  | array items => items.length
  | _ => 0

/-- The bytes that one piece of a sequence takes. -/
def pieceBytes : Val κ → Nat
  | array _ => itemBytes
  | _ => 1

/-- Copies of a sequence, one behind the other. -/
def copies (count : Nat) : Val κ → Val κ
  | string s => string (String.join (List.replicate count s))
  | array items => array (List.replicate count items).flatten
  | v => v

theorem length_le_utf8ByteSize (text : List Char) :
    text.length ≤ (String.ofList text).utf8ByteSize := by
  induction text with
  | nil => exact Nat.zero_le _
  | cons c rest ih =>
      have hpos := c.utf8Size_pos
      rw [String.ofList_cons, String.utf8ByteSize_append, String.utf8ByteSize_singleton,
        List.length_cons]
      omega

theorem items_eq_ok {v : Val κ} {items : List (Val κ)} (hv : v.isSequence)
    (h : v.items = .ok items) :
    v = array items ∨ ∃ s, v = string s ∧ items = s.toList.map fun c => string c.toString := by
  cases v with
  | array _ =>
      cases h
      exact .inl rfl
  | string s =>
      cases h
      exact .inr ⟨s, rfl, rfl⟩
  | _ => cases hv

/-- A sequence that can be stored has no more items than there are bytes. -/
theorem length_items_le {v : Val κ} {items : List (Val κ)} (hv : v.isSequence)
    (h : v.items = .ok items) (hstored : v.pieces * v.pieceBytes ≤ maxRepeatBytes) :
    items.length ≤ maxRepeatBytes := by
  rcases items_eq_ok hv h with rfl | ⟨s, rfl, rfl⟩
  · simp only [pieces, pieceBytes, itemBytes] at hstored
    omega
  · have hlength := length_le_utf8ByteSize s.toList
    rw [String.ofList_toList] at hlength
    simp only [pieces, pieceBytes, Nat.mul_one] at hstored
    rw [List.length_map]
    omega

theorem itemAt_map {α β : Type} (f : α → β) (items : List α) (n : Number) :
    itemAt (items.map f) n = (itemAt items n).map f := by
  unfold itemAt
  rw [List.length_map]
  cases place? n.toInt items.length with
  | none => rfl
  | some p =>
      simp only [Option.bind_some, List.getElem?_map]
      cases items[p]? <;> rfl

/-- A text is indexed as the list of its characters is. -/
theorem index_eq_itemAt {v : Val κ} {items : List (Val κ)} (hv : v.isSequence)
    (h : v.items = .ok items) {n : Number} (hn : n.isInt) :
    index v (number n) = itemAt items n := by
  rcases items_eq_ok hv h with rfl | ⟨s, rfl, rfl⟩
  · exact if_pos hn
  · rw [itemAt_map]
    exact if_pos hn

theorem itemAt_of_place? {α : Type} {items : List α} {n : Number} {p : Nat}
    (h : place? n.toInt items.length = some p) (hp : p < items.length) :
    itemAt items n = .ok items[p] := by
  unfold itemAt
  rw [h, Option.bind_some, List.getElem?_eq_getElem hp]

theorem itemAt_of_place?_eq_none {α : Type} {items : List α} {n : Number}
    (h : place? n.toInt items.length = .none) :
    itemAt items n = .error (.indexOutOfBounds n.toInt) := by
  unfold itemAt
  rw [h, Option.bind_none]

/-- What a number that is an index finds in a sequence of these items: counted from the front or
from the end, or nothing. -/
structure IndexExact (v : Val κ) (items : List (Val κ)) (n : Number) : Prop where
  words : ExactWords n.toInt items.length
  inside : ∀ p, place? n.toInt items.length = some p → p < items.length
  fromFront : ∀ (i : Nat) (h : i < items.length), n.truncation = i →
    index v (number n) = .ok items[i]
  fromEnd : ∀ (i : Nat) (h : i < items.length), n.truncation = i - items.length →
    index v (number n) = .ok items[i]
  outside : n.truncation < -items.length ∨ items.length ≤ n.truncation →
    index v (number n) = .error (.indexOutOfBounds n.toInt)
  asItems : index v (number n) = index (array items) (number n)

theorem indexExact {v : Val κ} {items : List (Val κ)} (hv : v.isSequence)
    (hitems : v.items = .ok items) (hstored : v.pieces * v.pieceBytes ≤ maxRepeatBytes)
    {n : Number} (hn : n.isInt) : IndexExact v items n := by
  have hmax := maxRepeatBytes_eq
  have hbound := Number.intBound_eq
  have hlength := length_items_le hv hitems hstored
  have hwords := exactWords n.toInt_bounds hlength
  have hindex := index_eq_itemAt hv hitems hn
  have htoInt :
      n.toInt = max (-(Number.intBound : Int)) (min n.truncation (Number.intBound - 1)) := by
    rw [Number.toInt_eq, Number.isNaN_eq_false_of_isInt hn]
    rfl
  refine ⟨hwords, fun p hp => (hwords.place?_eq_some_iff.mp hp).1, ?_, ?_, ?_, ?_⟩
  · intro i hi htruncation
    rw [hindex]
    exact itemAt_of_place? (hwords.place?_eq_some_iff.mpr ⟨hi, .inl (by omega)⟩) hi
  · intro i hi htruncation
    rw [hindex]
    exact itemAt_of_place? (hwords.place?_eq_some_iff.mpr ⟨hi, .inr (by omega)⟩) hi
  · intro hout
    rw [hindex]
    refine itemAt_of_place?_eq_none (Option.eq_none_iff_forall_ne_some.mpr fun p hp => ?_)
    obtain ⟨hin, heq⟩ := hwords.place?_eq_some_iff.mp hp
    omega
  · rw [hindex]
    exact (if_pos hn).symm

end Val

/-- How often a number repeats a sequence: its truncation, clamped to words of 64 bits with a sign,
if that is above zero. -/
def Number.copies (n : Number) : Nat :=
  if n.isNaN then 0 else (max 0 (min n.truncation (intBound - 1))).toNat

namespace Val

variable {κ : Type}

theorem repeatCount_eq_copies (n : Number) : repeatCount n = n.copies := by
  have hbound := Number.intBound_eq
  rw [repeatCount_eq, Number.toInt_eq, Number.copies]
  split <;> omega

theorem repeatString_eq (count : Nat) (s : String) :
    repeatString count s = String.join (List.replicate count s) := by
  unfold repeatString
  split
  · next hempty =>
      rw [String.isEmpty_iff.mp hempty, ← String.toList_inj, String.toList_join]
      simp
  · rfl

theorem pieceBytes_pos (v : Val κ) : 0 < v.pieceBytes := by
  unfold pieceBytes
  split <;> decide

/-- The length is what decides a repetition; the items of an array are gone round just as far as the
copies reach. -/
theorem mul_eq_map_repeatLength? {v : Val κ} (hv : v.isSequence) (n : Number) :
    mul v (number n) = (repeatLength? v.pieces (repeatCount n) v.pieceBytes).map fun _ =>
      v.copies n.copies := by
  cases v with
  | string s =>
      change timesString s n = _
      rw [timesString, repeatString_eq, repeatCount_eq_copies]
      rfl
  | array items =>
      change timesArray items n =
        (repeatLength? items.length (repeatCount n) itemBytes).map fun _ =>
          array (List.replicate n.copies items).flatten
      rw [timesArray, repeatLength?_eq (by decide), repeatCount_eq_copies]
      split
      · rw [← cycleList_mul]
        rfl
      · rfl
  | _ => cases hv

/-- What a number makes of a sequence from either side: all the copies, or a refusal because they
take too many bytes.  The word for the number of copies, and the length that an array is gone round,
are what they stand for and can be stored. -/
structure RepeatExact (v : Val κ) (n : Number) : Prop where
  count_eq : repeatCount n = n.copies
  count_le : repeatCount n ≤ maxRepeatBytes
  length_exact : ∀ length, repeatLength? v.pieces (repeatCount n) v.pieceBytes = .ok length →
    length = v.pieces * n.copies ∧ length * v.pieceBytes ≤ maxRepeatBytes
  comm : mul (number n) v = mul v (number n)
  fits : v.pieces * n.copies * v.pieceBytes ≤ maxRepeatBytes →
    mul v (number n) = .ok (v.copies n.copies)
  refused : maxRepeatBytes < v.pieces * n.copies * v.pieceBytes →
    mul v (number n) = .error (.failure "repeat count too large")

theorem repeatExact {v : Val κ} (hv : v.isSequence) (n : Number) : RepeatExact v n := by
  have hcount := repeatCount_eq_copies n
  have hlength := repeatLength?_eq v.pieceBytes_pos v.pieces (repeatCount n)
  have hmul := mul_eq_map_repeatLength? hv n
  rw [hlength, hcount] at hmul
  refine ⟨hcount, repeatCount_le n, ?_, ?_, ?_, ?_⟩
  · intro length hok
    rw [hlength, hcount] at hok
    split at hok
    · next hfits =>
        cases hok
        exact ⟨rfl, hfits⟩
    · cases hok
  · cases v with
    | string s => rfl
    | array items => rfl
    | _ => cases hv
  · intro hfits
    rw [hmul, if_pos hfits]
    rfl
  · intro hlarge
    rw [hmul, if_neg (Nat.not_le.mpr hlarge)]
    rfl

/-- Numbers index and repeat texts and arrays exactly: no word that is worked out on the way wraps
round, and no item outside a sequence is looked at. -/
theorem sequences_exact {v : Val κ} {items : List (Val κ)} (hv : v.isSequence)
    (hitems : v.items = .ok items) (n : Number) :
    (v.pieces * v.pieceBytes ≤ maxRepeatBytes → n.isInt → IndexExact v items n) ∧
      RepeatExact v n :=
  ⟨fun hstored hn => indexExact hv hitems hstored hn, repeatExact hv n⟩

namespace SequenceWitness

/-- Characters of one, two and three bytes. -/
def text : Val Unit := string "aé€"

/-- A number beyond all words of 64 bits. -/
def huge : Number := ⟨10000000000000000000⟩

theorem text_exact :
    index text (number ⟨-2⟩) = .ok (string "é") ∧
      index text (number huge) = .error (.indexOutOfBounds 9223372036854775807) ∧
      mul (number ⟨2⟩) text = .ok (text.copies 2) ∧
      mul (number huge) text = .error (.failure "repeat count too large") := by
  have hstored : text.pieces * text.pieceBytes ≤ maxRepeatBytes := by decide +kernel
  have hclamped : huge.toInt = 9223372036854775807 := by decide +kernel
  have hexact := sequences_exact (v := text) rfl rfl
  have hnear := (hexact ⟨-2⟩).1 hstored (by decide +kernel)
  have hfar := (hexact huge).1 hstored (by decide +kernel)
  have htwice := (hexact ⟨2⟩).2
  have hlarge := (hexact huge).2
  refine ⟨hnear.fromEnd 1 (by decide) (by decide +kernel), ?_, ?_, ?_⟩
  · rw [hfar.outside (.inr (by decide +kernel)), hclamped]
  · have hcopies : Number.copies ⟨2⟩ = 2 := by decide +kernel
    rw [htwice.comm, htwice.fits (by decide +kernel), hcopies]
  · rw [hlarge.comm, hlarge.refused (by decide +kernel)]

end SequenceWitness

end Val

end Stencil
