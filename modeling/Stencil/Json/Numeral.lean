/-
The number of a JSON numeral.  Its digits are read into a 64-bit word; digits that no
longer fit move the point, or are dropped behind it.  The word is then scaled once by a
power of ten in double arithmetic, so the result can be an ulp away from the nearest double.
-/
import Stencil.Number

namespace Stencil

/-- A numeral as `word · 10 ^ exponent`, where `word` fits 64 bits. -/
structure Significand where
  word : Nat
  exponent : Int

/-- The word holds numbers below this one. -/
def Significand.wordBound : Nat := Nat.pow 2 64

/-- Reads digits while they fit the word.  Returns the word, the number of digits read and
the digits left over. -/
def Significand.push (word count : Nat) : List Char → Nat × Nat × List Char
  | [] => (word, count, [])
  | c :: rest =>
      let longer := 10 * word + (c.toNat - '0'.toNat)
      if longer < wordBound then push longer (count + 1) rest else (word, count, c :: rest)

/-- The significand of the digits before and after the point. -/
def Significand.ofDigits (whole fraction : List Char) : Significand :=
  let (word, _, dropped) := push 0 0 whole
  let (word, places, _) := push word 0 fraction
  ⟨word, (dropped.length : Int) - places⟩

/-- `n · 10 ^ exponent` in double arithmetic, for an exponent of at most 308 either way. -/
def Number.scaleTen (n : Number) (exponent : Int) : Number :=
  let power : Number := ⟨Float.ofScientific 1 false exponent.natAbs⟩
  if exponent < 0 then n / power else n * power

/-- `n · 10 ^ exponent`, or nothing if it is too large for a double.  A low exponent is
worked off in steps of 308; two of them bring every 64-bit word to zero. -/
def Number.scale? (n : Number) (exponent : Int) : Nat → Option Number
  | 0 => some n
  | steps + 1 =>
      if exponent.natAbs ≤ 308 then
        let scaled := n.scaleTen exponent
        if scaled.isFinite then some scaled else none
      else if n.units = 0 then some n
      else if 0 < exponent then none
      else scale? (n / ⟨1e308⟩) (exponent + 308) steps

/-- The number with these digits before and after the point and this power of ten, or
nothing if it is too large for a double. -/
def Number.ofNumeral? (negative : Bool) (whole fraction : List Char) (power : Int) :
    Option Number :=
  let s := Significand.ofDigits whole fraction
  let n := Number.scale? (Number.ofInt s.word) (s.exponent + power) 4
  n.map fun n => if negative then -n else n

end Stencil
