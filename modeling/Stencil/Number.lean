/-
Numbers: IEEE doubles.  Every finite double is a whole number of units of 2⁻¹⁰⁷⁴, and
every question about integers, remainders, order and text is answered on that whole number.
-/
import Stencil.Decimal.Shortest

namespace Stencil

/-- A double. -/
structure Number where
  value : Float
deriving DecidableEq, Inhabited

/-- The weight of the sign bit. -/
def Number.signBit : Nat := Nat.pow 2 63

/-- The number of fractions that share an exponent. -/
def Number.fractions : Nat := Nat.pow 2 52

/-- The bits of the double below its sign: they order the magnitudes. -/
def Number.magnitude (n : Number) : Nat := n.value.toBits.toNat % Number.signBit

/-- The sign bit is set. -/
def Number.negative (n : Number) : Bool := Number.signBit ≤ n.value.toBits.toNat

/-- The magnitude of infinity; not-a-number lies above it. -/
def Number.infiniteMagnitude : Nat := 2047 * Number.fractions

def Number.isNaN (n : Number) : Bool := Number.infiniteMagnitude < n.magnitude

def Number.isFinite (n : Number) : Bool := n.magnitude < Number.infiniteMagnitude

/-- The absolute value in units of 2⁻¹⁰⁷⁴, exact for finite numbers. -/
def Number.units (n : Number) : Nat :=
  let exponent := n.magnitude / Number.fractions
  let fraction := n.magnitude % Number.fractions
  if exponent = 0 then fraction else (fraction + Number.fractions) * Nat.pow 2 (exponent - 1)

/-- The number of units of 2⁻¹⁰⁷⁴ in one. -/
def Number.unitsPerOne : Nat := Nat.pow 2 1074

/-- The units in 2⁻⁵², the distance from one to the next double. -/
def Number.unitsPerEpsilon : Nat := Nat.pow 2 1022

/-- The double of a sign and a number of units that a double can hold. -/
def Number.ofUnits (negative : Bool) (units : Nat) : Number :=
  let shift := units.log2 - 52
  let bits := shift * Number.fractions + units / Nat.pow 2 shift
  ⟨Float.ofBits (UInt64.ofNat (if negative then Number.signBit + bits else bits))⟩

def Number.ofInt (n : Int) : Number := ⟨Float.ofInt n⟩

/-- The double nearest to the decimal numeral with these digits before and after the point. -/
def Number.ofDigits (whole fraction : List Char) : Number :=
  let digits := (whole ++ fraction).foldl (fun n c => 10 * n + (c.toNat - '0'.toNat)) 0
  ⟨Float.ofScientific digits true fraction.length⟩

/-- Integers have 64 bits: they lie from `-intBound` up to `intBound - 1`. -/
def Number.intBound : Nat := Nat.pow 2 63

/-- The number truncated to an integer and clamped to 64 bits; zero if it is not a number. -/
def Number.toInt (n : Number) : Int :=
  if n.isNaN then 0
  else
    let whole : Int := n.units / Number.unitsPerOne
    if n.negative then max (-whole) (-Number.intBound) else min whole (Number.intBound - 1)

/-- The number is within 2⁻⁵² of its truncation. -/
def Number.isInt (n : Number) : Bool :=
  n.isFinite && n.units % Number.unitsPerOne < Number.unitsPerEpsilon

/-- The number is within 2⁻⁵² of zero. -/
def Number.isZero (n : Number) : Bool := n.units < Number.unitsPerEpsilon

/-- The magnitude with its sign: both zeros are zero, infinities are at the ends. -/
def Number.order (n : Number) : Int :=
  if n.negative then -n.magnitude else n.magnitude

/-- All numbers in one line: not-a-number equals itself and is above everything else. -/
def Number.compare (a b : Number) : Ordering :=
  match a.isNaN, b.isNaN with
  | true, true => .eq
  | true, false => .gt
  | false, true => .lt
  | false, false => Ord.compare a.order b.order

instance : Ord Number := ⟨Number.compare⟩

/-- Equality as IEEE has it: not-a-number equals nothing, the two zeros are equal. -/
instance : BEq Number where
  beq a b := !a.isNaN && !b.isNaN && a.order == b.order

instance : Add Number := ⟨fun a b => ⟨a.value + b.value⟩⟩
instance : Sub Number := ⟨fun a b => ⟨a.value - b.value⟩⟩
instance : Mul Number := ⟨fun a b => ⟨a.value * b.value⟩⟩
instance : Div Number := ⟨fun a b => ⟨a.value / b.value⟩⟩
instance : Neg Number := ⟨fun a => ⟨-a.value⟩⟩

def Number.pow (a b : Number) : Number := ⟨Float.pow a.value b.value⟩

/-- The quotient rounded down. -/
def Number.floorDiv (a b : Number) : Number := ⟨(a.value / b.value).floor⟩

/-- The exact remainder of the division truncated to an integer, with the sign of `a`. -/
def Number.remainder (a b : Number) : Number :=
  if !a.isFinite || b.isNaN || b.units = 0 then ⟨0 / 0⟩
  else if !b.isFinite then a
  else Number.ofUnits a.negative (a.units % b.units)

/-- The remainder with the sign of the divisor. -/
def Number.modulo (a b : Number) : Number :=
  let rest := a.remainder b
  if rest.value != 0 && (decide (rest.value < 0) != decide (b.value < 0)) then rest + b else rest

/-- The reals that round to a finite number, in quarters of a unit.  Below a power of two
the doubles lie twice as close. -/
def Number.interval (n : Number) : RoundingInterval :=
  let exponent := n.magnitude / Number.fractions
  let fraction := n.magnitude % Number.fractions
  let ulp := Nat.pow 2 (exponent - 1)
  { low := 4 * n.units - (if fraction = 0 && exponent ≠ 0 then ulp else 2 * ulp)
    value := 4 * n.units
    high := 4 * n.units + 2 * ulp
    denominator := 4 * Number.unitsPerOne
    closed := fraction % 2 = 0 }

/-- The decimal with the fewest digits that rounds to a finite number.  Seventeen digits
always suffice, and the first grid is coarser than the number. -/
def Number.shortest (n : Number) : Decimal :=
  let twos : Int := (n.units.log2 : Int) - 1074
  (n.interval.coarsest 25 ((twos * 30103) / 100000 + 2)).getD ⟨0, 0⟩

/-- Integers from here on are not written by their digits alone. -/
def Number.wholeBound : Nat := Nat.pow 2 53

/-- The text of a number: integers below 2⁵³ by their digits, other numbers by the shortest
decimal that reads back, never with an exponent. -/
def Number.text (n : Number) : String :=
  if n.isNaN then "NaN"
  else
    let isWhole := n.isFinite && n.units % Number.unitsPerOne = 0
      && n.units < Number.wholeBound * Number.unitsPerOne
    if isWhole then toString n.toInt
    else
      let digits := if n.isFinite then n.shortest.positional else "inf"
      if n.negative then "-" ++ digits else digits

end Stencil
