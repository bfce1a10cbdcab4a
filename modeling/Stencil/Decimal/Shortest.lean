/-
The shortest decimal in an interval.  A binary fraction stands for every real that rounds
to it; of the decimals in that interval the one on the coarsest power-of-ten grid has the
fewest digits.
-/

namespace Stencil

/-- The number `digits · 10 ^ exponent`. -/
structure Decimal where
  digits : Nat
  exponent : Int
deriving DecidableEq, Repr

/-- The decimal without an exponent: zeros fill the places up to the point. -/
def Decimal.positional (d : Decimal) : String :=
  let digits := (toString d.digits).toList
  match d.exponent with
  | .ofNat zeros => String.ofList (digits ++ List.replicate zeros '0')
  | .negSucc n =>
      let places := n + 1
      if places < digits.length then
        let whole := digits.length - places
        String.ofList (digits.take whole ++ '.' :: digits.drop whole)
      else String.ofList ('0' :: '.' :: List.replicate (places - digits.length) '0' ++ digits)

/-- A value with the interval of reals that round to it, all three over one denominator. -/
structure RoundingInterval where
  low : Nat
  value : Nat
  high : Nat
  denominator : Nat
  /-- The ends of the interval round to the value too. -/
  closed : Bool

/-- The interval holds the point that is `point * step / scale` over the denominator. -/
def RoundingInterval.holds (i : RoundingInterval) (scale step point : Nat) : Bool :=
  if i.closed then i.low * scale ≤ point * step && point * step ≤ i.high * scale
  else i.low * scale < point * step && point * step < i.high * scale

/-- The multiple of `10 ^ exponent` in the interval that is nearest to the value.  Only the
value's two neighbours on the grid can be it; of two equally near the upper one is taken. -/
def RoundingInterval.onGrid (i : RoundingInterval) (exponent : Int) : Option Nat :=
  let power := Nat.pow 10 exponent.natAbs
  let scale := if exponent < 0 then power else 1
  let step := i.denominator * (if exponent < 0 then 1 else power)
  let below := i.value * scale / step
  let past := i.value * scale % step
  let down := i.holds scale step below
  let up := i.holds scale step (below + 1)
  if up && (!down || step ≤ 2 * past) then some (below + 1)
  else if down then some below
  else none

/-- The first of `fuel` grids, from `10 ^ exponent` to finer ones, with a point in the
interval. -/
def RoundingInterval.coarsest (i : RoundingInterval) : Nat → Int → Option Decimal
  | 0, _ => none
  | fuel + 1, exponent =>
      match i.onGrid exponent with
      | some digits => some ⟨digits, exponent⟩
      | none => i.coarsest fuel (exponent - 1)

end Stencil
