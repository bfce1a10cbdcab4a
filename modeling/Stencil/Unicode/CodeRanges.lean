/-
Sets of characters given by ranges of code points, both ends included.
-/

namespace Stencil

/-- Ranges of code points, first and last included. -/
abbrev CodeRanges := List (Nat × Nat)

/-- Some range holds the code point of `c`. -/
def CodeRanges.has (ranges : CodeRanges) (c : Char) : Bool :=
  ranges.any fun r => r.1 ≤ c.toNat && c.toNat ≤ r.2

end Stencil
