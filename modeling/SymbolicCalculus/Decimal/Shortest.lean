/-
# The shortest decimal that reads back

Of all decimals that round to a given binary number, the shortest has the fewest digits, and among
those it is the nearest to the number.

A binary number and the midpoints to its two neighbours are given in quarters of a unit
(`RoundingRange`), where the unit is a power of ten in which the number is whole.  The decimals that
read back are those between the midpoints.  A decimal with few digits is a multiple of a large power
of ten, so `coarsest` walks down from a power of ten beyond the number until a multiple lies in
the range; the walk ends at the unit itself, of which the number is a multiple.  A tie between two
multiples goes up.
-/
import SymbolicCalculus.Decimal.Basic

namespace SymbolicCalculus

/-! ## 1. The range of numbers that round to a given one -/

/-- A number and the range of reals that round to it, in quarters of a common unit. -/
structure RoundingRange where
  /-- The number itself. -/
  value : Nat
  /-- The midpoint to the next smaller number. -/
  lower : Nat
  /-- The midpoint to the next larger number. -/
  upper : Nat
  /-- Whether the midpoints belong to the range. -/
  closed : Bool

namespace RoundingRange

/-- Whether a point rounds to the number. -/
def contains (r : RoundingRange) (x : Nat) : Bool :=
  if r.closed then decide (r.lower ≤ x) && decide (x ≤ r.upper)
  else decide (r.lower < x) && decide (x < r.upper)

/-- The multiple of `step` in the range that is nearest to the number, as a count of steps. -/
def nearestMultiple? (r : RoundingRange) (step : Nat) : Option Nat :=
  let below := r.value / step
  match r.contains (below * step), r.contains ((below + 1) * step) with
  | true, true => some (if 2 * r.value < (2 * below + 1) * step then below else below + 1)
  | true, false => some below
  | false, true => some (below + 1)
  | false, false => none

/-- The multiple in the range of the largest power of ten up to `10 ^ places`, as a count and
the exponent of the power; failing all of them, the whole units of the number. -/
def coarsest (r : RoundingRange) : Nat → Nat × Nat
  | 0 => (r.value / 4, 0)
  | places + 1 =>
    match r.nearestMultiple? (4 * Nat.pow 10 (places + 1)) with
    | some count => (count, places + 1)
    | none => r.coarsest places

/-- More decimal places than the number has digits. -/
def places (r : RoundingRange) : Nat := r.value.log2 * 30103 / 100000 + 2

end RoundingRange

/-! ## 2. Binary numbers -/

/-- The range of reals that round to `mantissa * 2 ^ exponent`, in quarters of `10 ^ 0` or, for
a negative exponent, of `10 ^ exponent`.  Below a `boundary` (the least mantissa of its exponent)
the neighbours lie twice as close. -/
def RoundingRange.ofBinary (mantissa : Nat) (exponent : Int) (boundary : Bool) : RoundingRange :=
  let scale := match exponent with
    | .ofNat n => Nat.pow 2 n
    | .negSucc n => Nat.pow 5 (n + 1)
  { value := 4 * mantissa * scale
    lower := (4 * mantissa - if boundary then 1 else 2) * scale
    upper := (4 * mantissa + 2) * scale
    closed := mantissa % 2 == 0 }

/-- The shortest decimal that rounds to the positive number `mantissa * 2 ^ exponent`. -/
def Decimal.shortest (mantissa : Nat) (exponent : Int) (boundary : Bool) : Decimal :=
  let r := RoundingRange.ofBinary mantissa exponent boundary
  let (count, places) := r.coarsest r.places
  ⟨count, places + min exponent 0⟩

end SymbolicCalculus
