import Primer.Real.Binary

/-!
# Primer.Real.Shortest — the fewest decimal digits that read back to the same double.

The decimals that round to a double form an interval around it, from half a gap below to half a gap
above; its ends belong to it when the significand is even, because ties go to the even significand.
`Shortest.digits` looks at ever finer decimal grids and on each at the two neighbours of the exact
value.  The first grid with a neighbour inside the interval gives the fewest digits; of two such
neighbours the nearer is taken, and of two equally near ones the upper.

All arithmetic is exact: a magnitude is the quotient of two natural numbers.
-/

namespace Primer.Real

/-- The decimal number `digits * 10 ^ exponent`. -/
structure Decimal where
  digits : Nat
  exponent : Int
deriving DecidableEq, Repr

/-- The magnitudes that read as one double: `value`, `low` and `high` over the common `scale`. -/
structure Interval where
  value : Nat
  low : Nat
  high : Nat
  scale : Nat
  closed : Bool
deriving DecidableEq, Repr

/-- A quarter of the last place is the unit, so that half a gap on either side is whole. -/
def Binary.interval (b : Binary) : Interval :=
  let up := Nat.pow 2 b.exponent.toNat
  { value := 4 * b.significand * up
    low := (4 * b.significand - if b.halfGapBelow then 1 else 2) * up
    high := (4 * b.significand + 2) * up
    scale := 4 * Nat.pow 2 (-b.exponent).toNat
    closed := b.significand % 2 = 0 }

/-- The exact decimal lies in the interval.  Both sides are multiplied by the denominators. -/
def Interval.holds (i : Interval) (d : Decimal) : Bool :=
  let point := d.digits * Nat.pow 10 d.exponent.toNat * i.scale
  let unit := Nat.pow 10 (-d.exponent).toNat
  if i.closed then decide (i.low * unit ≤ point ∧ point ≤ i.high * unit)
  else decide (i.low * unit < point ∧ point < i.high * unit)

/-- The number of decimal digits before the point; below one, the negated number of zeros that
follow the point.  Four hundred places bring every positive double above one. -/
def magnitude (num den : Nat) : Int :=
  if den ≤ num then (Nat.toDigits 10 (num / den)).length
  else (Nat.toDigits 10 (num * Nat.pow 10 400 / den)).length - 400

/-- The two neighbours of the exact value on the grid of multiples of `10 ^ exponent`. -/
def Interval.neighbours (i : Interval) (exponent : Int) : Decimal × Decimal :=
  let below := i.value * Nat.pow 10 (-exponent).toNat / (i.scale * Nat.pow 10 exponent.toNat)
  (⟨below, exponent⟩, ⟨below + 1, exponent⟩)

/-- The value is nearer to the first of its two neighbours than to the second. -/
def Interval.nearerBelow (i : Interval) (exponent : Int) : Bool :=
  let num := i.value * Nat.pow 10 (-exponent).toNat
  let den := i.scale * Nat.pow 10 exponent.toNat
  decide (2 * (num % den) < den)

/-- The decimal of this grid that reads back, if there is one: the nearer of two. -/
def Interval.onGrid? (i : Interval) (exponent : Int) : Option Decimal :=
  let (below, above) := i.neighbours exponent
  if i.holds below then
    if i.holds above && !i.nearerBelow exponent then some above else some below
  else if i.holds above then some above
  else none

/-- Tries the grids of `count` digits, then of one digit more, and so on for `tries` grids.  The
grid of seventeen digits always has a hit, so the last answer is never needed. -/
def Interval.search (i : Interval) (top : Int) : Nat → Nat → Decimal
  | _, 0 => (i.neighbours (top - 17)).1
  | count, tries + 1 =>
    match i.onGrid? (top - count) with
    | some d => d
    | none => i.search top (count + 1) tries

/-- The shortest decimal that reads back as the magnitude of a finite double. -/
def Binary.shortest (b : Binary) : Decimal :=
  if b.significand = 0 then ⟨0, 0⟩
  else
    let i := b.interval
    i.search (magnitude i.value i.scale) 1 17

end Primer.Real
