import Primer.Integer

/-!
# Primer.Real.Binary — doubles as exact binary numbers.

A finite double is a sign and a natural number `significand * 2 ^ exponent`.  Here the three fields
are read off the 64 bits, and the one exact operation that the language needs on them, dropping the
fraction, is done in `Int`.
-/

namespace Primer.Real

/-- The magnitude `significand * 2 ^ exponent` with a sign.  `halfGapBelow` says that the next
smaller double is only half a unit of the last place away, which happens at the powers of two. -/
structure Binary where
  negative : Bool
  significand : Nat
  exponent : Int
  halfGapBelow : Bool
deriving DecidableEq, Repr

/-- The least significand of a double with all its digits: two to the fifty-second. -/
def hiddenBit : Nat := 4503599627370496

/-- The exact content of a double; `none` for the infinities and for the value that is no number. -/
def Binary.ofFloat? (x : Float) : Option Binary :=
  let bits := x.toBits.toNat
  let negative := decide (2048 * hiddenBit ≤ bits)
  let stored : Nat := bits / hiddenBit % 2048
  let fraction : Nat := bits % hiddenBit
  if stored = 2047 then none
  else if stored = 0 then some ⟨negative, fraction, -1074, false⟩
  else
    some ⟨negative, hiddenBit + fraction, (stored : Int) - 1075,
      decide (fraction = 0 ∧ 1 < stored)⟩

/-- The number without its fraction: the value moved toward zero to a whole number. -/
def Binary.whole (b : Binary) : Int :=
  let magnitude :=
    if 0 ≤ b.exponent then b.significand * Nat.pow 2 b.exponent.toNat
    else b.significand / Nat.pow 2 (-b.exponent).toNat
  if b.negative then -(magnitude : Int) else magnitude

/-- Neither infinite nor the value that is no number. -/
def isFinite (x : Float) : Bool := (Binary.ofFloat? x).isSome

/-- The order of two doubles; none where one of them is no number. -/
def order? (x y : Float) : Option Ordering :=
  if x < y then some .lt
  else if x == y then some .eq
  else if y < x then some .gt
  else none

end Primer.Real
