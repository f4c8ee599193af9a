import Primer.Text.Digits

/-!
# Primer.Integer — whole numbers with a fixed range.

The integers of the language run from `-2147483648` to `2147483647`.  The bounds are part of the
type, so every function that returns an `Integer` has checked its result, and an operation whose
mathematical result leaves the range answers `none`.  `Integer.ofInt?` is the only gate: each
operation is the exact one on `Int`, followed by that gate.
-/

namespace Primer

/-- A whole number in the range of the language. -/
structure Integer where
  val : Int
  lower : -2147483648 ≤ val := by omega
  upper : val ≤ 2147483647 := by omega
deriving DecidableEq

namespace Integer

/-! ## The gate -/

/-- The integer with this value, if the range holds it. -/
def ofInt? (n : Int) : Option Integer :=
  if h : -2147483648 ≤ n ∧ n ≤ 2147483647 then some ⟨n, h.1, h.2⟩ else none

@[ext]
theorem ext {a b : Integer} (h : a.val = b.val) : a = b := by
  cases a
  cases b
  cases h
  rfl

/-- The gate lets exactly the values of the range pass, unchanged. -/
theorem ofInt?_eq_some_iff {n : Int} {a : Integer} : ofInt? n = some a ↔ a.val = n := by
  constructor
  · intro h
    unfold ofInt? at h
    split at h
    · cases h
      rfl
    · cases h
  · intro h
    subst h
    simp [ofInt?, a.lower, a.upper]

theorem ofInt?_eq_none_iff {n : Int} :
    ofInt? n = none ↔ n < -2147483648 ∨ 2147483647 < n := by
  unfold ofInt?
  split <;> simp <;> omega

@[simp]
theorem ofInt?_val (a : Integer) : ofInt? a.val = some a :=
  ofInt?_eq_some_iff.2 rfl

/-! ## Constants -/

/-- Zero, the value of a fresh integer slot and of every finished procedure call. -/
def zero : Integer := { val := 0 }

/-- One for true, zero for false. -/
def ofBool (b : Bool) : Integer := if b then { val := 1 } else zero

/-- The code point of a character, which is below `0x110000`. -/
def ofChar (c : Char) : Integer where
  val := c.toNat
  upper := by
    have h := c.valid
    have h' : c.toNat < 0x110000 := by
      simp only [UInt32.isValidChar, Nat.isValidChar] at h
      show c.val.toNat < 0x110000
      omega
    omega

/-! ## Exact arithmetic -/

def add? (a b : Integer) : Option Integer := ofInt? (a.val + b.val)

def sub? (a b : Integer) : Option Integer := ofInt? (a.val - b.val)

def mul? (a b : Integer) : Option Integer := ofInt? (a.val * b.val)

/-- The quotient toward zero.  It leaves the range only for the least integer over `-1`; the caller
has ruled out a zero divisor. -/
def div? (a b : Integer) : Option Integer := ofInt? (a.val.tdiv b.val)

/-- The opposite, which the least integer does not have. -/
def neg? (a : Integer) : Option Integer := ofInt? (-a.val)

/-! ## Order, text and size -/

/-- The order of the values. -/
def order (a b : Integer) : Ordering := compare a.val b.val

/-- Decimal digits after a minus sign for the negative values. -/
def text (a : Integer) : String := toString a.val

/-- The real of this value; every integer of the range is one exactly. -/
def toReal (a : Integer) : Float := Float.ofInt a.val

/-- The position this integer names among `length` places counted from zero. -/
def position? (a : Integer) (length : Nat) : Option Nat :=
  if 0 ≤ a.val ∧ a.val.toNat < length then some a.val.toNat else none

theorem position?_eq_some_iff {a : Integer} {length i : Nat} :
    a.position? length = some i ↔ a.val = i ∧ i < length := by
  unfold position?
  split <;> simp <;> omega

theorem position?_eq_none_iff {a : Integer} {length : Nat} :
    a.position? length = none ↔ a.val < 0 ∨ length ≤ a.val := by
  unfold position?
  split <;> simp <;> omega

/-- An optional sign, then at least one decimal digit, with a value in the range. -/
def read? (cs : List Char) : Option Integer :=
  match cs with
  | '-' :: digits => (Text.numeral? digits).bind fun n => ofInt? (-n)
  | '+' :: digits => (Text.numeral? digits).bind fun n => ofInt? n
  | digits => (Text.numeral? digits).bind fun n => ofInt? n

end Integer

end Primer
