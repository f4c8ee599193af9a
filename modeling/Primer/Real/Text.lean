import Primer.Real.Shortest
import Primer.Text.Ends

/-!
# Primer.Real.Text — reals as text.

A real is written with the fewest digits that read back, always positionally and without a point
when there is no fraction.  It is read from an optional sign followed by decimal digits with an
optional point and an optional exponent, or by one of the words for infinity and for no number.
-/

namespace Primer.Real

/-! ## Writing -/

/-- A point and the fraction, or nothing where the fraction is zero. -/
def fractionText (digits : List Char) : List Char :=
  match Text.dropTrailing (· == '0') digits with
  | [] => []
  | kept => '.' :: kept

/-- The decimal written out in full, without an exponent. -/
def Decimal.positional (d : Decimal) : List Char :=
  let digits := Nat.toDigits 10 d.digits
  let places := (-d.exponent).toNat
  if 0 ≤ d.exponent then digits ++ List.replicate d.exponent.toNat '0'
  else if places < digits.length then
    digits.take (digits.length - places) ++ fractionText (digits.drop (digits.length - places))
  else '0' :: fractionText (List.replicate (places - digits.length) '0' ++ digits)

/-- The text of a real: negative zero keeps its sign. -/
def text (x : Float) : String :=
  match Binary.ofFloat? x with
  | some b =>
    let magnitude := b.shortest.positional
    String.ofList (if b.negative then '-' :: magnitude else magnitude)
  | none => if x < 0 then "-inf" else if 0 < x then "inf" else "NaN"

/-! ## Reading -/

/-- The double nearest to `significand * 10 ^ exponent`.  Far beyond the largest double the answer
is infinite and far below the smallest it is zero, whatever the size of the exponent. -/
def ofDecimal (significand : Nat) (exponent : Int) : Float :=
  if significand = 0 then 0.0
  else
    let top := (Nat.toDigits 10 significand).length + exponent
    if 400 < top then 1.0 / 0.0
    else if top < -400 then 0.0
    else OfScientific.ofScientific significand (decide (exponent < 0)) exponent.natAbs

/-- The exponent part: nothing at all, or the letter, an optional sign and at least one digit. -/
def readExponent? (cs : List Char) : Option Int :=
  match cs with
  | [] => some 0
  | e :: rest =>
    if e == 'e' || e == 'E' then
      match rest with
      | '-' :: digits => (Text.numeral? digits).map fun n => -n
      | '+' :: digits => (Text.numeral? digits).map fun n => n
      | digits => (Text.numeral? digits).map fun n => n
    else none

/-- Digits with an optional point and an optional exponent; one digit at least before the
exponent. -/
def readDecimal? (cs : List Char) : Option Float :=
  let units := cs.takeWhile Char.isDigit
  let afterUnits := cs.dropWhile Char.isDigit
  let (fraction, rest) :=
    match afterUnits with
    | '.' :: more => (more.takeWhile Char.isDigit, more.dropWhile Char.isDigit)
    | _ => ([], afterUnits)
  if units.isEmpty && fraction.isEmpty then none
  else
    (readExponent? rest).map fun e =>
      ofDecimal (Text.digitsValue (units ++ fraction)) (e - fraction.length)

/-- A real without its sign. -/
def readUnsigned? (cs : List Char) : Option Float :=
  let word := cs.map Char.toLower
  if word = "inf".toList ∨ word = "infinity".toList then some (1.0 / 0.0)
  else if word = "nan".toList then some (0.0 / 0.0)
  else readDecimal? cs

/-- A real with an optional sign. -/
def read? (cs : List Char) : Option Float :=
  match cs with
  | '-' :: rest => (readUnsigned? rest).map fun x => -x
  | '+' :: rest => readUnsigned? rest
  | rest => readUnsigned? rest

end Primer.Real
