import Primer.Fault
import Primer.Text.Blank

/-!
# Primer.Value.Convert — from one kind of value to another.

Three families.  `as…` converts where some reading makes sense, as an index or a text does.
`coerce` is the check at every slot: it lets a value pass that already fits, and the one change it
makes is an integer that becomes a real in a real slot.  `ofInput` reads a line of console input.
-/

namespace Primer.Value

/-! ## Conversions -/

/-- Reals lose their fraction, truth values become one and zero, characters their code point and
texts are read. -/
def asInteger : Value → Except Fault Integer
  | integer n => .ok n
  | real x =>
    match Real.Binary.ofFloat? x with
    | none => .error (.typeError (.notFinite x))
    | some b => (Integer.ofInt? b.whole).elim (.error .overflow) .ok
  | boolean b => .ok (.ofBool b)
  | char c => .ok (.ofChar c)
  | string s =>
    (Integer.read? (Text.trim s.toList)).elim (.error (.typeError (.notInteger s))) .ok
  | array .. => .error .expectedNumber

/-- Integers widen, truth values become one and zero and texts are read. -/
def asReal : Value → Except Fault Float
  | integer n => .ok n.toReal
  | real x => .ok x
  | boolean b => .ok (if b then 1.0 else 0.0)
  | string s =>
    (Real.read? (Text.trim s.toList)).elim (.error (.typeError (.notNumber s))) .ok
  | char _ | array .. => .error .expectedNumber

/-- The truth value that a text spells. -/
def readBoolean? (cs : List Char) : Option Bool :=
  if cs = "true".toList then some true
  else if cs = "false".toList then some false
  else none

/-- Numbers are true unless they are zero; texts spell the truth value. -/
def asBoolean : Value → Except Fault Bool
  | boolean b => .ok b
  | integer n => .ok (decide (n.val ≠ 0))
  | real x => .ok (x != 0.0)
  | string s => (readBoolean? (Text.trim s.toList)).elim (.error .expectedBoolean) .ok
  | char _ | array .. => .error .expectedBoolean

/-- The truth value of a boolean; nothing is converted. -/
def expectBoolean : Value → Except Fault Bool
  | boolean b => .ok b
  | _ => .error .expectedBoolean

/-! ## The check at a slot -/

/-- The value as a scalar slot of this type holds it. -/
def coerceScalar (v : Value) (slot : Scalar) : Except Fault Value :=
  match slot, v with
  | .integer, integer n => .ok (integer n)
  | .real, real x => .ok (real x)
  | .boolean, boolean b => .ok (boolean b)
  | .char, char c => .ok (char c)
  | .string, string s => .ok (string s)
  | .real, integer n => .ok (real n.toReal)
  | _, _ => .error (.typeError (.cannotStore v (.scalar slot)))

/-- The value as a slot of this type holds it.  An array slot takes arrays of the same element type
and the same sizes. -/
def coerce (v : Value) (slot : SlotType) : Except Fault Value :=
  match slot with
  | .scalar type => v.coerceScalar type
  | .array element dimensions =>
    match v with
    | array t items =>
      if t = element ∧ (array t items).shape = dimensions then .ok (array t items)
      else .error (.typeError (.cannotStore (array t items) slot))
    | other => .error (.typeError (.cannotStore other slot))

/-! ## Console input -/

/-- The value that a text denotes in a given type, its line break already dropped. -/
def read? (cs : List Char) : Scalar → Option Value
  | .integer => (Integer.read? (Text.trim cs)).map integer
  | .real => (Real.read? (Text.trim cs)).map real
  | .boolean => (readBoolean? (Text.trim cs)).map boolean
  | .char =>
    match cs with
    | [c] => some (char c)
    | _ => none
  | .string => some (string (String.ofList cs))

/-- The value that a line of input denotes.  Its line break is not part of the text; blanks around
numbers and truth values do not count, but those of characters and texts do. -/
def ofInput (line : String) (expected : Scalar) : Except Fault Value :=
  let cs := Text.dropLineBreaks line.toList
  match read? cs expected with
  | some v => .ok v
  | none => .error (.invalidInput (String.ofList cs) expected)

end Primer.Value
