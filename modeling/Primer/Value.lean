import Primer.Types
import Primer.Real.Text

/-!
# Primer.Value — the values a program computes with.

A value is a scalar or an array; the rows of an array with several dimensions are arrays again, and
copying a value copies every part of it.  The type alone does not make an array rectangular.
-/

namespace Primer

/-- A scalar, or an array with the type of its scalars. -/
inductive Value where
  | integer (n : Integer)
  | real (x : Float)
  | boolean (b : Bool)
  | char (c : Char)
  | string (s : String)
  | array (element : Scalar) (items : List Value)
deriving Inhabited

namespace Value

/-! ## What a fresh slot holds -/

/-- The value of a scalar slot before its first assignment. -/
def initial : Scalar → Value
  | .integer => integer .zero
  | .real => real 0.0
  | .boolean => boolean false
  | .char => char ' '
  | .string => string ""

/-! ## Names and text -/

/-- The kind of a value, as messages name it. -/
def kind : Value → String
  | integer _ => "integer"
  | real _ => "real"
  | boolean _ => "boolean"
  | char _ => "char"
  | string _ => "string"
  | array .. => "array"

/-- The two truth values as words of the language. -/
def booleanText (b : Bool) : String := if b then "true" else "false"

mutual

/-- The text that output writes. -/
def text : Value → String
  | integer n => n.text
  | real x => Real.text x
  | boolean b => booleanText b
  | char c => c.toString
  | string s => s
  | array _ items => "[" ++ ", ".intercalate (texts items) ++ "]"

/-- The texts of the items of an array. -/
def texts : List Value → List String
  | [] => []
  | v :: rest => text v :: texts rest

end

theorem texts_eq_map (vs : List Value) : texts vs = vs.map text := by
  induction vs with
  | nil => rfl
  | cons v vs ih => simp [texts, ih]

/-! ## Shape -/

mutual

/-- The sizes of the dimensions, outermost first, measured along the first items. -/
def shape : Value → List Nat
  | array _ items => items.length :: headShape items
  | integer _ | real _ | boolean _ | char _ | string _ => []

/-- The shape of the first item, if there is one. -/
def headShape : List Value → List Nat
  | [] => []
  | v :: _ => shape v

end

/-! ## Equality -/

mutual

/-- Equality of values of the same kind: reals by the comparison of doubles, for which the value
that is no number differs from itself; arrays by element type and items. -/
def equal : Value → Value → Bool
  | integer a, integer b => decide (a = b)
  | real x, real y => x == y
  | boolean a, boolean b => a == b
  | char a, char b => a == b
  | string a, string b => a == b
  | array t xs, array u ys => decide (t = u) && equalItems xs ys
  | _, _ => false

/-- Equality of lists of items, position by position. -/
def equalItems : List Value → List Value → Bool
  | [], [] => true
  | x :: xs, y :: ys => equal x y && equalItems xs ys
  | _, _ => false

end

/-! ## The parts that operators look at -/

/-- The value as a real, if it is a number; integers widen exactly. -/
def number? : Value → Option Float
  | integer n => some n.toReal
  | real x => some x
  | _ => none

/-- The text of a value that is text, a single character counting as a text of length one. -/
def characters? : Value → Option String
  | char c => some c.toString
  | string s => some s
  | _ => none

end Value

end Primer
