/-!
# Primer.Types — the types a slot can be declared with.

A slot holds either one scalar or an array of scalars with a fixed size in every dimension.
-/

namespace Primer

/-- The types of single values. -/
inductive Scalar where
  | integer
  | real
  | boolean
  | char
  | string
deriving DecidableEq, Repr

/-- The name of a scalar type in the language. -/
def Scalar.text : Scalar → String
  | .integer => "integer"
  | .real => "real"
  | .boolean => "boolean"
  | .char => "char"
  | .string => "string"

/-- The declared type of a variable.  Dimensions are listed outermost first. -/
inductive SlotType where
  | scalar (type : Scalar)
  | array (element : Scalar) (dimensions : List Nat)
deriving DecidableEq, Repr

namespace SlotType

/-- The type as it is written in a declaration. -/
def text : SlotType → String
  | scalar type => type.text
  | array element dimensions =>
    "array" ++ String.join (dimensions.map fun size => "[" ++ toString size ++ "]")
      ++ " of " ++ element.text

/-- The type of what `depth` indices address: the element type when they use up the dimensions, a
smaller array when some dimensions are left, nothing when there are more indices than dimensions. -/
def indexed? : SlotType → Nat → Option SlotType
  | scalar type, 0 => some (scalar type)
  | scalar _, _ + 1 => none
  | array element dimensions, depth =>
    if depth < dimensions.length then some (array element (dimensions.drop depth))
    else if depth = dimensions.length then some (scalar element)
    else none

end SlotType

end Primer
