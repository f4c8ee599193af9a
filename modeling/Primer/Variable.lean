import Primer.Table
import Primer.Value.Grid

/-!
# Primer.Variable — declared variables and their values.
-/

namespace Primer

/-- A variable: what its declaration says of it, and its value now. -/
structure Variable where
  type : SlotType
  name : String
  id : String
  value : Value

/-- Variables under their ids. -/
abbrev Variables := Table Variable

/-- What a slot of this type holds before anything is stored in it. -/
def SlotType.initial : SlotType → Value
  | .scalar type => .initial type
  | .array element dimensions => (Grid.fresh element dimensions).toValue

namespace Variables

/-- Registers a variable under its id, in the place of an older one. -/
def declare (vs : Variables) (v : Variable) : Variables := vs.insert v.id v

/-- Gives the variable under an id another value. -/
def assign (vs : Variables) (id : String) (value : Value) : Variables :=
  match vs.get? id with
  | some v => vs.insert id { v with value := value }
  | none => vs

/-- The ids of the variables declared under a bare name, in the order of code points. -/
def idsNamed (vs : Variables) (name : String) : List String :=
  ((vs.values.filter (·.name == name)).map (·.id)).mergeSort

/-- All variables in the order of their ids, by code points. -/
def sorted (vs : Variables) : List Variable :=
  vs.values.mergeSort fun v w => decide (v.id ≤ w.id)

/-- Assigning neither adds nor removes a variable. -/
theorem contains_assign (vs : Variables) (id other : String) (value : Value) :
    (vs.assign id value).contains other = vs.contains other := by
  unfold assign
  split
  · rename_i v h
    by_cases ho : other = id
    · subst ho
      simp [Table.contains, h]
    · simp [Table.contains, Table.get?_insert_of_ne vs ho]
  · rfl

end Variables

end Primer
