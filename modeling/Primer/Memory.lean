import Primer.Name
import Primer.Variable

/-!
# Primer.Memory — where the values of a running program are.

Module-level variables and those of the entry block are global.  Every call has a frame of its own,
with its parameters and with the variables that its body declares; only the latest frame is looked
at.  A parameter that is passed by reference is another name for a place further down.

A place is found by `locate?`, read by `slot?` and written by `write`.  The last changes a value and
never adds a place.
-/

namespace Primer

/-- A place that holds a value.  Frames are counted from the oldest. -/
inductive Location where
  | global (id : String)
  | localIn (frame : Nat) (id : String)
  | parameterIn (frame : Nat) (name : String)
deriving DecidableEq, Repr

/-- The id or name under which a place is found. -/
def Location.key : Location → String
  | global id => id
  | localIn _ id => id
  | parameterIn _ name => name

/-- What a parameter is bound to: a value of its own, or a place of the caller. -/
inductive Binding where
  | value (type : Scalar) (v : Value)
  | reference (place : Location)

/-- The storage of one call. -/
structure Frame where
  parameters : Table Binding
  locals : Variables

/-- Gives a variable of the call another value. -/
def Frame.assign (f : Frame) (id : String) (value : Value) : Frame :=
  { f with locals := f.locals.assign id value }

/-- Gives a parameter another value, if it holds one of its own. -/
def Frame.assignParameter (f : Frame) (name : String) (value : Value) : Frame :=
  match f.parameters.get? name with
  | some (.value type _) => { f with parameters := f.parameters.insert name (.value type value) }
  | _ => f

/-- The storage of a running program.  `frames` lists the oldest call first. -/
structure Memory where
  globals : Variables
  frames : Array Frame

namespace Memory

/-- No variables and no calls. -/
def empty : Memory := { globals := .empty, frames := #[] }

/-- The number of the latest frame. -/
def top (m : Memory) : Nat := m.frames.size - 1

/-- Registers a variable where declarations go: in the latest call, or among the globals when there
is none. -/
def declare (m : Memory) (v : Variable) : Memory :=
  if m.frames.isEmpty then { m with globals := m.globals.declare v }
  else { m with frames := m.frames.modify m.top fun f => { f with locals := f.locals.declare v } }

/-- Enters a call. -/
def push (m : Memory) (f : Frame) : Memory := { m with frames := m.frames.push f }

/-- Leaves a call. -/
def pop (m : Memory) : Memory := { m with frames := m.frames.pop }

/-- The place that a parameter of the latest call stands for. -/
def locateParameter? (m : Memory) (name : String) : Option Location :=
  match m.frames.back?.bind (·.parameters.get? name) with
  | some (.reference place) => some place
  | some (.value ..) => some (.parameterIn m.top name)
  | none => none

/-- The place that a declared variable has: in the latest call, or among the globals. -/
def locateVariable? (m : Memory) (id : String) : Option Location :=
  if (m.frames.back?.map (·.locals.contains id)).getD false then some (.localIn m.top id)
  else if m.globals.contains id then some (.global id)
  else none

/-- The place that an id stands for now. -/
def locate? (m : Memory) (id : String) : Option Location :=
  if Name.isQualified id then m.locateVariable? id else m.locateParameter? id

/-- The declared type and the value of a place. -/
def slot? (m : Memory) : Location → Option (SlotType × Value)
  | .global id => (m.globals.get? id).map fun v => (v.type, v.value)
  | .localIn frame id =>
    (m.frames[frame]?.bind (·.locals.get? id)).map fun v => (v.type, v.value)
  | .parameterIn frame name =>
    match m.frames[frame]?.bind (·.parameters.get? name) with
    | some (.value type v) => some (.scalar type, v)
    | _ => none

/-- Gives a place another value. -/
def write (m : Memory) (place : Location) (value : Value) : Memory :=
  match place with
  | .global id => { m with globals := m.globals.assign id value }
  | .localIn frame id => { m with frames := m.frames.modify frame (·.assign id value) }
  | .parameterIn frame name =>
    { m with frames := m.frames.modify frame (·.assignParameter name value) }

/-! ## What a write keeps -/

theorem size_frames_write (m : Memory) (place : Location) (value : Value) :
    (m.write place value).frames.size = m.frames.size := by
  cases place <;> simp [write]

theorem contains_globals_write (m : Memory) (place : Location) (value : Value) (id : String) :
    (m.write place value).globals.contains id = m.globals.contains id := by
  cases place <;> simp [write, Variables.contains_assign]

theorem pop_push (m : Memory) (f : Frame) : (m.push f).pop = m := by
  simp [push, pop]

/-! ## Access by id -/

/-- The place of an id with its type and value. -/
def find (m : Memory) (id : String) : Except Fault (Location × SlotType × Value) :=
  match m.locate? id with
  | none => .error (.unknownVariable id)
  | some place =>
    match m.slot? place with
    | none => .error (.unknownVariable place.key)
    | some slot => .ok (place, slot)

/-- The value of a variable or parameter. -/
def load (m : Memory) (id : String) : Except Fault Value :=
  (m.find id).map (·.2.2)

/-- The type of what the given number of indices address. -/
def addressedType (m : Memory) (id : String) (depth : Nat) : Except Fault SlotType := do
  let (_, type, _) ← m.find id
  match type.indexed? depth with
  | some addressed => return addressed
  | none => throw .expectedArray

/-- Stores a value in a variable or in the element that the indices address. -/
def store (m : Memory) (id : String) (indices : List Integer) (value : Value) :
    Except Fault Memory := do
  let (place, type, old) ← m.find id
  if indices.isEmpty then
    return m.write place (← value.coerce type)
  else
    let grid ← (← old.asGrid).store indices value
    return m.write place grid.toValue

end Memory

end Primer
