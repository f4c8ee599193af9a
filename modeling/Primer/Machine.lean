import Primer.Console
import Primer.Memory

/-!
# Primer.Machine — the state of a running program.

A `Run` is a computation that reads and changes the memory and the console.  It ends with an answer,
with a runtime error, or because it has used up its steps; whatever the end, the state it ended in
is part of the result.  The steps make every run finite, and a run that is stopped after `n` of them
shows the state that a longer run passes through.  Every change of the memory is followed by a step,
so no state of it is passed unseen.
-/

namespace Primer

/-- Memory, console and the number of steps that may still be made. -/
structure Machine where
  memory : Memory
  console : Console
  steps : Nat

/-- Why a run did not answer. -/
inductive Stop where
  | error (e : RuntimeError)
  | outOfSteps

/-- A computation of the running program. -/
abbrev Run := EStateM Stop Machine

namespace Run

variable {α : Type}

/-- Stops because the steps are used up. -/
def outOfSteps : Run α := throw .outOfSteps

/-- Makes one step. -/
def tick : Run Unit := do
  let m ← get
  match m.steps with
  | 0 => outOfSteps
  | n + 1 => set { m with steps := n }

/-- Reports a fault at a line. -/
def atLine (line : Nat) (result : Except Fault α) : Run α :=
  match result with
  | .ok a => pure a
  | .error fault => throw (.error ⟨fault, line⟩)

/-- Reports a refusal of the console at a line. -/
def consoleAt (line : Nat) (result : Except ConsoleFault α) : Run α :=
  match result with
  | .ok a => pure a
  | .error cause => throw (.error ⟨.io cause, line⟩)

/-! ## Memory and console -/

/-- The value of a variable or parameter. -/
def load (id : String) (line : Nat) : Run Value := do
  atLine line ((← get).memory.load id)

/-- Stores a value in a variable or in an element. -/
def store (id : String) (indices : List Integer) (value : Value) (line : Nat) : Run Unit := do
  let memory ← atLine line ((← get).memory.store id indices value)
  modify fun m => { m with memory }
  tick

/-- Registers a variable. -/
def declare (v : Variable) : Run Unit := do
  modify fun m => { m with memory := m.memory.declare v }
  tick

/-- Reads a line. -/
def readLine (line : Nat) : Run String := do
  let (text, console) ← consoleAt line (← get).console.read
  modify fun m => { m with console }
  return text

/-- Writes a line. -/
def writeLine (text : String) (line : Nat) : Run Unit := do
  let console ← consoleAt line ((← get).console.write text)
  modify fun m => { m with console }

/-- Runs the body of a call in a frame of its own, which is gone afterwards, also after an error.
A body that is stopped is still inside its call. -/
def inFrame (f : Frame) (body : Run α) : Run α := fun m =>
  match (tick *> body) { m with memory := m.memory.push f } with
  | .ok a m' => (tick *> pure a : Run α) { m' with memory := m'.memory.pop }
  | .error (.error e) m' => .error (.error e) { m' with memory := m'.memory.pop }
  | .error .outOfSteps m' => .error .outOfSteps m'

end Run

end Primer
