import Primer.Evaluation
import Primer.Program

/-!
# Primer.Execution — running a program.

Three layers, each closed by a bound that the number of steps supplies.  `execute` runs a statement
when it is told what calls do, and goes down the tree.  `call` runs the body of a routine, with the
calls in it one level deeper.  `Program.run` runs the statements of the unit and then its entry
block.  The bounds never end a run before its steps do: every level below makes a step first.
-/

namespace Primer

/-- How a statement ended: the next one follows, or the routine is left with a value. -/
inductive Outcome where
  | completed
  | returned (v : Value)

namespace Run

/-- Runs statements one after another until one of them returns. -/
def sequence (statement : NodeId → Run Outcome) : List NodeId → Run Outcome
  | [] => pure .completed
  | id :: rest => do
    match ← statement id with
    | .returned v => return .returned v
    | .completed => sequence statement rest

/-- Repeats a body while a condition holds. -/
def repeatWhile (condition : Run Bool) (body : Run Outcome) : Nat → Run Outcome
  | 0 => outOfSteps
  | bound + 1 => do
    tick
    if ← condition then
      match ← body with
      | .returned v => return .returned v
      | .completed => repeatWhile condition body bound
    else return .completed

end Run

namespace Program

/-- The statements of a block, run in turn. -/
def block (p : Program) (statement : NodeId → Run Outcome) (id : NodeId) : Run Outcome :=
  Run.sequence statement (p.tree.children id)

/-- The branches of a conditional after the first, in order; the last has no condition. -/
def branches (p : Program) (calls : Calls) (body : NodeId → Run Outcome)
    (last : Option NodeId) : List NodeId → Run Outcome
  | [] =>
    match last with
    | some id => body id
    | none => pure .completed
  | id :: rest => do
    match p.tree.node? id with
    | some ⟨.elseIf _ condition, line, _, _, _, _⟩ =>
      if ← Run.truth calls condition line then body id
      else branches p calls body last rest
    | _ => branches p calls body last rest

/-- Reads a line into a variable or an element of a scalar type. -/
def input (target : String) (indices : List Integer) (line : Nat) : Run Unit := do
  match ← Run.atLine line ((← get).memory.addressedType target indices.length) with
  | .scalar expected =>
    let text ← Run.readLine line
    let v ← Run.atLine line (Value.ofInput text expected)
    Run.store target indices v line
  | .array .. => Run.atLine line (.error (.typeError .notScalarTarget))

/-- Runs one statement. -/
def execute (p : Program) (calls : Calls) : Nat → NodeId → Run Outcome
  | 0, _ => Run.outOfSteps
  | bound + 1, id => do
    Run.tick
    let body := p.block (p.execute calls bound)
    match p.tree.node? id with
    | none => return .completed
    | some node =>
      let line := node.line
      match node.construct with
      | .declaration d =>
        let v ← match d.initializer with
          | .computed e => Run.evaluate calls e
          | .fixed v => pure v
        let value ← Run.atLine line (v.coerce d.type)
        Run.declare { type := d.type, name := d.name, id := d.id, value }
        return .completed
      | .assignment target indices value =>
        let v ← Run.evaluate calls value
        let path ← Run.evaluateIndices calls indices
        Run.store target path v line
        return .completed
      | .loop _ condition =>
        Run.repeatWhile (Run.truth calls condition line) (body id) bound
      | .conditional _ condition elseIfs last =>
        if ← Run.truth calls condition line then body id
        else p.branches calls body last elseIfs
      | .call name arguments =>
        let _ ← calls name arguments line
        return .completed
      | .input target indices =>
        let path ← Run.evaluateIndices calls indices
        input target path line
        return .completed
      | .output value =>
        let v ← Run.evaluate calls value
        Run.writeLine v.text line
        return .completed
      | .result (some value) => return .returned (← Run.evaluate calls value)
      | .result none => return .returned (.integer .zero)
      | .entry _ | .elseIf .. | .otherwise _ => body id
      | .unit .. | .routine _ => return .completed

/-! ## Calls -/

/-- What an argument binds its parameter to. -/
def bind (calls : Calls) (routine : String) (parameter : Parameter) : Argument → Run Binding
  | .value e => do
    let v ← Run.evaluate calls e
    return .value parameter.type (← Run.atLine e.line (v.coerceScalar parameter.type))
  | .reference line id => do
    let (place, type, _) ← Run.atLine line ((← get).memory.find id)
    if type = .scalar parameter.type then return .reference place
    else
      Run.atLine line
        (.error (.typeError (.wrongVariable parameter.name routine parameter.type type)))

/-- Binds parameters to arguments, from left to right. -/
def bindAll (calls : Calls) (routine : String) :
    List Parameter → List Argument → Table Binding → Run (Table Binding)
  | parameter :: parameters, argument :: arguments, bound => do
    let binding ← bind calls routine parameter argument
    bindAll calls routine parameters arguments (bound.insert parameter.name binding)
  | _, _, bound => return bound

/-- The value of a finished call: that of the return, fitted to the result type of a function, or
zero. -/
def callResult (heading : Heading) : Outcome → Except Fault Value
  | .completed => .ok (.integer .zero)
  | .returned v =>
    match heading.result with
    | some type => v.coerceScalar type
    | none => .ok v

/-- Calls a routine.  The bound is the number of calls that may be nested. -/
def call (p : Program) : Nat → Calls
  | 0 => fun _ _ _ => Run.outOfSteps
  | bound + 1 => fun name arguments line => do
    Run.tick
    match p.routines.get? name with
    | none => Run.atLine line (.error (.unknownFunction name))
    | some r =>
      let parameters := r.heading.parameters
      if arguments.length = parameters.length then
        let deeper := p.call bound
        let table ← bindAll deeper name parameters arguments .empty
        let outcome ← Run.inFrame { parameters := table, locals := .empty }
          (p.block (p.execute deeper bound) r.node)
        Run.atLine line (callResult r.heading outcome)
      else
        Run.atLine line
          (.error (.argumentCountMismatch name parameters.length arguments.length))

/-! ## The whole program -/

/-- The node declares a routine, which only runs when it is called. -/
def isRoutine (p : Program) (id : NodeId) : Bool :=
  match p.tree.construct? id with
  | some (.routine _) => true
  | _ => false

/-- Runs statements one after another, whatever they return. -/
def runAll (statement : NodeId → Run Outcome) : List NodeId → Run Unit
  | [] => return ()
  | id :: rest => do
    let _ ← statement id
    runAll statement rest

/-- Runs the statements of the unit, then its entry block. -/
def run (p : Program) (bound : Nat) : Run Unit := do
  let statement := p.execute (p.call bound) bound
  runAll statement ((p.tree.children p.root).filter (!p.isRoutine ·))
  match p.entry? with
  | some entry =>
    let _ ← p.block statement entry
  | none => return ()

end Program

end Primer
