import Primer.Execution

/-!
# Primer.Context — a program with its memory and its console.

A context runs a program, evaluates expressions and calls routines, one request after another.  What
a request changed stays for the next one, also after an error.
-/

namespace Primer

/-- A program, its memory and its console. -/
structure Context where
  program : Program
  memory : Memory
  console : Console

namespace Context

/-- A context in which nothing was run yet. -/
def fresh (program : Program) (console : Console) : Context :=
  { program, memory := .empty, console }

/-- Serves a request with a number of steps; answers what it gave and the context afterwards. -/
def serve {α : Type} (c : Context) (steps : Nat) (request : Run α) : Except Stop α × Context :=
  match request.run { memory := c.memory, console := c.console, steps } with
  | .ok a m => (.ok a, { c with memory := m.memory, console := m.console })
  | .error stop m => (.error stop, { c with memory := m.memory, console := m.console })

/-- Runs the whole program. -/
def run (c : Context) (steps : Nat) : Except Stop Unit × Context :=
  c.serve steps (c.program.run steps)

/-- Evaluates an expression. -/
def eval (c : Context) (steps : Nat) (e : Expr) : Except Stop Value × Context :=
  c.serve steps (Run.evaluate (c.program.call steps) e)

/-- Calls a routine. -/
def call (c : Context) (steps : Nat) (name : String) (arguments : List Argument) (line : Nat) :
    Except Stop Value × Context :=
  c.serve steps (c.program.call steps name arguments line)

end Context

/-- Runs a program from the start on a console. -/
def Program.runOn (p : Program) (steps : Nat) (console : Console) : Except Stop Unit × Context :=
  (Context.fresh p console).run steps

end Primer
