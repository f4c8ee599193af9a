import Primer.Fault

/-!
# Primer.Console — the lines a program reads and writes.

A console holds the lines that are still to be read and those that were written.  It may refuse to
take more than a given number of lines; a request that it refuses changes nothing.
-/

namespace Primer

/-- Lines to read, lines written, and how many may be written at most. -/
structure Console where
  input : List String
  output : Array String
  limit : Option Nat
deriving DecidableEq

namespace Console

/-- A console on which nothing was written yet. -/
def ofInput (lines : List String) (limit : Option Nat) : Console :=
  { input := lines, output := #[], limit }

/-- Takes the next line of input. -/
def read (c : Console) : Except ConsoleFault (String × Console) :=
  match c.input with
  | [] => .error .noMoreInput
  | line :: rest => .ok (line, { c with input := rest })

/-- The limit leaves room for one more line. -/
def accepts (c : Console) : Bool :=
  match c.limit with
  | some limit => decide (c.output.size < limit)
  | none => true

/-- Writes a line. -/
def write (c : Console) (line : String) : Except ConsoleFault Console :=
  if c.accepts then .ok { c with output := c.output.push line } else .error .closed

/-- Everything written, with line feeds between the lines. -/
def outputText (c : Console) : String :=
  "\n".intercalate c.output.toList

/-! ## When the console serves a request -/

theorem read_eq_ok_iff {c c' : Console} {line : String} :
    c.read = .ok (line, c') ↔
      c.input = line :: c'.input ∧ c'.output = c.output ∧ c'.limit = c.limit := by
  obtain ⟨input, output, limit⟩ := c
  obtain ⟨input', output', limit'⟩ := c'
  cases input with
  | nil =>
    constructor
    · intro h
      cases h
    · rintro ⟨h, _⟩
      cases h
  | cons first rest =>
    constructor
    · intro h
      cases h
      exact ⟨rfl, rfl, rfl⟩
    · rintro ⟨h, rfl, rfl⟩
      cases h
      rfl

theorem write_eq_ok_iff {c c' : Console} {line : String} :
    c.write line = .ok c' ↔ c.accepts ∧ c' = { c with output := c.output.push line } := by
  unfold write
  split
  · rename_i h
    constructor
    · intro hc
      cases hc
      exact ⟨h, rfl⟩
    · rintro ⟨_, rfl⟩
      rfl
  · rename_i h
    constructor
    · intro hc
      cases hc
    · rintro ⟨ha, _⟩
      exact absurd ha h

end Console

end Primer
