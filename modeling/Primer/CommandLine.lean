import Primer.Context
import Primer.Grammar.Unit

/-!
# Primer.CommandLine — what the command does with its arguments.

The command reads a program, shows its tree if it is asked to, and runs it.  Here is everything it
decides, as a function from what it was given to what it writes; reading files and streams is left
to the caller.
-/

namespace Primer.CommandLine

/-- The program text, or the path of a file that could not be read. -/
inductive Source where
  | text (contents : String)
  | unreadable (path : String)

/-- What the command writes, and its exit code. -/
structure Answer where
  stdout : String
  stderr : String
  code : UInt32
deriving DecidableEq, Repr

/-- The lines of a text, each with its line feed; the last one may have none. -/
def splitLines (text : String) : List String :=
  (go text.toList).map String.ofList
where
  /-- Puts each character in front of the first of the lines that follow it. -/
  go : List Char → List (List Char)
    | [] => []
    | c :: rest =>
      if c = '\n' then [c] :: go rest
      else match go rest with
        | [] => [[c]]
        | line :: lines => (c :: line) :: lines

/-- Every line with a line feed behind it. -/
def written (lines : List String) : String :=
  String.join (lines.map (· ++ "\n"))

/-- The failure with this message on the error stream. -/
def failure (stdout message : String) : Answer :=
  { stdout, stderr := message ++ "\n", code := 1 }

/-- Stands below the tree of a program. -/
def ruler : String := "----------"

/-- Runs the command on a program and the lines of standard input, for a number of steps. -/
def respond (steps : Nat) (dumpTree : Bool) (source : Source) (input : List String) : Answer :=
  match source with
  | .unreadable path =>
    failure "" ("Failed to read the input file '" ++ path ++ "'. Perhaps this file does not exist?")
  | .text contents =>
    match Program.ofSource contents with
    | .error e => failure "" e.message
    | .ok program =>
      let tree := if dumpTree then written (program.renderTopLevel ++ [ruler]) else ""
      let (result, c) := program.runOn steps (.ofInput input none)
      let stdout := tree ++ written c.console.output.toList
      match result with
      | .ok () => { stdout, stderr := "", code := 0 }
      | .error (.error e) => failure stdout e.message
      | .error .outOfSteps => { stdout, stderr := "", code := 1 }

end Primer.CommandLine
