import Primer.CommandLine

/-!
# Primer.Main — the command.

Reads the arguments, the program file and standard input, and writes what `CommandLine.respond`
answers.
-/

namespace Primer.CommandLine

/-- The arguments of the command. -/
structure Options where
  file : Bool := false
  dumpTree : Bool := false
  contents : Option String := none

/-- Reads arguments; behind two dashes everything is contents. -/
def Options.read (o : Options) : List String → Options
  | [] => o
  | "--" :: rest => { o with contents := rest.head?.or o.contents }
  | argument :: rest =>
    if argument = "--file" ∨ argument = "-f" then { o with file := true }.read rest
    else if argument = "--dump-tree" ∨ argument = "-d" then { o with dumpTree := true }.read rest
    else { o with contents := some argument }.read rest

/-- The text to run, read from a file if the arguments say so. -/
def Options.source (o : Options) : IO Source := do
  let contents := o.contents.getD ""
  if o.file then
    match ← (IO.FS.readFile contents).toBaseIO with
    | .ok text => return .text text
    | .error _ => return .unreadable contents
  else return .text contents

/-- More steps than any run makes. -/
def stepLimit : Nat := 4611686018427387904

end Primer.CommandLine

open Primer.CommandLine in
def main (arguments : List String) : IO UInt32 := do
  let options := ({} : Options).read arguments
  let source ← options.source
  let input ← (← IO.getStdin).readToEnd
  let answer := respond stepLimit options.dumpTree source (splitLines input)
  IO.print answer.stdout
  IO.eprint answer.stderr
  return answer.code
