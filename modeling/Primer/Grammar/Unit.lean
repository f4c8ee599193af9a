import Primer.Grammar.Statement
import Primer.Token.Scan

/-!
# Primer.Grammar.Unit — how a whole program is read.

A program unit is a name, declarations and routines, and an entry block between `beginning` and the
name again.
-/

namespace Primer.Grammar

/-- The declarations and routines of a unit, up to its entry block. -/
def unitItems : Nat → Parse Unit
  | 0 => endOfText
  | bound + 1 => do
    match ← peek with
    | none => endOfText
    | some (.word .beginning) => return ()
    | some (.word .variable) =>
      attach (← declaration bound)
      unitItems bound
    | some (.word .function) | some (.word .procedure) =>
      routine (block bound) bound
      unitItems bound
    | some other => refuse (.expectedToken .unitItem (some other)) (← peekLine)

/-- The entry block. -/
def entryBlock (bound : Nat) (unitName : String) : Parse Unit := do
  let line ← expect (.word .beginning)
  let scope := Name.qualify unitName "beginning"
  let node ← allocate (.entry scope) line
  place (·.setEntry node) line
  inBlock node scope (block bound [.end])

/-- A program unit; nothing may follow it. -/
def unit (bound : Nat) : Parse NodeId := do
  let line ← expect (.word .module)
  let name ← identifier
  let _ ← expect (.mark .semicolon)
  let root ← allocate (.unit name name none) line
  place (·.setRoot root) line
  inBlock root name do
    unitItems bound
    entryBlock bound name
    namedEnd name
    let _ ← expect (.mark .dot)
  match (← get).tokens with
  | [] => return root
  | ⟨token, line⟩ :: _ => refuse (.trailingTokens token) line

end Primer.Grammar

namespace Primer.Program

open Grammar in
/-- The program that a list of tokens spells. -/
def ofTokens (tokens : List Lexeme) : Except ParseError Program :=
  match (unit tokens.length).run (Draft.start tokens) with
  | .ok root d => .ok { tree := d.tree, routines := d.routines, declared := d.declared, root }
  | .error e _ => .error e

/-- The program that a text spells. -/
def ofSource (source : String) : Except ParseError Program := do
  ofTokens (← Token.scan source)

end Primer.Program
