import Primer.ParseError
import Primer.Tree.Render
import Primer.Variable

/-!
# Primer.Program — a program that has been read.

A program is its tree, and the routines and variables that the tree declares.
-/

namespace Primer

/-- A routine: the node that owns its body, and its heading. -/
structure Routine where
  node : NodeId
  heading : Heading

/-- Routines under their names. -/
abbrev Routines := Table Routine

/-- Registers a routine; its name must be free. -/
def Routines.define (rs : Routines) (r : Routine) : Except ParseFault Routines :=
  if rs.contains r.heading.name then .error (.functionAlreadyDefined r.heading.name)
  else .ok (rs.insert r.heading.name r)

/-- A program.  `root` is the node of the program unit. -/
structure Program where
  tree : Tree
  routines : Routines
  declared : Variables
  root : NodeId

namespace Program

/-- The program of a tree that was built by hand.  Every node that declares a routine registers it,
in the order in which the nodes were made; a name that is taken stays with the first. -/
def ofTree (tree : Tree) (root : NodeId) : Program :=
  let register (rs : Routines) (id : NodeId) : Routines :=
    match tree.construct? id with
    | some (.routine heading) => (rs.define ⟨id, heading⟩).toOption.getD rs
    | _ => rs
  { tree, routines := (List.range tree.size).foldl register .empty, declared := .empty, root }

/-- The name of the program unit. -/
def name (p : Program) : String :=
  match p.tree.construct? p.root with
  | some (.unit name _ _) => name
  | _ => ""

/-- The entry block. -/
def entry? (p : Program) : Option NodeId :=
  match p.tree.construct? p.root with
  | some (.unit _ _ entry) => entry
  | _ => none

/-- The statements of the unit itself, then the entry block. -/
def topLevel (p : Program) : List NodeId :=
  p.tree.children p.root ++ p.entry?.toList

/-- The text of each top-level statement with all that is under it. -/
def renderTopLevel (p : Program) : List String :=
  p.topLevel.map p.tree.render

end Program

end Primer
