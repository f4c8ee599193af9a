import Primer.Grammar.Draft

/-!
# Primer.Grammar.Scope — blocks, and what a name means inside them.

A name means the parameter of that name, where the routine that is being read has one, and else the
variable that the innermost block declares under it.  A declaration is visible from its end on, as
long as its block is open.
-/

namespace Primer.Grammar

/-! ## Blocks -/

/-- The scope of the innermost block. -/
def Draft.scope (d : Draft) : String :=
  (d.blocks.head?.map (·.scope)).getD ""

/-- Opens a block. -/
def openBlock (node : NodeId) (scope : String) : Parse Unit :=
  modify fun d => { d with blocks := ⟨node, scope, []⟩ :: d.blocks }

/-- Closes the innermost block. -/
def closeBlock : Parse Unit :=
  modify fun d => { d with blocks := d.blocks.tail }

/-- Reads the body of a block. -/
def inBlock (node : NodeId) (scope : String) (body : Parse Unit) : Parse Unit := do
  openBlock node scope
  body
  closeBlock

/-- A scope for the next block without a name: its kind and a number that no other block has. -/
def blockScope (label : String) : Parse String :=
  modifyGet fun d =>
    let count := d.blockCount + 1
    (Name.qualify d.scope (label ++ toString count), { d with blockCount := count })

/-- Puts a statement at the end of the innermost block. -/
def attach (node : NodeId) : Parse Unit :=
  modify fun d =>
    match d.blocks with
    | [] => d
    | block :: outer =>
      let tree := match block.statements with
        | previous :: _ => d.tree.insertAfter previous node
        | [] => d.tree.insertFirst block.node node
      { d with tree, blocks := { block with statements := node :: block.statements } :: outer }

/-! ## Routines -/

/-- The heading of the routine that a block is the body of. -/
def Draft.heading? (d : Draft) (block : OpenBlock) : Option Heading :=
  match d.tree.construct? block.node with
  | some (.routine heading) => some heading
  | _ => none

/-- The heading of the routine that is being read. -/
def Draft.enclosing? (d : Draft) : Option Heading :=
  d.blocks.findSome? d.heading?

/-- The heading of a routine that may be called: one that is complete, or the one being read. -/
def Draft.callable? (d : Draft) (name : String) : Option Heading :=
  match d.routines.get? name with
  | some r => some r.heading
  | none => d.enclosing?.filter (·.name == name)

/-- The heading of the routine that a call names. -/
def callable (name : String) (line : Nat) : Parse Heading := do
  match (← get).callable? name with
  | some heading => return heading
  | none => refuse (.unknownFunction name) line

/-! ## Variables -/

/-- The name is a parameter of a routine that is being read. -/
def Draft.isParameter (d : Draft) (name : String) : Bool :=
  d.blocks.any fun block =>
    ((d.heading? block).bind (·.parameter? name)).isSome

/-- The ids that a name could stand for, from the innermost block outwards. -/
def Draft.candidates (d : Draft) (name : String) : List String :=
  d.blocks.map fun block => Name.qualify block.scope name

/-- The id is declared by a statement of this block or under the root of the tree. -/
def Draft.declares (d : Draft) (block : OpenBlock) (id : String) : Bool :=
  block.statements.any (fun node =>
    ((d.tree.construct? node).bind Construct.declared?) == some id) || d.tree.declares id

/-- The id that a name stands for.  Every declaration is in the table of variables when it is read,
so the tree is looked at only for names that no open block declares. -/
def Draft.resolve? (d : Draft) (name : String) : Option String :=
  if d.isParameter name then some name
  else
    match (d.candidates name).find? d.declared.contains with
    | some id => some id
    | none =>
      (d.blocks.find? fun block => d.declares block (Name.qualify block.scope name)).map
        fun block => Name.qualify block.scope name

/-- The id is a parameter that the body may not write. -/
def Draft.isReadOnly (d : Draft) (id : String) : Bool :=
  match d.enclosing?.bind (·.parameter? id) with
  | some parameter => decide (parameter.mode = .byValue)
  | none => false

/-- The id of a name that is read. -/
def resolve (name : String) (line : Nat) : Parse String := do
  match (← get).resolve? name with
  | some id => return id
  | none => refuse (.unknownIdentifier name) line

/-- The id of a name that is written. -/
def resolveWritable (name : String) (line : Nat) : Parse String := do
  let id ← resolve name line
  if (← get).isReadOnly id then refuse (.readOnlyParameter name) line
  else return id

end Primer.Grammar
