import Primer.Construct

/-!
# Primer.Tree — the program tree.

The nodes of a tree lie in an array in the order in which they were made, and are linked into
chains: a node knows the first of its children, and each child the next and the previous one.  A
node is made without links and placed later, so a block can collect its body before it is placed
itself.

Only the head of a chain is sure to know its parent.  The others find it by walking back, and every
walk is bounded by the number of nodes, so it ends on any links whatever.
-/

namespace Primer

/-- A construct, its line and its links. -/
structure Node where
  construct : Construct
  line : Nat
  parent : Option NodeId
  previous : Option NodeId
  next : Option NodeId
  firstChild : Option NodeId
deriving Inhabited

/-- A node without links. -/
def Node.detached (construct : Construct) (line : Nat) : Node :=
  { construct, line, parent := none, previous := none, next := none, firstChild := none }

/-- The ways in which a node may not be placed. -/
inductive TreeFault where
  | rootAlreadySet
  | unitNotFound
  | entryAlreadySet
  | notConditional
deriving DecidableEq, Repr

def TreeFault.message : TreeFault → String
  | rootAlreadySet => "the program tree already has a module root"
  | unitNotFound => "the entry block must belong to the open module"
  | entryAlreadySet => "the module already has a beginning block"
  | notConditional => "branches can only be attached to an if statement"

/-- The nodes and the root, once it is known. -/
structure Tree where
  nodes : Array Node
  root : Option NodeId
deriving Inhabited

namespace Tree

/-- A tree without nodes. -/
def empty : Tree := ⟨#[], none⟩

def size (t : Tree) : Nat := t.nodes.size

def node? (t : Tree) (id : NodeId) : Option Node := t.nodes[id]?

def construct? (t : Tree) (id : NodeId) : Option Construct := (t.node? id).map (·.construct)

/-- Changes one node. -/
def modify (t : Tree) (id : NodeId) (f : Node → Node) : Tree :=
  { t with nodes := t.nodes.modify id f }

/-- Makes a new node and answers its id. -/
def allocate (t : Tree) (construct : Construct) (line : Nat) : NodeId × Tree :=
  (t.nodes.size, { t with nodes := t.nodes.push (.detached construct line) })

/-! ## Walks -/

/-- Follows the links to the next sibling, for a bounded number of nodes. -/
def chain (t : Tree) : Nat → Option NodeId → List NodeId
  | 0, _ => []
  | _ + 1, none => []
  | bound + 1, some id => id :: t.chain bound ((t.node? id).bind (·.next))

/-- The children of a node, first to last. -/
def children (t : Tree) (id : NodeId) : List NodeId :=
  t.chain t.size ((t.node? id).bind (·.firstChild))

/-- Walks back through the siblings to the first that knows its parent. -/
def parentWithin (t : Tree) : Nat → NodeId → Option NodeId
  | 0, _ => none
  | bound + 1, id =>
    match t.node? id with
    | none => none
    | some node =>
      match node.parent with
      | some parent => some parent
      | none => node.previous.bind (t.parentWithin bound)

/-- The node whose body or slot a node belongs to. -/
def parent? (t : Tree) (id : NodeId) : Option NodeId := t.parentWithin t.size id

/-- The nodes directly under a node: its children, then those in its slots. -/
def successors (t : Tree) (id : NodeId) : List NodeId :=
  t.children id ++ ((t.construct? id).map Construct.slots).getD []

/-- Visits the nodes that wait and, before the rest of them, all that is under each. -/
def visit (t : Tree) : Nat → List NodeId → List NodeId
  | 0, _ => []
  | _ + 1, [] => []
  | bound + 1, id :: waiting => id :: t.visit bound (t.successors id ++ waiting)

/-- The nodes under the root in source order, each before those under it. -/
def reachable (t : Tree) : List NodeId := t.visit t.size t.root.toList

/-- The first node under the root whose construct has a property. -/
def find? (t : Tree) (p : Construct → Bool) : Option NodeId :=
  t.reachable.find? fun id => ((t.construct? id).map p).getD false

/-- A declaration of this id is under the root. -/
def declares (t : Tree) (id : String) : Bool :=
  (t.find? fun c => c.declared? == some id).isSome

/-! ## What a change shows -/

@[simp]
theorem size_modify (t : Tree) (id : NodeId) (f : Node → Node) : (t.modify id f).size = t.size := by
  simp [modify, size]

@[simp]
theorem node?_modify_self (t : Tree) (id : NodeId) (f : Node → Node) :
    (t.modify id f).node? id = (t.node? id).map f := by
  simp [modify, node?, Array.getElem?_modify]

theorem node?_modify_of_ne (t : Tree) {id other : NodeId} (h : other ≠ id) (f : Node → Node) :
    (t.modify id f).node? other = t.node? other := by
  simp [modify, node?, Array.getElem?_modify, Ne.symm h]

theorem node?_allocate_self (t : Tree) (construct : Construct) (line : Nat) :
    (t.allocate construct line).2.node? (t.allocate construct line).1
      = some (.detached construct line) := by
  simp [allocate, node?]

theorem node?_allocate_of_lt (t : Tree) (construct : Construct) (line : Nat) {id : NodeId}
    (h : id < t.size) : (t.allocate construct line).2.node? id = t.node? id := by
  have hne : id ≠ t.nodes.size := Nat.ne_of_lt h
  simp [allocate, node?, Array.getElem?_push, hne]

/-! ## How long a walk is -/

theorem length_chain_le (t : Tree) (bound : Nat) (first : Option NodeId) :
    (t.chain bound first).length ≤ bound := by
  induction bound generalizing first with
  | zero => simp [chain]
  | succ bound ih =>
    cases first with
    | none => simp [chain]
    | some id => simpa [chain] using ih _

theorem length_visit_le (t : Tree) (bound : Nat) (waiting : List NodeId) :
    (t.visit bound waiting).length ≤ bound := by
  induction bound generalizing waiting with
  | zero => simp [visit]
  | succ bound ih =>
    cases waiting with
    | nil => simp [visit]
    | cons id rest => simpa [visit] using ih _

/-- No walk lists more nodes than there are, whatever the links. -/
theorem length_reachable_le (t : Tree) : t.reachable.length ≤ t.size :=
  t.length_visit_le t.size t.root.toList

/-! ## Placing nodes -/

/-- Makes a node the first child of another; the old first child comes second and forgets its
parent. -/
def insertFirst (t : Tree) (anchor new : NodeId) : Tree :=
  let oldHead := (t.node? anchor).bind (·.firstChild)
  let demoted := match oldHead with
    | some old => t.modify old fun n => { n with previous := some new, parent := none }
    | none => t
  let linked := demoted.modify new fun n =>
    { n with parent := some anchor, previous := none, next := oldHead }
  linked.modify anchor fun n => { n with firstChild := some new }

/-- Puts a node right after a sibling. -/
def insertAfter (t : Tree) (anchor new : NodeId) : Tree :=
  let parent := t.parent? anchor
  let oldNext := (t.node? anchor).bind (·.next)
  let shifted := match oldNext with
    | some old => t.modify old fun n => { n with previous := some new }
    | none => t
  let linked := shifted.modify new fun n =>
    { n with parent := parent, previous := some anchor, next := oldNext }
  linked.modify anchor fun n => { n with next := some new }

/-- Makes a node the root, once. -/
def setRoot (t : Tree) (id : NodeId) : Except TreeFault Tree :=
  match t.root with
  | some _ => .error .rootAlreadySet
  | none => .ok { t with root := some id }

/-- Gives the program unit its entry block, once. -/
def setEntry (t : Tree) (block : NodeId) : Except TreeFault Tree :=
  match t.find? Construct.isUnit with
  | none => .error .unitNotFound
  | some id =>
    match t.construct? id with
    | some (.unit name scope none) =>
      let owned := t.modify id fun n => { n with construct := .unit name scope (some block) }
      .ok (owned.modify block fun n => { n with parent := some id })
    | some (.unit ..) => .error .entryAlreadySet
    | _ => .error .unitNotFound

/-- Puts a branch into a slot of a conditional: after the branches with a condition, or in the
place of the last one. -/
def attachBranch (t : Tree) (conditional branch : NodeId) : Except TreeFault Tree :=
  match t.construct? branch, t.construct? conditional with
  | some (.elseIf ..), some (.conditional scope condition elseIfs otherwise) =>
    .ok (place (.conditional scope condition (elseIfs ++ [branch]) otherwise))
  | some (.otherwise _), some (.conditional scope condition elseIfs _) =>
    .ok (place (.conditional scope condition elseIfs (some branch)))
  | _, _ => .error .notConditional
where
  /-- Stores the conditional with its new slots and tells the branch whose it is. -/
  place (c : Construct) : Tree :=
    let owned := t.modify conditional fun n => { n with construct := c }
    owned.modify branch fun n => { n with parent := some conditional }

end Tree

end Primer
