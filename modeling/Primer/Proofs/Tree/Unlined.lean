import Primer.Program

/-!
# Primer.Proofs.Tree.Unlined — trees without their lines.

A tree keeps lines for the messages of later faults.  `Tree.unlined` forgets them, those of the
expressions included.  What is asked of a tree while a program is read, and what is done to it, does
not depend on lines, so each operation is the same operation on the tree without them.

For every function on trees there is one equation that moves `unlined` through it.  With them, a
statement about two texts that differ in their lines is turned into one about the same tree, by
rewriting.
-/

namespace Primer

/-! ## Expressions -/

namespace Expr

mutual

/-- The expression without its lines. -/
def unlined : Expr → Expr
  | literal _ value => literal 0 value
  | ident _ id => ident 0 id
  | element _ id indices => element 0 id (unlinedList indices)
  | call _ name arguments => call 0 name (unlinedArguments arguments)
  | unary _ op operand => unary 0 op (unlined operand)
  | binary _ op left right => binary 0 op (unlined left) (unlined right)

/-- The expressions of a list without their lines. -/
def unlinedList : List Expr → List Expr
  | [] => []
  | e :: rest => unlined e :: unlinedList rest

/-- The arguments of a call without their lines. -/
def unlinedArguments : List Argument → List Argument
  | [] => []
  | a :: rest => unlinedArgument a :: unlinedArguments rest

/-- An argument without its lines. -/
def unlinedArgument : Argument → Argument
  | .value e => .value (unlined e)
  | .reference _ id => .reference 0 id

end

/-- Forgetting the lines of expressions, one after the other. -/
theorem unlinedList_eq_map (es : List Expr) : unlinedList es = es.map unlined := by
  induction es with
  | nil => rfl
  | cons e rest ih => rw [unlinedList, ih, List.map_cons]

theorem unlinedArguments_eq_map (as : List Argument) :
    unlinedArguments as = as.map unlinedArgument := by
  induction as with
  | nil => rfl
  | cons a rest ih => rw [unlinedArguments, ih, List.map_cons]

end Expr

/-! ## Constructs -/

/-- An initial value without its lines. -/
def Initializer.unlined : Initializer → Initializer
  | .computed e => .computed e.unlined
  | .fixed value => .fixed value

namespace Construct

/-- The construct without the lines of its expressions. -/
def unlined : Construct → Construct
  | unit name scope block => unit name scope block
  | entry scope => entry scope
  | routine heading => routine heading
  | declaration d => declaration { d with initializer := d.initializer.unlined }
  | assignment target indices value =>
    assignment target (Expr.unlinedList indices) value.unlined
  | loop scope condition => loop scope condition.unlined
  | conditional scope condition elseIfs last => conditional scope condition.unlined elseIfs last
  | elseIf scope condition => elseIf scope condition.unlined
  | otherwise scope => otherwise scope
  | call name arguments => call name (Expr.unlinedArguments arguments)
  | input target indices => input target (Expr.unlinedList indices)
  | output value => output value.unlined
  | result value => result (value.map Expr.unlined)

/-- What a construct declares does not depend on lines. -/
theorem declared?_unlined (c : Construct) : c.unlined.declared? = c.declared? := by
  cases c <;> rfl

theorem isUnit_unlined (c : Construct) : c.unlined.isUnit = c.isUnit := by
  cases c <;> rfl

theorem slots_unlined (c : Construct) : c.unlined.slots = c.slots := by
  cases c <;> rfl

end Construct

/-- The node without its line and those of its construct. -/
def Node.unlined (n : Node) : Node := { n with construct := n.construct.unlined, line := 0 }

namespace Tree

/-- The tree without lines. -/
def unlined (t : Tree) : Tree := { t with nodes := t.nodes.map Node.unlined }

/-! ## Looking at a tree -/

section

variable (t : Tree)

theorem size_unlined : t.unlined.size = t.size := Array.size_map

theorem node?_unlined (id : NodeId) : t.unlined.node? id = (t.node? id).map Node.unlined :=
  Array.getElem?_map

/-- A node is what it was, but for its lines. -/
theorem construct?_unlined (id : NodeId) :
    t.unlined.construct? id = (t.construct? id).map Construct.unlined := by
  rw [construct?, construct?, node?_unlined, Option.map_map, Option.map_map]
  rfl

/-- The links of a node are the same without its line. -/
theorem bind_node?_unlined {α : Type} {link : Node → Option α}
    (h : ∀ n : Node, link n.unlined = link n) (id : NodeId) :
    (t.unlined.node? id).bind link = (t.node? id).bind link := by
  rw [node?_unlined, Option.bind_map]
  congr 1
  exact funext h

theorem chain_unlined (bound : Nat) (first : Option NodeId) :
    t.unlined.chain bound first = t.chain bound first := by
  induction bound generalizing first with
  | zero => rfl
  | succ bound ih =>
    cases first with
    | none => rfl
    | some id => rw [chain, chain, t.bind_node?_unlined (fun _ => rfl), ih]

/-- The children of a node do not depend on lines. -/
theorem children_unlined (id : NodeId) : t.unlined.children id = t.children id := by
  rw [children, children, t.bind_node?_unlined (fun _ => rfl), size_unlined, chain_unlined]

theorem parentWithin_unlined (bound : Nat) (id : NodeId) :
    t.unlined.parentWithin bound id = t.parentWithin bound id := by
  induction bound generalizing id with
  | zero => rfl
  | succ bound ih =>
    rw [parentWithin, parentWithin, node?_unlined]
    cases t.node? id with
    | none => rfl
    | some n =>
      simp only [Option.map_some, Node.unlined, funext ih]

theorem parent?_unlined (id : NodeId) : t.unlined.parent? id = t.parent? id := by
  rw [parent?, parent?, size_unlined, parentWithin_unlined]

theorem successors_unlined (id : NodeId) : t.unlined.successors id = t.successors id := by
  rw [successors, successors, children_unlined, construct?_unlined, Option.map_map]
  congr 3
  exact funext Construct.slots_unlined

theorem visit_unlined (bound : Nat) (waiting : List NodeId) :
    t.unlined.visit bound waiting = t.visit bound waiting := by
  induction bound generalizing waiting with
  | zero => rfl
  | succ bound ih =>
    cases waiting with
    | nil => rfl
    | cons id waiting => rw [visit, visit, successors_unlined, ih]

/-- The first construct with a property that has nothing to do with lines is the same. -/
theorem find?_unlined {p : Construct → Bool} (h : ∀ c : Construct, p c.unlined = p c) :
    t.unlined.find? p = t.find? p := by
  have hp : p ∘ Construct.unlined = p := funext h
  simp only [find?, reachable, size_unlined, visit_unlined, construct?_unlined, Option.map_map, hp]
  rfl

theorem declares_unlined (id : String) : t.unlined.declares id = t.declares id := by
  rw [declares, declares, find?_unlined]
  intro c
  rw [Construct.declared?_unlined]

end

/-! ## Changing a tree -/

section

theorem unlined_allocate (t : Tree) (c : Construct) (line : Nat) :
    (t.allocate c line).2.unlined = (t.unlined.allocate c.unlined 0).2 := by
  simp [unlined, allocate, Node.unlined, Node.detached]

/-- Changing a node in a way that does not look at lines. -/
theorem unlined_modify (t : Tree) (id : NodeId) {f g : Node → Node}
    (h : ∀ n, (f n).unlined = g n.unlined) : (t.modify id f).unlined = t.unlined.modify id g := by
  have hnodes : (t.nodes.modify id f).map Node.unlined
      = (t.nodes.map Node.unlined).modify id g := by
    refine Array.ext_getElem? fun i => ?_
    rw [Array.getElem?_map, Array.getElem?_modify, Array.getElem?_modify, Array.getElem?_map]
    split
    · rw [Option.map_map, Option.map_map]
      congr 1
      exact funext h
    · rfl
  rw [unlined, modify, hnodes]
  rfl

theorem unlined_insertFirst (t : Tree) (anchor new : NodeId) :
    (t.insertFirst anchor new).unlined = t.unlined.insertFirst anchor new := by
  unfold insertFirst
  rw [t.bind_node?_unlined (fun _ => rfl)]
  cases (t.node? anchor).bind (·.firstChild) with
  | none =>
    dsimp only
    rw [unlined_modify, unlined_modify] <;> exact fun _ => rfl
  | some old =>
    dsimp only
    rw [unlined_modify, unlined_modify, unlined_modify] <;> exact fun _ => rfl

theorem unlined_insertAfter (t : Tree) (anchor new : NodeId) :
    (t.insertAfter anchor new).unlined = t.unlined.insertAfter anchor new := by
  unfold insertAfter
  rw [t.bind_node?_unlined (fun _ => rfl), parent?_unlined]
  cases (t.node? anchor).bind (·.next) with
  | none =>
    dsimp only
    rw [unlined_modify, unlined_modify] <;> exact fun _ => rfl
  | some old =>
    dsimp only
    rw [unlined_modify, unlined_modify, unlined_modify] <;> exact fun _ => rfl

/-- A change that may fail does so with and without lines. -/
theorem setRoot_unlined (t : Tree) (id : NodeId) :
    t.unlined.setRoot id = (t.setRoot id).map unlined := by
  unfold setRoot
  rw [show t.unlined.root = t.root from rfl]
  cases t.root <;> rfl

/-- Setting the entry block is refused, or done, with lines as without. -/
theorem setEntry_unlined (t : Tree) (block : NodeId) :
    t.unlined.setEntry block = (t.setEntry block).map unlined := by
  unfold setEntry
  rw [find?_unlined t Construct.isUnit_unlined]
  cases t.find? Construct.isUnit with
  | none => rfl
  | some id =>
    dsimp only
    rw [construct?_unlined]
    cases t.construct? id with
    | none => rfl
    | some c =>
      cases c with
      | unit name scope entry =>
        cases entry with
        | none =>
          show Except.ok _ = Except.ok _
          rw [unlined_modify, unlined_modify] <;> exact fun _ => rfl
        | some => rfl
      | _ => rfl

theorem unlined_place (t : Tree) (conditional branch : NodeId) (c : Construct) :
    (attachBranch.place t conditional branch c).unlined
      = attachBranch.place t.unlined conditional branch c.unlined := by
  unfold attachBranch.place
  rw [unlined_modify, unlined_modify] <;> exact fun _ => rfl

theorem attachBranch_unlined (t : Tree) (conditional branch : NodeId) :
    t.unlined.attachBranch conditional branch
      = (t.attachBranch conditional branch).map unlined := by
  unfold attachBranch
  rw [construct?_unlined, construct?_unlined]
  cases t.construct? branch with
  | none => rfl
  | some b =>
    cases t.construct? conditional with
    | none => cases b <;> rfl
    | some c =>
      cases b with
      | elseIf =>
        cases c with
        | conditional => exact congrArg Except.ok (unlined_place t _ _ (.conditional ..)).symm
        | _ => rfl
      | otherwise =>
        cases c with
        | conditional => exact congrArg Except.ok (unlined_place t _ _ (.conditional ..)).symm
        | _ => rfl
      | _ => rfl

end

end Tree

/-- The program without lines. -/
def Program.unlined (p : Program) : Program := { p with tree := p.tree.unlined }

end Primer
