import Primer.Proofs.Grammar.Expressions
import Primer.Proofs.Tree.Forest

/-!
# Primer.Proofs.Grammar.Reading — what an accepted program has been read as.

`Reads role d f d'` says that reading has gone from the draft `d` to the draft `d'` and that what it
read is the forest `f`.  There is one rule for each form of the language; of the tokens a rule only
tells the names among those that it takes, and neither bounds nor refusals are left.  The rules name
every change of the draft, so each property of accepted programs is one induction over them.

A draft is changed by rules in few ways: tokens are taken, a block is opened, counted or closed, a
node is made and attached, and a table gets an entry.  They are named here (`Draft.entered`,
`Draft.attached` and so on), so that a property of drafts has one lemma for each, and the induction
over the rules only puts these together.

Main statements: `Reads.sameBlocks`, by which every block that is opened is closed again, and
`Reads.length_blocks`.
-/

namespace Primer

/-- The variable that a declaration registers while it is read. -/
def Declaration.fresh (d : Declaration) : Variable :=
  { type := d.type, name := d.name, id := d.id, value := d.type.initial }

/-- The constructs that take one line and declare nothing. -/
def Construct.IsSimple : Construct → Prop
  | assignment .. | call .. | input .. | output _ | result _ => True
  | unit .. | entry _ | routine _ | declaration _ | loop .. | conditional .. | elseIf ..
  | otherwise _ => False

/-- A statement without a body has no slots. -/
theorem Construct.IsSimple.slots_eq {c : Construct} (h : c.IsSimple) : c.slots = [] := by
  cases c <;> first | rfl | exact h.elim

namespace Grammar

/-! ## Changes of a draft -/

namespace Draft

/-- A node was made. -/
def allocated (d : Draft) (c : Construct) (line : Nat) : Draft :=
  { d with tree := (d.tree.allocate c line).2 }

/-- A block was opened. -/
def opened (d : Draft) (node : NodeId) (scope : String) : Draft :=
  { d with blocks := ⟨node, scope, []⟩ :: d.blocks }

/-- The innermost block was closed. -/
def closed (d : Draft) : Draft := { d with blocks := d.blocks.tail }

/-- The number of a block was used up. -/
def counted (d : Draft) : Draft := { d with blockCount := d.blockCount + 1 }

/-- The scope of the next block without a name. -/
def nextScope (d : Draft) (label : String) : String :=
  Name.qualify d.scope (label ++ toString (d.blockCount + 1))

/-- The tree was replaced. -/
def planted (d : Draft) (tree : Tree) : Draft := { d with tree }

/-- A variable was registered. -/
def registered (d : Draft) (v : Variable) : Draft := { d with declared := d.declared.declare v }

/-- The table of routines was replaced. -/
def equipped (d : Draft) (routines : Routines) : Draft := { d with routines }

/-- A statement was put at the end of the innermost block. -/
def attached (d : Draft) (node : NodeId) : Draft :=
  match d.blocks with
  | [] => d
  | block :: outer =>
    { d with
      tree := match block.statements with
        | previous :: _ => d.tree.insertAfter previous node
        | [] => d.tree.insertFirst block.node node
      blocks := { block with statements := node :: block.statements } :: outer }

/-- A construct with a body was made, and its body was opened. -/
def entered (d : Draft) (c : Construct) (line : Nat) (scope : String) : Draft :=
  (d.allocated c line).opened d.tree.size scope

end Draft

/-! ## The rules -/

/-- What is read: one statement or routine, or a list of them. -/
inductive Role where
  | declaration
  | statement
  | routine
  | body
  | items
  | branches (conditional : NodeId)

namespace Role

/-- The role is that of a list. -/
def IsList : Role → Prop
  | body | items | branches _ => True
  | declaration | statement | routine => False

/-- What may stand in a body, and what on the level of the unit. -/
def Admits : Role → Role → Prop
  | body, declaration | body, statement | items, declaration | items, routine => True
  | _, _ => False

end Role

/-- Reading went from one draft to another, and this is what it read. -/
inductive Reads : Role → Draft → Forest → Draft → Prop
  | declaration {d d₁ : Draft} {line : Nat} {v : Declaration}
      (taken : d.Takes line (Construct.declaration v).spelling d₁) (written : d.Writes v.name)
      (sound : (Construct.declaration v).Sound d.names)
      (id_eq : v.id = Name.qualify d.scope v.name) (new : d.declared.contains v.id = false) :
      Reads .declaration d (.leaf (.declaration v) line)
        ((d₁.registered v.fresh).allocated (.declaration v) line)
  | simple {d d₁ : Draft} {line : Nat} {c : Construct}
      (taken : d.Takes line c.spelling d₁) (kind : c.IsSimple) (sound : c.Sound d.names) :
      Reads .statement d (.leaf c line) (d₁.allocated c line)
  | loop {d d₁ d₂ d₃ : Draft} {line : Nat} {scope : String} {condition : Expr} {body : Forest}
      (taken : d.Takes line condition.spelling d₁) (sound : condition.Sound d.names)
      (scope_eq : scope = d₁.nextScope "while")
      (inside : Reads .body (d₁.counted.entered (.loop scope condition) line scope) body d₂)
      (rest : d₂.closed.Spells [] d₃) :
      Reads .statement d (.block (.loop scope condition) line body) d₃
  | conditional {d d₁ d₂ d₃ d₄ : Draft} {line : Nat} {scope : String} {condition : Expr}
      {body slots : Forest} (taken : d.Takes line condition.spelling d₁)
      (sound : condition.Sound d.names)
      (scope_eq : scope = d₁.nextScope "if")
      (inside : Reads .body
        (d₁.counted.entered (.conditional scope condition [] none) line scope) body d₂)
      (after : Reads (.branches d₁.tree.size) d₂.closed slots d₃) (rest : d₃.Spells [] d₄) :
      Reads .statement d
        (.cons (slots.fill (.conditional scope condition [] none) d₂.tree.size) line body slots
          .nil) d₄
  | elseIf {d d₁ d₂ d₃ : Draft} {conditional : NodeId} {line : Nat} {scope : String}
      {condition : Expr} {tree : Tree} {body slots : Forest}
      (taken : d.Takes line condition.spelling d₁) (sound : condition.Sound d.names)
      (scope_eq : scope = d₁.nextScope "elseif")
      (placed : (d₁.tree.allocate (.elseIf scope condition) line).2.attachBranch conditional
        d₁.tree.size = .ok tree)
      (inside : Reads .body ((d₁.counted.planted tree).opened d₁.tree.size scope) body d₂)
      (after : Reads (.branches conditional) d₂.closed slots d₃) :
      Reads (.branches conditional) d (.cons (.elseIf scope condition) line body .nil slots) d₃
  | otherwise {d d₁ d₂ : Draft} {conditional : NodeId} {line : Nat} {scope : String}
      {tree : Tree} {body : Forest} (taken : d.Takes line [] d₁)
      (scope_eq : scope = d₁.nextScope "else")
      (placed : (d₁.tree.allocate (.otherwise scope) line).2.attachBranch conditional
        d₁.tree.size = .ok tree)
      (inside : Reads .body ((d₁.counted.planted tree).opened d₁.tree.size scope) body d₂) :
      Reads (.branches conditional) d (.block (.otherwise scope) line body) d₂.closed
  | routine {d d₁ d₂ d₃ : Draft} {line : Nat} {heading : Heading} {routines : Routines}
      {body : Forest} (taken : d.Takes line (Construct.routine heading).spelling d₁)
      (outermost : d.blocks.length = 1)
      (written : d.Writes heading.name) (distinct : (heading.parameters.map (·.name)).Nodup)
      (parameters : ∀ p ∈ heading.parameters, d.Writes p.name)
      (scope_eq : heading.scope = Name.qualify d.scope heading.name)
      (inside : Reads .body (d₁.entered (.routine heading) line heading.scope) body d₂)
      (rest : d₂.closed.Spells [] d₃)
      (defined : d₃.routines.define ⟨d₁.tree.size, heading⟩ = .ok routines) :
      Reads .routine d (.block (.routine heading) line body) (d₃.equipped routines)
  | done {role : Role} {d : Draft} (list : role.IsList) : Reads role d .nil d
  | item {list role : Role} {d d₁ d₂ : Draft} {f g : Forest} (admitted : list.Admits role)
      (first : Reads role d f d₁) (more : Reads list (d₁.attached d.tree.size) g d₂) :
      Reads list d (f.append g) d₂

/-- What a whole program was read as: the unit with its items, and the entry block in its slot. -/
inductive ReadsProgram (tokens : List Lexeme) : Forest → Program → Prop
  | intro {d d₁ d₂ d₃ d₄ : Draft} {line entryLine : Nat} {name scope : String} {tree tree' : Tree}
      {items body : Forest} (taken : (Draft.start tokens).Takes line [name] d)
      (written : (Draft.start tokens).Writes name)
      (placed : (d.tree.allocate (.unit name name none) line).2.setRoot d.tree.size = .ok tree)
      (inside : Reads .items ((d.planted tree).opened d.tree.size name) items d₁)
      (begun : d₁.Takes entryLine [] d₂) (scope_eq : scope = Name.qualify name "beginning")
      (entryPlaced : (d₂.tree.allocate (.entry scope) entryLine).2.setEntry d₂.tree.size
        = .ok tree')
      (entered : Reads .body ((d₂.planted tree').opened d₂.tree.size scope) body d₃)
      (rest : d₃.closed.Spells [] d₄) (complete : d₄.tokens = []) :
      ReadsProgram tokens
        (.cons (.unit name name (some d₂.tree.size)) line items
          (.block (.entry scope) entryLine body) .nil)
        { tree := d₃.tree, routines := d₃.routines, declared := d₃.declared, root := d.tree.size }

/-! ## The open blocks -/

/-- The role is that of the statements of an open block. -/
def Role.IsOpen : Role → Prop
  | .body | .items => True
  | .declaration | .statement | .routine | .branches _ => False

/-- A list may be read on, and what stands in it is complete. -/
theorem Role.Admits.isOpen {list role : Role} (h : list.Admits role) :
    list.IsOpen ∧ ¬ role.IsOpen := by
  cases list <;> cases role <;> simp_all [Role.Admits, Role.IsOpen]

/-- What does not change of the open blocks while a draft is read: all of them, but for the
statements of the innermost one when these are what is read. -/
structure Draft.SameBlocks (role : Role) (d d' : Draft) : Prop where
  outer : d'.blocks.tail = d.blocks.tail
  keys : d'.blocks.map (fun b => (b.node, b.scope)) = d.blocks.map (fun b => (b.node, b.scope))
  all : ¬ role.IsOpen → d'.blocks = d.blocks

theorem Draft.SameBlocks.of_eq {role : Role} {d d' : Draft} (h : d'.blocks = d.blocks) :
    d.SameBlocks role d' where
  outer := by rw [h]
  keys := by rw [h]
  all _ := h

/-- Attaching a node leaves the blocks, but for the last child of the innermost. -/
theorem Draft.blocks_attached (d : Draft) (node : NodeId) :
    (d.attached node).blocks.tail = d.blocks.tail ∧
      (d.attached node).blocks.map (fun b => (b.node, b.scope))
        = d.blocks.map (fun b => (b.node, b.scope)) := by
  unfold attached
  split
  · exact ⟨rfl, rfl⟩
  · rename_i block outer hb
    simp [hb]

/-- Putting a statement somewhere changes nothing but the tree and the blocks. -/
theorem Draft.exists_attached_eq (d : Draft) (node : NodeId) :
    ∃ tree blocks, d.attached node = { d with tree, blocks } := by
  unfold attached
  split
  · exact ⟨d.tree, d.blocks, rfl⟩
  · exact ⟨_, _, rfl⟩

section

variable (d : Draft) (node : NodeId)

@[simp]
theorem Draft.tokens_attached : (d.attached node).tokens = d.tokens := by
  obtain ⟨tree, blocks, h⟩ := d.exists_attached_eq node
  rw [h]

@[simp]
theorem Draft.routines_attached : (d.attached node).routines = d.routines := by
  obtain ⟨tree, blocks, h⟩ := d.exists_attached_eq node
  rw [h]

@[simp]
theorem Draft.declared_attached : (d.attached node).declared = d.declared := by
  obtain ⟨tree, blocks, h⟩ := d.exists_attached_eq node
  rw [h]

@[simp]
theorem Draft.blockCount_attached : (d.attached node).blockCount = d.blockCount := by
  obtain ⟨tree, blocks, h⟩ := d.exists_attached_eq node
  rw [h]

end

/-- Every block that is opened is closed again. -/
theorem Reads.sameBlocks {role : Role} {d d' : Draft} {f : Forest} (h : Reads role d f d') :
    d.SameBlocks role d' := by
  induction h with
  | declaration taken => exact .of_eq taken.blocks
  | simple taken => exact .of_eq taken.blocks
  | loop taken _ _ _ rest ih => exact .of_eq (rest.blocks.trans (ih.outer.trans taken.blocks))
  | conditional taken _ _ _ _ rest ihb ihs =>
    have hinside := ihb.outer.trans taken.blocks
    exact .of_eq (rest.blocks.trans ((ihs.all id).trans hinside))
  | elseIf taken _ _ _ _ _ ihb ihs =>
    have hinside := ihb.outer.trans taken.blocks
    exact .of_eq ((ihs.all id).trans hinside)
  | otherwise taken _ _ _ ih => exact .of_eq (ih.outer.trans taken.blocks)
  | routine taken _ _ _ _ _ _ rest _ ih =>
    exact .of_eq (rest.blocks.trans (ih.outer.trans taken.blocks))
  | done _ => exact .of_eq rfl
  | item admitted _ _ ihf ihm =>
    obtain ⟨hopen, hclosed⟩ := admitted.isOpen
    have hfirst := ihf.all hclosed
    refine ⟨?_, ?_, fun hnot => absurd hopen hnot⟩
    · rw [ihm.outer, (Draft.blocks_attached _ _).1, hfirst]
    · rw [ihm.keys, (Draft.blocks_attached _ _).2, hfirst]

theorem Reads.length_blocks {role : Role} {d d' : Draft} {f : Forest} (h : Reads role d f d') :
    d'.blocks.length = d.blocks.length := by
  have hkeys := congrArg List.length h.sameBlocks.keys
  simpa using hkeys

end Grammar

end Primer
