import Primer.Proofs.Tree.Frame
import Primer.Proofs.Tree.Layout

/-!
# Primer.Proofs.Tree.Branches — every placement that the grammar asks for succeeds.

A node is placed by three steps that may fail: the unit becomes the root, the entry block goes into
the slot of the unit, and a branch into a slot of its conditional.  None of them fails while a text
is read, because the root is set once, the slot is empty until then, and a conditional stays one
while its branches are read (`Tree.KeepsConditionals`).

The reader of a program refuses a text for what the text says, and a failed placement would be a
refusal for another reason.  The lemmas here are what the completeness of the reader asks of the
tree: of a conditional that is in the tree, that a branch may be attached to it, and of the unit,
that the entry block may be set once.
-/

namespace Primer

/-- The construct is a conditional. -/
def Construct.IsConditional : Construct → Prop
  | conditional .. => True
  | _ => False

namespace Tree

/-- A conditional stands at this node. -/
def HasConditional (t : Tree) (id : NodeId) : Prop :=
  ∃ c, t.construct? id = some c ∧ c.IsConditional

/-- Where a conditional stands in one tree, one stands in the other. -/
def KeepsConditionals (t t' : Tree) : Prop := ∀ id, t.HasConditional id → t'.HasConditional id

namespace KeepsConditionals

variable {t t' t'' : Tree}

theorem refl (t : Tree) : t.KeepsConditionals t := fun _ h => h

/-- Nodes that stay conditionals in two steps stay conditionals. -/
theorem trans (h : t.KeepsConditionals t') (h' : t'.KeepsConditionals t'') :
    t.KeepsConditionals t'' :=
  fun id hid => h' id (h id hid)

/-- A new node changes no construct that is there. -/
theorem allocate (t : Tree) (c : Construct) (line : Nat) :
    t.KeepsConditionals (t.allocate c line).2 := by
  rintro id ⟨c', hc', hkind⟩
  obtain ⟨n, hn, -⟩ := Option.map_eq_some_iff.1 hc'
  have hlt : id < t.size := (Array.getElem?_eq_some_iff.1 hn).1
  exact ⟨c', by rw [construct?, node?_allocate_of_lt t c line hlt]; exact hc', hkind⟩

/-- Nodes have been placed. -/
theorem of_same (h : Same Construct.IsConditional t t') : t.KeepsConditionals t' := by
  rintro id ⟨c, hc, hkind⟩
  have hid := h id
  rw [hc] at hid
  obtain ⟨c', hc', hkind'⟩ := Option.map_eq_some_iff.1 hid
  exact ⟨c', hc', hkind' ▸ hkind⟩

/-- To attach a branch gives a conditional another slot, and leaves it a conditional. -/
theorem attachBranch {tree : Tree} {conditional branch : NodeId}
    (h : t.attachBranch conditional branch = .ok tree) : t.KeepsConditionals tree :=
  of_same (.attachBranch h fun _ _ _ _ _ _ => rfl)

end KeepsConditionals

variable {t : Tree}

/-- A conditional that was just made. -/
theorem hasConditional_allocate (t : Tree) (scope : String) (condition : Expr)
    (elseIfs : List NodeId) (last : Option NodeId) (line : Nat) :
    (t.allocate (.conditional scope condition elseIfs last) line).2.HasConditional t.size :=
  ⟨_, construct?_allocate _ _ _, trivial⟩

/-- A conditional takes a branch that was just made. -/
theorem exists_attachBranch {conditional : NodeId} (h : t.HasConditional conditional)
    {branch : Construct} (hbranch : (∃ scope condition, branch = .elseIf scope condition) ∨
      ∃ scope, branch = .otherwise scope) (line : Nat) :
    ∃ tree, (t.allocate branch line).2.attachBranch conditional t.size = .ok tree := by
  obtain ⟨c, hc, hkind⟩ := KeepsConditionals.allocate t branch line conditional h
  unfold attachBranch
  rw [construct?_allocate, hc]
  cases c with
  | conditional scope condition elseIfs last =>
    rcases hbranch with ⟨s, e, rfl⟩ | ⟨s, rfl⟩ <;> exact ⟨_, rfl⟩
  | _ => exact hkind.elim

/-- A unit without an entry block takes one. -/
theorem exists_setEntry {owner n : Node} {between : List Node} {name scope : String}
    (h : t.nodes.toList = owner :: (between ++ [n])) (hroot : t.root = some 0)
    (howner : owner.construct = .unit name scope none) (block : NodeId) :
    ∃ tree, t.setEntry block = .ok tree := by
  have hat : t.nodes.toList = [] ++ owner :: (between ++ [n]) := h
  have hunit : t.construct? 0 = some (.unit name scope none) := by
    rw [← howner]
    exact congrArg (Option.map (·.construct)) (node?_of_toList hat)
  unfold setEntry
  simp only [find?_isUnit hroot hunit rfl, hunit]
  exact ⟨_, rfl⟩

end Tree

namespace Grammar

/-- To attach a statement to the open block changes no construct. -/
theorem Draft.keepsConditionals_attached (d : Draft) (node : NodeId) :
    d.tree.KeepsConditionals (d.attached node).tree :=
  .of_same (d.same_attached _ node)

theorem Draft.Skips.keepsConditionals {d d' : Draft} (h : d.Skips d') :
    d.tree.KeepsConditionals d'.tree :=
  h.tree ▸ .refl _

/-- While statements are read, conditionals stay conditionals. -/
theorem Reads.keepsConditionals {role : Role} {d d' : Draft} {f : Forest} (h : Reads role d f d') :
    d.tree.KeepsConditionals d'.tree := by
  induction h with
  | declaration taken => exact taken.keepsConditionals.trans (.allocate _ _ _)
  | simple taken => exact taken.keepsConditionals.trans (.allocate _ _ _)
  | loop taken _ _ _ rest ih =>
    have hbody := (Tree.KeepsConditionals.allocate _ _ _).trans ih
    exact taken.keepsConditionals.trans (hbody.trans rest.keepsConditionals)
  | conditional taken _ _ _ _ rest ihb ihs =>
    have hbody := (Tree.KeepsConditionals.allocate _ _ _).trans ihb
    exact taken.keepsConditionals.trans (hbody.trans (ihs.trans rest.keepsConditionals))
  | elseIf taken _ _ placed _ _ ihb ihs =>
    have hplaced := (Tree.KeepsConditionals.allocate _ _ _).trans (.attachBranch placed)
    exact taken.keepsConditionals.trans (hplaced.trans (ihb.trans ihs))
  | otherwise taken _ placed _ ih =>
    have hplaced := (Tree.KeepsConditionals.allocate _ _ _).trans (.attachBranch placed)
    exact taken.keepsConditionals.trans (hplaced.trans ih)
  | routine taken _ _ _ _ _ _ rest _ ih =>
    have hbody := (Tree.KeepsConditionals.allocate _ _ _).trans ih
    exact taken.keepsConditionals.trans (hbody.trans rest.keepsConditionals)
  | done _ => exact .refl _
  | item _ _ _ ihf ihm => exact ihf.trans ((Draft.keepsConditionals_attached _ _).trans ihm)

/-- While the items of the unit are read, its slot stays empty. -/
theorem Reads.unit_open {d d₁ : Draft} {name : String} {line : Nat} {tree : Tree} {items : Forest}
    (hempty : d.tree = .empty)
    (placed : (d.tree.allocate (.unit name name none) line).2.setRoot d.tree.size = .ok tree)
    (inside : Reads .items ((d.planted tree).opened d.tree.size name) items d₁) :
    ∃ owner between, d₁.tree.nodes.toList = owner :: between ∧
      owner.construct = .unit name name none ∧ d₁.tree.root = some 0 := by
  rw [hempty] at placed inside
  obtain rfl := Tree.setRoot_ok placed
  let unit := Node.detached (.unit name name none) line
  have hinside : LaidInside _ items d₁ := inside.laid
  have hunit : (d.planted { (Tree.empty.allocate unit.construct line).2 with
      root := some Tree.empty.size }).tree.nodes.toList = [] ++ [unit] := rfl
  refine ⟨_, _, (hinside.opened hunit rfl).1, rfl, ?_⟩
  rw [inside.root_eq]
  rfl

/-- Behind the items, the unit takes an entry block that was just made. -/
theorem exists_setEntry_allocate {t : Tree} {owner : Node} {between : List Node}
    {name unitScope : String} (h : t.nodes.toList = owner :: between)
    (howner : owner.construct = .unit name unitScope none) (hroot : t.root = some 0)
    (scope : String) (line : Nat) :
    ∃ tree, (t.allocate (.entry scope) line).2.setEntry t.size = .ok tree := by
  have hmade : (t.allocate (.entry scope) line).2.nodes.toList
      = owner :: (between ++ [.detached (.entry scope) line]) := by
    rw [Tree.toList_allocate, h]
    rfl
  exact Tree.exists_setEntry hmade hroot howner t.size

end Grammar

end Primer
