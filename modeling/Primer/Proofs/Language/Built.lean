import Primer.Proofs.Grammar.Reading
import Primer.Proofs.Tree.Unlined

/-!
# Primer.Proofs.Language.Built — what reading has built, apart from the text.

Two texts of one program have different lines, and one of them may have parentheses that the other
one does not have.  `Draft.built` is what a draft has when neither is looked at.  Every change of a
draft is a change of this part alone, and so is what a name means.

A draft and what is built of it answer the same questions about names, and the changes of the one
are changes of the other; so for two drafts of which the same is built, every question has one
answer and every change keeps them alike.  The second half puts these two together, in the form in
which a statement that is read again uses them.
-/

namespace Primer.Grammar

namespace Draft

/-- The program so far without its lines, and without the text that is left. -/
def built (d : Draft) : Draft := { d with tokens := [], lastLine := 0, tree := d.tree.unlined }

theorem Skips.built {d d' : Draft} (h : d.Skips d') : d'.built = d.built := by
  rw [h.rest]
  rfl

/-! ## Changes -/

/-- A node that is made, without its line. -/
theorem built_allocated (d : Draft) (c : Construct) (line : Nat) :
    (d.allocated c line).built = d.built.allocated c.unlined 0 := by
  rw [built, allocated, Tree.unlined_allocate]
  rfl

theorem built_attached (d : Draft) (node : NodeId) :
    (d.attached node).built = d.built.attached node := by
  unfold attached
  rw [show d.built.blocks = d.blocks from rfl]
  cases d.blocks with
  | nil => rfl
  | cons block outer =>
    dsimp only
    cases block.statements with
    | nil =>
      rw [built, Tree.unlined_insertFirst]
      rfl
    | cons previous more =>
      rw [built, Tree.unlined_insertAfter]
      rfl

/-! ## Names -/

theorem heading?_built (d : Draft) : d.built.heading? = d.heading? := by
  funext block
  unfold heading?
  rw [built, Tree.construct?_unlined]
  cases d.tree.construct? block.node with
  | none => rfl
  | some c => cases c <;> rfl

theorem enclosing?_built (d : Draft) : d.built.enclosing? = d.enclosing? := by
  rw [enclosing?, enclosing?, heading?_built]
  rfl

theorem callable?_built (d : Draft) : d.built.callable? = d.callable? := by
  funext name
  unfold callable?
  rw [enclosing?_built]
  rfl

theorem isReadOnly_built (d : Draft) : d.built.isReadOnly = d.isReadOnly := by
  funext id
  unfold isReadOnly
  rw [enclosing?_built]

theorem declares_built (d : Draft) : d.built.declares = d.declares := by
  funext block id
  have hnode : ∀ node : NodeId, (d.built.tree.construct? node).bind Construct.declared?
      = (d.tree.construct? node).bind Construct.declared? := by
    intro node
    rw [built, Tree.construct?_unlined, Option.bind_map]
    congr 1
    exact funext Construct.declared?_unlined
  simp only [declares, hnode]
  rw [built, Tree.declares_unlined]

theorem resolve?_built (d : Draft) : d.built.resolve? = d.resolve? := by
  funext name
  have hparameter : d.built.isParameter name = d.isParameter name := by
    rw [isParameter, isParameter, heading?_built]
    rfl
  unfold resolve?
  rw [hparameter, declares_built]
  rfl

/-- What can be named where a draft stands by the names that the ids were written as. -/
def bareNames (d : Draft) : Names where
  reads id := d.resolve? (Name.bare id) = some id
  writes id := d.resolve? (Name.bare id) = some id ∧ d.isReadOnly id = false
  callable := d.callable?
  heading := d.enclosing?

theorem bareNames_built (d : Draft) : d.built.bareNames = d.bareNames := by
  rw [bareNames, resolve?_built, isReadOnly_built, callable?_built, enclosing?_built]
  rfl

/-- Where the same is built, the same is known of names. -/
theorem bareNames_eq {d e : Draft} (h : e.built = d.built) : e.bareNames = d.bareNames := by
  rw [← e.bareNames_built, h, d.bareNames_built]

/-- What a name of the text means has the name in its id. -/
theorem names_le_bareNames {d : Draft} (hplain : Token.AllPlain d.tokens) :
    d.names.Le d.bareNames := by
  have hreads : ∀ id, d.names.reads id → d.bareNames.reads id := by
    rintro id ⟨name, ⟨l, hl, hname⟩, hid⟩
    show d.resolve? (Name.bare id) = some id
    rw [bare_of_resolve? (hplain l hl name hname).segment hid]
    exact hid
  exact ⟨hreads, fun id hw => ⟨hreads id hw.1, hw.2⟩, fun _ _ h => h, rfl⟩

/-! ## The same parts built -/

section

variable {d e : Draft} (he : e.built = d.built)
include he

theorem size_eq_of_built : e.tree.size = d.tree.size := by
  have hsize : e.tree.unlined.size = d.tree.unlined.size := congrArg (·.tree.size) he
  rwa [Tree.size_unlined, Tree.size_unlined] at hsize

theorem scope_eq_of_built : e.scope = d.scope := by
  show e.built.scope = d.built.scope
  rw [he]

theorem nextScope_eq_of_built (label : String) : e.nextScope label = d.nextScope label := by
  show e.built.nextScope label = d.built.nextScope label
  rw [he]

theorem declared_eq_of_built : e.declared = d.declared := by
  show e.built.declared = d.built.declared
  rw [he]

theorem blocks_eq_of_built : e.blocks = d.blocks := by
  show e.built.blocks = d.built.blocks
  rw [he]

theorem routines_eq_of_built : e.routines = d.routines := by
  show e.built.routines = d.built.routines
  rw [he]

theorem built_counted_eq : e.counted.built = d.counted.built :=
  congrArg Draft.counted he

theorem built_equipped_eq (routines : Routines) :
    (e.equipped routines).built = (d.equipped routines).built :=
  congrArg (Draft.equipped · routines) he

theorem built_registered_eq (x : Variable) : (e.registered x).built = (d.registered x).built :=
  congrArg (Draft.registered · x) he

/-- Making the same node, on another line, builds the same. -/
theorem built_allocated_eq {c c' : Construct} (hc : c'.unlined = c.unlined) (line line' : Nat) :
    (e.allocated c' line').built = (d.allocated c line).built := by
  rw [built_allocated, built_allocated, he, hc]

theorem built_attached_eq (node : NodeId) : (e.attached node).built = (d.attached node).built := by
  rw [built_attached, built_attached, he]

theorem built_planted_eq {tree tree' : Tree} (h : tree'.unlined = tree.unlined) :
    (e.planted tree').built = (d.planted tree).built := by
  have hplanted := congrArg (Draft.planted · tree.unlined) he
  rw [show (d.planted tree).built = d.built.planted tree.unlined from rfl, ← hplanted, ← h]
  rfl

end

end Draft

end Primer.Grammar
