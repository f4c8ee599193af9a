import Primer.Proofs.Tree.Frame
import Primer.Proofs.Tree.Order
import Primer.Proofs.Tree.Walk
import Mathlib.Data.List.Perm.Subperm

/-!
# Primer.Proofs.Tree.Edits — the operations on a tree, one after another.

An `Edit` is one call of an operation that builds a tree.  `Tree.Edited` says what a call that
succeeds has done: a node was made, or one of four kinds of places was filled.  `Tree.Rows` says
that following the links from the first child of every node goes through given lists and ends
there; putting a node in front of a list or behind one of its members changes the lists as it would
change lists (`Rows.insertFirst`, `Rows.insertAfter`).

An `Assembly` is a tree together with the nodes that were placed so far.

The links of a tree are read through `Tree.link?`, which asks a node for one of its fields.  Every
operation is a few changes of single nodes, so first come rules that say what one such change does
to one field, and from them, for each operation and each field, what it does to that field of every
node.  Only these equations are used afterwards, never the operations themselves; the constructs of
the nodes, and with them the slots, are treated in the same way.

A rule for calls is a relation between an assembly and the next call.  `Assembly.Follows` says that
a list of calls keeps to a rule all along; what every such call preserves holds in the end
(`Follows.invariant`), and a rule that can be checked for one call can be checked for a list
(`follows_iff`).
-/

namespace Primer

/-- A call of an operation that builds a tree. -/
inductive Edit where
  | allocate (construct : Construct) (line : Nat)
  | insertFirst (anchor new : NodeId)
  | insertAfter (anchor new : NodeId)
  | setRoot (id : NodeId)
  | setEntry (block : NodeId)
  | attachBranch (conditional branch : NodeId)

namespace Edit

/-- The node that is placed. -/
def placed? : Edit → Option NodeId
  | allocate .. => none
  | insertFirst _ new | insertAfter _ new => some new
  | setRoot id => some id
  | setEntry block => some block
  | attachBranch _ branch => some branch

/-- The nodes that are named. -/
def names : Edit → List NodeId
  | allocate .. => []
  | insertFirst anchor new | insertAfter anchor new => [anchor, new]
  | setRoot id | setEntry id => [id]
  | attachBranch conditional branch => [conditional, branch]

/-- The node is placed as a child or as a sibling. -/
def chains : Edit → Bool
  | insertFirst .. | insertAfter .. => true
  | _ => false

/-- A node that is made has nothing in its slots. -/
def isBare : Edit → Bool
  | allocate c _ => c.slots.isEmpty
  | _ => true

/-- The node that a call places is among the nodes that it names. -/
theorem mem_names_of_placed? {e : Edit} {id : NodeId} (h : e.placed? = some id) : id ∈ e.names := by
  cases e <;> simp_all [placed?, names]

end Edit

namespace Tree

/-- The tree after a call, or why the call was refused. -/
def edit (t : Tree) : Edit → Except TreeFault Tree
  | .allocate construct line => .ok (t.allocate construct line).2
  | .insertFirst anchor new => .ok (t.insertFirst anchor new)
  | .insertAfter anchor new => .ok (t.insertAfter anchor new)
  | .setRoot id => t.setRoot id
  | .setEntry block => t.setEntry block
  | .attachBranch conditional branch => t.attachBranch conditional branch

/-- The node under which, or next to which, a node is placed. -/
def host? (t : Tree) : Edit → Option NodeId
  | .insertFirst anchor _ | .insertAfter anchor _ => some anchor
  | .setEntry _ => t.find? Construct.isUnit
  | .attachBranch conditional _ => some conditional
  | .allocate .. | .setRoot _ => none

/-- The branch without a condition that a conditional has already, where a further one is put. -/
def displaced? (t : Tree) : Edit → Option NodeId
  | .attachBranch conditional branch =>
    match t.construct? branch, t.construct? conditional with
    | some (.otherwise _), some (.conditional _ _ _ last) => last
    | _, _ => none
  | _ => none

/-- Gives a node another construct, and tells a node in a slot of it whose it is. -/
def adopt (t : Tree) (owner : NodeId) (c : Construct) (new : NodeId) : Tree :=
  (t.modify owner fun n => { n with construct := c }).modify new fun n =>
    { n with parent := some owner }

/-- What a call that succeeds has done. -/
inductive Edited (t : Tree) : Edit → Tree → Prop
  | allocate (c : Construct) (line : Nat) : Edited t (.allocate c line) (t.allocate c line).2
  | insertFirst (anchor new : NodeId) :
    Edited t (.insertFirst anchor new) (t.insertFirst anchor new)
  | insertAfter (anchor new : NodeId) :
    Edited t (.insertAfter anchor new) (t.insertAfter anchor new)
  | setRoot (id : NodeId) (absent : t.root = none) :
    Edited t (.setRoot id) { t with root := some id }
  | slot {e : Edit} {owner new : NodeId} {c c' : Construct} {before after : List NodeId}
    (places : e.placed? = some new) (host : t.host? e = some owner) (apart : e.chains = false)
    (stands : t.construct? owner = some c)
    (vacant : ∀ name scope entry, c ≠ .unit name scope (some entry))
    (had : c.slots = before ++ ((t.displaced? e).toList ++ after))
    (has : c'.slots = before ++ new :: after) : Edited t e (t.adopt owner c' new)

/-- An entry block goes into the first unit of the tree, provided that this has none yet. -/
theorem setEntry_ok {t tree : Tree} {block : NodeId} (h : t.setEntry block = .ok tree) :
    ∃ unit name scope, t.find? Construct.isUnit = some unit ∧
      t.construct? unit = some (.unit name scope none) ∧
      tree = t.adopt unit (.unit name scope (some block)) block := by
  unfold setEntry at h
  split at h
  · cases h
  · rename_i unit hunit
    split at h
    · rename_i hc
      cases h
      exact ⟨unit, _, _, hunit, hc, rfl⟩
    · cases h
    · cases h

/-- A call that succeeds has done one of the things that `Edited` lists. -/
theorem edited {t tree : Tree} {e : Edit} (h : t.edit e = .ok tree) : t.Edited e tree := by
  cases e with
  | allocate c line =>
    cases h
    exact .allocate c line
  | insertFirst anchor new =>
    cases h
    exact .insertFirst anchor new
  | insertAfter anchor new =>
    cases h
    exact .insertAfter anchor new
  | setRoot id =>
    -- A second root is refused.
    have habsent : t.root = none := by
      cases hroot : t.root with
      | none => rfl
      | some r => simp [edit, setRoot, hroot] at h
    obtain rfl := setRoot_ok h
    exact .setRoot id habsent
  | setEntry block =>
    obtain ⟨unit, name, scope, hunit, hc, rfl⟩ := setEntry_ok h
    have had : (Construct.unit name scope none).slots
        = [] ++ ((t.displaced? (.setEntry block)).toList ++ []) := rfl
    exact .slot rfl hunit rfl hc (by simp) had rfl
  | attachBranch conditional branch =>
    change t.attachBranch conditional branch = .ok tree at h
    unfold attachBranch at h
    split at h
    · rename_i hb hc
      cases h
      -- An `elseif` goes behind those that are there; nothing is displaced.
      refine .slot rfl rfl rfl hc (by simp) ?_ (List.append_assoc _ [branch] _)
      simp [displaced?, hb, hc, Construct.slots]
    · rename_i hb hc
      cases h
      rename_i scope condition elseIfs last
      have had : (Construct.conditional scope condition elseIfs last).slots
          = elseIfs ++ ((t.displaced? (.attachBranch conditional branch)).toList ++ []) := by
        simp [displaced?, hb, hc, Construct.slots]
      exact .slot rfl rfl rfl hc (by simp) had rfl
    · cases h

/-! ## Links -/

/-- Where a link of a node leads. -/
def link? (t : Tree) (field : Node → Option NodeId) (id : NodeId) : Option NodeId :=
  (t.node? id).bind field

/-- What a change of one node does to one field of all nodes. -/
theorem link?_modify (t : Tree) (id : NodeId) (f : Node → Node) (field : Node → Option NodeId)
    (other : NodeId) : (t.modify id f).link? field other
      = if other = id then (t.node? id).bind fun n => field (f n) else t.link? field other := by
  split
  · rename_i h
    rw [h, link?, node?_modify_self, Option.bind_map]
    rfl
  · rename_i h
    rw [link?, node?_modify_of_ne t h, link?]

/-- A change of one node that leaves a link of it alone. -/
theorem link?_modify_of_eq (t : Tree) (id : NodeId) {f : Node → Node}
    {field : Node → Option NodeId} (hf : ∀ n, field (f n) = field n) :
    (t.modify id f).link? field = t.link? field := by
  funext other
  simp only [link?_modify, hf]
  split
  · rename_i h
    rw [h, link?]
  · rfl

/-- To ask whether a node is there is no condition for a node that is. -/
theorem bind_node?_of_lt {t : Tree} {id : NodeId} (hid : id < t.size) (v : Option NodeId) :
    ((t.node? id).bind fun _ => v) = v := by
  have hget : t.node? id = some t.nodes[id] := Array.getElem?_eq_getElem hid
  rw [hget]
  rfl

/-- A new node has no links, and the others keep theirs. -/
theorem link?_allocate (t : Tree) (c : Construct) (line : Nat) {field : Node → Option NodeId}
    (hfield : field (.detached c line) = none) :
    (t.allocate c line).2.link? field = t.link? field := by
  funext id
  rcases Nat.lt_trichotomy id t.size with hlt | rfl | hgt
  · rw [link?, node?_allocate_of_lt t c line hlt, link?]
  · have hnew : (t.allocate c line).2.node? t.size = some (.detached c line) :=
      node?_allocate_self t c line
    have hold : t.node? t.size = none := Array.getElem?_eq_none (Nat.le_refl _)
    rw [link?, hnew, link?, hold]
    exact hfield
  · have hold : t.node? id = none := Array.getElem?_eq_none (Nat.le_of_lt hgt)
    have hsize : (t.allocate c line).2.size ≤ id := by
      rw [size_allocate]
      exact hgt
    have hnew : (t.allocate c line).2.node? id = none := Array.getElem?_eq_none hsize
    rw [link?, hnew, link?, hold]

/-- A slot is no link, so that of the links only the parent of the new node changes. -/
theorem link?_adopt (t : Tree) (owner new : NodeId) (c : Construct)
    {field : Node → Option NodeId}
    (hparent : ∀ n p, field { n with parent := p } = field n)
    (hconstruct : ∀ n c, field { n with construct := c } = field n) :
    (t.adopt owner c new).link? field = t.link? field :=
  (link?_modify_of_eq _ new fun n => hparent n _).trans
    (link?_modify_of_eq t owner fun n => hconstruct n c)

/-- Changes one node, if there is one to change. -/
def modify? (t : Tree) (id? : Option NodeId) (f : Node → Node) : Tree :=
  match id? with
  | some id => t.modify id f
  | none => t

@[simp]
theorem size_modify? (t : Tree) (id? : Option NodeId) (f : Node → Node) :
    (t.modify? id? f).size = t.size := by
  cases id? <;> simp [modify?]

theorem link?_modify?_of_eq (t : Tree) (id? : Option NodeId) {f : Node → Node}
    {field : Node → Option NodeId} (hf : ∀ n, field (f n) = field n) :
    (t.modify? id? f).link? field = t.link? field := by
  cases id? with
  | none => rfl
  | some id => exact t.link?_modify_of_eq id hf

/-- A change that gives a link of one node a new value, where the node is there. -/
theorem link?_modify?_const {t : Tree} {id? : Option NodeId} {f : Node → Node}
    {field : Node → Option NodeId} (v : Option NodeId) (hf : ∀ n, field (f n) = v)
    (hid : ∀ id, id? = some id → id < t.size) (other : NodeId) :
    (t.modify? id? f).link? field other
      = if id? = some other then v else t.link? field other := by
  cases id? with
  | none => rfl
  | some id =>
    simp only [modify?, link?_modify, hf, bind_node?_of_lt (hid id rfl), Option.some.injEq,
      @eq_comm _ other]

theorem link?_modify_const {t : Tree} {id : NodeId} {f : Node → Node}
    {field : Node → Option NodeId} (v : Option NodeId) (hf : ∀ n, field (f n) = v)
    (hid : id < t.size) (other : NodeId) :
    (t.modify id f).link? field other = if other = id then v else t.link? field other := by
  simp only [link?_modify, hf, bind_node?_of_lt hid]

/-- Putting a node in front of the children of another one, as four changes of single nodes. -/
theorem insertFirst_eq (t : Tree) (anchor new : NodeId) : t.insertFirst anchor new
    = (((t.modify? (t.link? Node.firstChild anchor) fun n =>
          { n with previous := some new, parent := none }).modify new fun n =>
        { n with
          parent := some anchor, previous := none, next := t.link? Node.firstChild anchor }).modify
        anchor fun n => { n with firstChild := some new }) := by
  unfold insertFirst
  have hfirst : (t.node? anchor).bind (·.firstChild) = t.link? Node.firstChild anchor := rfl
  rw [hfirst]
  cases t.link? Node.firstChild anchor <;> rfl

/-- Putting a node behind another one, as changes of single nodes. -/
theorem insertAfter_eq (t : Tree) (anchor new : NodeId) : t.insertAfter anchor new
    = (((t.modify? (t.link? Node.next anchor) fun n => { n with previous := some new }).modify
          new fun n =>
        { n with
          parent := t.parent? anchor, previous := some anchor,
          next := t.link? Node.next anchor }).modify
        anchor fun n => { n with next := some new }) := by
  unfold insertAfter
  have hnext : (t.node? anchor).bind (·.next) = t.link? Node.next anchor := rfl
  rw [hnext]
  cases t.link? Node.next anchor <;> rfl

@[simp]
theorem size_adopt (t : Tree) (owner : NodeId) (c : Construct) (new : NodeId) :
    (t.adopt owner c new).size = t.size := by
  simp [adopt]

@[simp]
theorem root_adopt (t : Tree) (owner : NodeId) (c : Construct) (new : NodeId) :
    (t.adopt owner c new).root = t.root := rfl

/-- Following the links of siblings meets the same nodes in two trees with the same links. -/
theorem chain_congr {t t' : Tree} (h : t'.link? Node.next = t.link? Node.next) (bound : Nat)
    (first : Option NodeId) : t'.chain bound first = t.chain bound first := by
  induction bound generalizing first with
  | zero => rfl
  | succ bound ih =>
    cases first with
    | none => rfl
    | some id => exact congrArg (id :: ·) ((ih _).trans (congrArg (t.chain bound) (congrFun h id)))

/-- The children of the nodes are the same where the links are. -/
theorem children_congr {t t' : Tree} (hsize : t'.size = t.size)
    (hfirst : t'.link? Node.firstChild = t.link? Node.firstChild)
    (hnext : t'.link? Node.next = t.link? Node.next) : t'.children = t.children := by
  funext id
  have hid : (t'.node? id).bind (·.firstChild) = (t.node? id).bind (·.firstChild) :=
    congrFun hfirst id
  rw [children, hid, hsize, chain_congr hnext, children]

/-- A node in a slot is no child. -/
theorem children_adopt (t : Tree) (owner : NodeId) (c : Construct) (new : NodeId) :
    (t.adopt owner c new).children = t.children :=
  children_congr (size_adopt t owner c new)
    (link?_adopt t owner new c (fun _ _ => rfl) fun _ _ => rfl)
    (link?_adopt t owner new c (fun _ _ => rfl) fun _ _ => rfl)

section Placed

variable {t : Tree} {anchor new : NodeId}

/-- The node becomes the first child of the anchor, and no other node gets another first child. -/
theorem firstChild_insertFirst (hanchor : anchor < t.size) (id : NodeId) :
    (t.insertFirst anchor new).link? Node.firstChild id
      = if id = anchor then some new else t.link? Node.firstChild id := by
  rw [insertFirst_eq, link?_modify_const (some new), link?_modify_of_eq, link?_modify?_of_eq]
  · exact fun _ => rfl
  · exact fun _ => rfl
  · exact fun _ => rfl
  · simpa using hanchor

/-- The new first child is followed by the old one. -/
theorem next_insertFirst (hnew : new < t.size) (id : NodeId) :
    (t.insertFirst anchor new).link? Node.next id
      = if id = new then t.link? Node.firstChild anchor else t.link? Node.next id := by
  rw [insertFirst_eq, link?_modify_of_eq, link?_modify_const (t.link? Node.firstChild anchor),
    link?_modify?_of_eq]
  · exact fun _ => rfl
  · exact fun _ => rfl
  · simpa using hnew
  · exact fun _ => rfl

/-- The old first child is preceded by the new one. -/
theorem previous_insertFirst (hnew : new < t.size)
    (hold : ∀ old, t.link? Node.firstChild anchor = some old → old < t.size) (id : NodeId) :
    (t.insertFirst anchor new).link? Node.previous id
      = if id = new then none
        else if t.link? Node.firstChild anchor = some id then some new
        else t.link? Node.previous id := by
  rw [insertFirst_eq, link?_modify_of_eq, link?_modify_const none, link?_modify?_const (some new)]
  · exact fun _ => rfl
  · exact hold
  · exact fun _ => rfl
  · simpa using hnew
  · exact fun _ => rfl

/-- The new first child knows the parent, and the old one no longer does. -/
theorem parent_insertFirst (hnew : new < t.size)
    (hold : ∀ old, t.link? Node.firstChild anchor = some old → old < t.size) (id : NodeId) :
    (t.insertFirst anchor new).link? Node.parent id
      = if id = new then some anchor
        else if t.link? Node.firstChild anchor = some id then none
        else t.link? Node.parent id := by
  rw [insertFirst_eq, link?_modify_of_eq, link?_modify_const (some anchor),
    link?_modify?_const none]
  · exact fun _ => rfl
  · exact hold
  · exact fun _ => rfl
  · simpa using hnew
  · exact fun _ => rfl

/-- Behind another node, a node is nobody's first child. -/
theorem firstChild_insertAfter (t : Tree) (anchor new : NodeId) :
    (t.insertAfter anchor new).link? Node.firstChild = t.link? Node.firstChild := by
  rw [insertAfter_eq, link?_modify_of_eq, link?_modify_of_eq, link?_modify?_of_eq]
  all_goals exact fun _ => rfl

/-- The new sibling is followed by what followed the old one. -/
theorem next_insertAfter (hanchor : anchor < t.size) (hnew : new < t.size) (id : NodeId) :
    (t.insertAfter anchor new).link? Node.next id
      = if id = anchor then some new
        else if id = new then t.link? Node.next anchor
        else t.link? Node.next id := by
  rw [insertAfter_eq, link?_modify_const (some new), link?_modify_const (t.link? Node.next anchor),
    link?_modify?_of_eq]
  · exact fun _ => rfl
  · exact fun _ => rfl
  · simpa using hnew
  · exact fun _ => rfl
  · simpa using hanchor

/-- What followed the old sibling is preceded by the new one. -/
theorem previous_insertAfter (hnew : new < t.size)
    (hold : ∀ old, t.link? Node.next anchor = some old → old < t.size) (id : NodeId) :
    (t.insertAfter anchor new).link? Node.previous id
      = if id = new then some anchor
        else if t.link? Node.next anchor = some id then some new
        else t.link? Node.previous id := by
  rw [insertAfter_eq, link?_modify_of_eq, link?_modify_const (some anchor),
    link?_modify?_const (some new)]
  · exact fun _ => rfl
  · exact hold
  · exact fun _ => rfl
  · simpa using hnew
  · exact fun _ => rfl

/-- The node gets the parent of the anchor. -/
theorem parent_insertAfter (hnew : new < t.size) (id : NodeId) :
    (t.insertAfter anchor new).link? Node.parent id
      = if id = new then t.parent? anchor else t.link? Node.parent id := by
  rw [insertAfter_eq, link?_modify_of_eq, link?_modify_const (t.parent? anchor),
    link?_modify?_of_eq]
  · exact fun _ => rfl
  · exact fun _ => rfl
  · simpa using hnew
  · exact fun _ => rfl

end Placed

/-! ## Constructs and slots -/

/-- The nodes in the slots of a node. -/
def slots (t : Tree) (id : NodeId) : List NodeId := ((t.construct? id).map Construct.slots).getD []

/-- The nodes right below a node are its children and those in its slots. -/
theorem successors_eq (t : Tree) (id : NodeId) : t.successors id = t.children id ++ t.slots id :=
  rfl

theorem successors_withRoot (t : Tree) (root : Option NodeId) :
    ({ t with root := root } : Tree).successors = t.successors := by
  funext id
  have hchildren : ({ t with root := root } : Tree).children = t.children :=
    children_congr rfl rfl rfl
  rw [successors_eq, hchildren]
  rfl

theorem Same.construct?_eq {t t' : Tree} (h : Same (fun c => c) t t') :
    t'.construct? = t.construct? := by
  funext id
  simpa using h id

theorem construct?_insertFirst (t : Tree) (anchor new : NodeId) :
    (t.insertFirst anchor new).construct? = t.construct? :=
  (Same.insertFirst _ t anchor new).construct?_eq

theorem construct?_insertAfter (t : Tree) (anchor new : NodeId) :
    (t.insertAfter anchor new).construct? = t.construct? :=
  (Same.insertAfter _ t anchor new).construct?_eq

/-- The slots of a node are those of its construct. -/
theorem slots_congr {t t' : Tree} (h : t'.construct? = t.construct?) : t'.slots = t.slots := by
  funext id
  rw [slots, h, slots]

theorem slots_insertFirst (t : Tree) (anchor new : NodeId) :
    (t.insertFirst anchor new).slots = t.slots :=
  slots_congr (t.construct?_insertFirst anchor new)

theorem slots_insertAfter (t : Tree) (anchor new : NodeId) :
    (t.insertAfter anchor new).slots = t.slots :=
  slots_congr (t.construct?_insertAfter anchor new)

/-- Only the owner of the slot has another construct afterwards. -/
theorem construct?_adopt {t : Tree} {owner : NodeId} {c : Construct}
    (h : t.construct? owner = some c) (c' : Construct) (new id : NodeId) :
    (t.adopt owner c' new).construct? id = if id = owner then some c' else t.construct? id := by
  have hlinks : Same (fun c => c) (t.modify owner fun n => { n with construct := c' })
      (t.adopt owner c' new) := (Same.refl _ _).links fun _ => rfl
  rw [hlinks.construct?_eq]
  by_cases hid : id = owner
  · subst hid
    obtain ⟨n, hn, -⟩ := Option.map_eq_some_iff.1 h
    simp [construct?, hn]
  · rw [construct?, node?_modify_of_ne t hid, construct?, if_neg hid]

/-- A new node has its construct, and no other node has another one. -/
theorem construct?_allocate_eq (t : Tree) (c : Construct) (line : Nat) (id : NodeId) :
    (t.allocate c line).2.construct? id = if id = t.size then some c else t.construct? id := by
  split
  · rename_i heq
    rw [heq, construct?_allocate]
  · rename_i hne
    rcases Nat.lt_or_gt_of_ne hne with hlt | hgt
    · rw [construct?, node?_allocate_of_lt t c line hlt, construct?]
    · have hle : (t.allocate c line).2.size ≤ id := by
        rw [size_allocate]
        exact hgt
      rw [construct?_of_size_le hle, construct?_of_size_le (Nat.le_of_lt hgt)]

/-- A construct without slots may be made anywhere. -/
theorem slots_allocate (t : Tree) {c : Construct} (hc : c.slots = []) (line : Nat) :
    (t.allocate c line).2.slots = t.slots := by
  funext id
  rw [slots, construct?_allocate_eq, slots]
  split
  · rename_i heq
    rw [heq, construct?_of_size_le (Nat.le_refl _)]
    exact hc
  · rfl

/-- Only the slots of the owner are other ones afterwards. -/
theorem slots_adopt {t : Tree} {owner : NodeId} {c : Construct} (h : t.construct? owner = some c)
    (c' : Construct) (new id : NodeId) :
    (t.adopt owner c' new).slots id = if id = owner then c'.slots else t.slots id := by
  rw [slots, construct?_adopt h]
  split <;> rfl

/-- A unit that has its entry block keeps it. -/
theorem Edited.construct?_eq {t tree : Tree} {e : Edit} (h : t.Edited e tree)
    {unit : NodeId} {name scope : String} {entry : NodeId}
    (hunit : t.construct? unit = some (.unit name scope (some entry))) :
    tree.construct? unit = some (.unit name scope (some entry)) := by
  cases h with
  | allocate c line =>
    rw [construct?_allocate_eq, if_neg (Nat.ne_of_lt (lt_size_of_construct? hunit)), hunit]
  | insertFirst anchor new => rw [construct?_insertFirst, hunit]
  | insertAfter anchor new => rw [construct?_insertAfter, hunit]
  | setRoot id => exact hunit
  | @slot _ owner new c c' before after _ _ _ stands vacant =>
    have hne : unit ≠ owner := by
      rintro rfl
      exact vacant name scope entry (Option.some.inj (stands.symm.trans hunit))
    rw [construct?_adopt stands, if_neg hne, hunit]

/-- The unit that has its entry block takes no other one. -/
theorem setEntry_of_entry {t : Tree} {unit : NodeId} {name scope : String} {entry : NodeId}
    (hfound : t.find? Construct.isUnit = some unit)
    (hunit : t.construct? unit = some (.unit name scope (some entry))) (block : NodeId) :
    t.setEntry block = .error .entryAlreadySet := by
  unfold setEntry
  simp only [hfound, hunit]

end Tree

/-! ## Rows of siblings -/

/-- A list with a new node right after one of its members. -/
def spliceAfter (anchor new : NodeId) : List NodeId → List NodeId
  | [] => []
  | id :: ids => if id = anchor then id :: new :: ids else id :: spliceAfter anchor new ids

/-- Where the anchor is not in the list, nothing is put in. -/
theorem spliceAfter_of_not_mem {anchor new : NodeId} {ids : List NodeId} (h : anchor ∉ ids) :
    spliceAfter anchor new ids = ids := by
  induction ids with
  | nil => rfl
  | cons id ids ih =>
    rw [List.mem_cons, not_or] at h
    rw [spliceAfter, if_neg (Ne.symm h.1), ih h.2]

/-- Where it is, the node stands right behind it. -/
theorem spliceAfter_append_cons {anchor new : NodeId} {before : List NodeId} (h : anchor ∉ before)
    (after : List NodeId) : spliceAfter anchor new (before ++ anchor :: after)
      = before ++ anchor :: new :: after := by
  induction before with
  | nil => simp [spliceAfter]
  | cons id ids ih =>
    rw [List.mem_cons, not_or] at h
    rw [List.cons_append, spliceAfter, if_neg (Ne.symm h.1), ih h.2, List.cons_append]

/-- The members of the list, and the node if the anchor is one of them. -/
theorem mem_spliceAfter {anchor new id : NodeId} {ids : List NodeId} :
    id ∈ spliceAfter anchor new ids ↔ id ∈ ids ∨ id = new ∧ anchor ∈ ids := by
  by_cases h : anchor ∈ ids
  · induction ids with
    | nil => cases h
    | cons x ids ih =>
      rw [spliceAfter]
      split
      · rename_i heq
        simp only [List.mem_cons, heq, true_or, and_true]
        tauto
      · rename_i hne
        have hin : anchor ∈ ids := (List.mem_cons.1 h).resolve_left (Ne.symm hne)
        simp only [List.mem_cons, ih hin, hin, or_true, and_true]
        tauto
  · rw [spliceAfter_of_not_mem h]
    simp [h]

theorem head?_spliceAfter (anchor new : NodeId) (ids : List NodeId) :
    (spliceAfter anchor new ids).head? = ids.head? := by
  cases ids with
  | nil => rfl
  | cons id ids =>
    rw [spliceAfter]
    split <;> rfl

/-- The lists of children after a call, of those before it. -/
def Edit.relist (lists : NodeId → List NodeId) : Edit → NodeId → List NodeId
  | insertFirst anchor new => Function.update lists anchor (new :: lists anchor)
  | insertAfter anchor new => fun owner => spliceAfter anchor new (lists owner)
  | _ => lists

/-- No child is lost. -/
theorem Edit.mem_relist {lists : NodeId → List NodeId} {id owner : NodeId} (h : id ∈ lists owner)
    (e : Edit) : id ∈ e.relist lists owner := by
  cases e with
  | insertFirst anchor new =>
    by_cases howner : owner = anchor
    · subst howner
      simp [relist, h]
    · simpa [relist, howner] using h
  | insertAfter anchor new => exact mem_spliceAfter.2 (.inl h)
  | _ => exact h

/-- Each of these nodes is in a relation with the ones in front of it and behind it. -/
def Strung (R : Option NodeId → NodeId → Option NodeId → Prop) : Option NodeId → List NodeId → Prop
  | _, [] => True
  | previous, id :: ids => R previous id ids.head? ∧ Strung R (some id) ids

namespace Strung

variable {R R' : Option NodeId → NodeId → Option NodeId → Prop} {previous first : Option NodeId}
  {ids : List NodeId}

/-- Another relation and another node in front. -/
theorem imp (h : Strung R previous ids)
    (hfirst : ∀ id n, ids.head? = some id → R previous id n → R' first id n)
    (hrest : ∀ p ∈ ids, ∀ id ∈ ids, ∀ n, R (some p) id n → R' (some p) id n) :
    Strung R' first ids := by
  induction ids generalizing previous first with
  | nil => trivial
  | cons id ids ih =>
    refine ⟨hfirst id _ rfl h.1, ih h.2 (fun next n hnext => ?_) fun p hp x hx => ?_⟩
    · exact hrest id List.mem_cons_self next (.tail _ (List.mem_of_mem_head? hnext)) n
    · exact hrest p (.tail _ hp) x (.tail _ hx)

/-- Another relation, with the same nodes in front and behind. -/
theorem mono (h : Strung R previous ids) (himp : ∀ p, ∀ id ∈ ids, ∀ n, R p id n → R' p id n) :
    Strung R' previous ids :=
  h.imp (fun id n hid => himp previous id (List.mem_of_mem_head? hid) n) fun p _ => himp (some p)

theorem head {id : NodeId} (h : Strung R previous ids) (hid : ids.head? = some id) :
    R previous id ids.tail.head? := by
  cases ids with
  | nil => cases hid
  | cons x ids =>
    cases hid
    exact h.1

/-- The neighbours of a node in the middle. -/
theorem neighbours {before after : List NodeId} {id : NodeId}
    (h : Strung R previous (before ++ id :: after)) :
    R (before.getLast?.or previous) id after.head? := by
  induction before generalizing previous with
  | nil => exact h.1
  | cons x before ih =>
    have hrest := ih h.2
    rw [List.getLast?_cons]
    cases hlast : before.getLast? <;> simpa [hlast] using hrest

/-- A new node behind one of these, where nodes that are not next to it keep their neighbours. -/
theorem splice {anchor new : NodeId} (h : Strung R previous ids) (hnodup : ids.Nodup)
    (hfree : new ∉ ids) (hprevious : previous ≠ some anchor)
    (hanchor : ∀ p n, R p anchor n → R' p anchor (some new) ∧ R' (some anchor) new n)
    (hnext : ∀ p y n, y ≠ new → y ≠ anchor → R p anchor (some y) → R (some anchor) y n →
      R' (some new) y n)
    (hrest : ∀ p id n, id ≠ new → id ≠ anchor → p ≠ some anchor → R p id n → R' p id n) :
    Strung R' previous (spliceAfter anchor new ids) := by
  induction ids generalizing previous with
  | nil => trivial
  | cons id ids ih =>
    rw [List.mem_cons, not_or] at hfree
    obtain ⟨hid, hnodup⟩ := List.nodup_cons.1 hnodup
    obtain ⟨hhere, hthere⟩ := h
    rw [spliceAfter]
    split
    · rename_i heq
      subst heq
      obtain ⟨hkept, hnew⟩ := hanchor _ _ hhere
      refine ⟨hkept, hnew, hthere.imp (fun y n hy hn => ?_) fun p hp x hx n hn => ?_⟩
      · have hmem : y ∈ ids := List.mem_of_mem_head? hy
        rw [hy] at hhere
        exact hnext _ y n (ne_of_mem_of_not_mem hmem hfree.2) (ne_of_mem_of_not_mem hmem hid)
          hhere hn
      · refine hrest _ x n (ne_of_mem_of_not_mem hx hfree.2) (ne_of_mem_of_not_mem hx hid) ?_ hn
        simpa using ne_of_mem_of_not_mem hp hid
    · rename_i hne
      refine ⟨?_, ih hthere hnodup hfree.2 (fun h => hne (Option.some.inj h))⟩
      rw [head?_spliceAfter]
      exact hrest _ _ _ (Ne.symm hfree.1) hne hprevious hhere

end Strung

namespace Tree

/-- From the first child of every node on, the links go through a list and end there. -/
structure Rows (t : Tree) (lists : NodeId → List NodeId) : Prop where
  first : ∀ owner, t.link? Node.firstChild owner = (lists owner).head?
  next : ∀ owner, Strung (fun _ id next => t.link? Node.next id = next) none (lists owner)

/-- Where the links of a tree string a list together, following them meets its members in order, as
many as the bound allows. -/
theorem chain_eq_take {t : Tree} {previous : Option NodeId} {ids : List NodeId}
    (h : Strung (fun _ id next => t.link? Node.next id = next) previous ids) (bound : Nat) :
    t.chain bound ids.head? = ids.take bound := by
  induction ids generalizing previous bound with
  | nil =>
    rw [List.take_nil]
    exact chain_none t bound
  | cons id ids ih =>
    cases bound with
    | zero => rfl
    | succ bound =>
      have hnext : (t.node? id).bind (·.next) = ids.head? := h.1
      rw [List.head?_cons, chain, hnext, ih h.2, List.take_succ_cons]

/-- A list without repetitions is no longer than there are nodes. -/
theorem length_le_size {t : Tree} {ids : List NodeId} (hnodup : ids.Nodup)
    (hids : ∀ id ∈ ids, id < t.size) : ids.length ≤ t.size := by
  have hsub : ids ⊆ List.range t.size := fun id hid => List.mem_range.2 (hids id hid)
  have hle := (hnodup.subperm hsub).length_le
  rwa [List.length_range] at hle

namespace Rows

variable {t t' : Tree} {lists : NodeId → List NodeId} {anchor new : NodeId}

/-- The children of a node are its list. -/
theorem children_eq (h : t.Rows lists) {owner : NodeId} (hnodup : (lists owner).Nodup)
    (hids : ∀ id ∈ lists owner, id < t.size) : t.children owner = lists owner := by
  have hfirst : (t.node? owner).bind (·.firstChild) = (lists owner).head? := h.first owner
  rw [children, hfirst, chain_eq_take (h.next owner)]
  exact List.take_of_length_le (length_le_size hnodup hids)

/-- Only the links to the first child and to the next sibling matter. -/
theorem of_links (h : t.Rows lists)
    (hfirst : t'.link? Node.firstChild = t.link? Node.firstChild)
    (hnext : t'.link? Node.next = t.link? Node.next) : t'.Rows lists := by
  refine ⟨fun owner => ?_, ?_⟩
  · rw [hfirst]
    exact h.first owner
  · rw [hnext]
    exact h.next

theorem allocate (h : t.Rows lists) (c : Construct) (line : Nat) :
    (t.allocate c line).2.Rows lists :=
  h.of_links (link?_allocate t c line rfl) (link?_allocate t c line rfl)

theorem adopt (h : t.Rows lists) (owner new : NodeId) (c : Construct) :
    (t.adopt owner c new).Rows lists :=
  h.of_links (link?_adopt t owner new c (fun _ _ => rfl) fun _ _ => rfl)
    (link?_adopt t owner new c (fun _ _ => rfl) fun _ _ => rfl)

/-- A new node in front of one of the lists. -/
theorem insertFirst (h : t.Rows lists) (hanchor : anchor < t.size) (hnew : new < t.size)
    (hfree : ∀ owner, new ∉ lists owner) :
    (t.insertFirst anchor new).Rows (Function.update lists anchor (new :: lists anchor)) := by
  have hkept : ∀ owner, ∀ id ∈ lists owner, ∀ n, t.link? Node.next id = n →
      (t.insertFirst anchor new).link? Node.next id = n := by
    intro owner id hid n hn
    rw [next_insertFirst hnew, if_neg (ne_of_mem_of_not_mem hid (hfree owner)), hn]
  refine ⟨fun owner => ?_, fun owner => ?_⟩
  · rw [firstChild_insertFirst hanchor, Function.update_apply]
    split
    · rfl
    · exact h.first owner
  · rw [Function.update_apply]
    split
    · have hhead : (t.insertFirst anchor new).link? Node.next new = (lists anchor).head? := by
        rw [next_insertFirst hnew, if_pos rfl, h.first]
      refine ⟨hhead, (h.next anchor).imp (fun id n hid => ?_) fun _ _ id hid => hkept anchor id hid⟩
      exact hkept anchor id (List.mem_of_mem_head? hid) n
    · exact (h.next owner).mono fun _ => hkept owner

/-- A new node behind one that is in one of the lists or in none. -/
theorem insertAfter (h : t.Rows lists) (hanchor : anchor < t.size) (hnew : new < t.size)
    (hne : new ≠ anchor) (hfree : ∀ owner, new ∉ lists owner)
    (hnodup : ∀ owner, (lists owner).Nodup) :
    (t.insertAfter anchor new).Rows fun owner => spliceAfter anchor new (lists owner) := by
  have hkept : ∀ id n, id ≠ new → id ≠ anchor → t.link? Node.next id = n →
      (t.insertAfter anchor new).link? Node.next id = n := by
    intro id n hid hid' hn
    rw [next_insertAfter hanchor hnew, if_neg hid', if_neg hid, hn]
  refine ⟨fun owner => ?_, fun owner => ?_⟩
  · rw [firstChild_insertAfter, head?_spliceAfter]
    exact h.first owner
  · refine (h.next owner).splice (hnodup owner) (hfree owner) (by simp) (fun _ n hn => ⟨?_, ?_⟩)
      (fun _ y n hy hy' _ => hkept y n hy hy') fun _ id n hid hid' _ => hkept id n hid hid'
    · rw [next_insertAfter hanchor hnew, if_pos rfl]
    · rw [next_insertAfter hanchor hnew, if_neg hne, if_pos rfl, hn]

end Rows

end Tree

/-! ## Trees under construction -/

/-- A tree with the nodes that were placed so far, and those of them that were placed as a child or
as a sibling. -/
structure Assembly where
  tree : Tree
  placed : List NodeId
  chained : List NodeId

namespace Assembly

/-- A tree without nodes. -/
def start : Assembly := ⟨.empty, [], []⟩

/-- One call; a call that is refused changes nothing. -/
def step (s : Assembly) (e : Edit) : Assembly :=
  match s.tree.edit e with
  | .error _ => s
  | .ok tree =>
    { tree
      placed := e.placed?.toList ++ s.placed
      chained := if e.chains then e.placed?.toList ++ s.chained else s.chained }

/-- The calls of a list, one after another. -/
def run (es : List Edit) : Assembly := es.foldl step start

/-- A call keeps to the rules of building a tree: it names nodes that were made, makes nodes
without anything in their slots, and places a node that was not placed before and is not, and is
not above, the one under or next to which it is placed. -/
structure Admits (s : Assembly) (e : Edit) : Prop where
  made : ∀ id ∈ e.names, id < s.tree.size
  bare : e.isBare = true
  once : ∀ tree new, s.tree.edit e = .ok tree → e.placed? = some new → new ∉ s.placed
  apart : ∀ tree new host, s.tree.edit e = .ok tree → e.placed? = some new →
    s.tree.host? e = some host → ¬Under s.tree.successors host new

/-- The same rules, computed. -/
def admits (s : Assembly) (e : Edit) : Bool :=
  e.names.all (fun id => id < s.tree.size) && e.isBare &&
    match s.tree.edit e, e.placed? with
    | .ok _, some new => !s.placed.contains new &&
      (s.tree.host? e).all fun host => !(s.tree.visit s.tree.size [new]).contains host
    | _, _ => true

/-- Every call of a list keeps to a rule, where it is made. -/
def Follows (rule : Assembly → Edit → Prop) : Assembly → List Edit → Prop
  | _, [] => True
  | s, e :: es => rule s e ∧ Follows rule (s.step e) es

/-- What every call that keeps to a rule preserves holds after all of them. -/
theorem Follows.invariant {rule : Assembly → Edit → Prop} {P : Assembly → Prop}
    (hstep : ∀ s e, P s → rule s e → P (s.step e)) {s : Assembly} {es : List Edit}
    (h : Follows rule s es) (hs : P s) : P (es.foldl step s) := by
  induction es generalizing s with
  | nil => exact hs
  | cons e es ih => exact ih h.2 (hstep s e hs h.1)

/-- A rule for every call of a list, computed. -/
def checks (check : Assembly → Edit → Bool) : Assembly → List Edit → Bool
  | _, [] => true
  | s, e :: es => check s e && checks check (s.step e) es

/-- Where a rule can be checked, it can be checked for a list of calls. -/
theorem follows_iff {rule : Assembly → Edit → Prop} {check : Assembly → Edit → Bool}
    {P : Assembly → Prop} (hiff : ∀ s e, P s → (rule s e ↔ check s e = true))
    (hstep : ∀ s e, P s → rule s e → P (s.step e)) {s : Assembly} {es : List Edit} (hs : P s) :
    Follows rule s es ↔ checks check s es = true := by
  induction es generalizing s with
  | nil => simp [Follows, checks]
  | cons e es ih =>
    rw [Follows, checks, Bool.and_eq_true, ← hiff s e hs]
    exact and_congr_right fun he => ih (hstep s e hs he)

/-- A call that succeeds. -/
theorem step_of_ok {s : Assembly} {e : Edit} {tree : Tree} (h : s.tree.edit e = .ok tree) :
    (s.step e).tree = tree ∧ (s.step e).placed = e.placed?.toList ++ s.placed ∧
      (s.step e).chained = if e.chains then e.placed?.toList ++ s.chained else s.chained := by
  simp [step, h]

end Assembly

end Primer
