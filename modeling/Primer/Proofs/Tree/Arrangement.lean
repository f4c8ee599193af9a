import Primer.Proofs.Tree.Siblings

/-!
# Primer.Proofs.Tree.Arrangement — a tree of links is an ordered forest.

An `Arrangement` is what the links of a tree stand for: the constructs that were made, for every
node the list of its children, and the root.  Its operations are those on lists: a first child is
put in front, a sibling right behind another one, and a branch at the end of its slots.  A tree
`Realizes` an arrangement if its walks find exactly these lists, every node has the neighbours that
it has in its list, and walking back finds the owner.

Whatever calls have built a tree, as long as they keep to the rules (`Assembly.Strict`), the tree
realizes the arrangement that the same calls have built.  Main statement: `Assembly.realizes_run`.

That a tree mirrors an arrangement is first said of its constructs, its rows of children and its
root (`Tree.Mirrors`), which is what an operation changes.  The links to neighbours and owners come
in at the end, by what `Tree.Siblings` says of trees that were built by the rules.  An answer is
compared with that on lists as well: both refuse the same calls, with the same fault
(`Tree.SameAnswer`).
-/

namespace Primer

namespace Construct

/-- Branches hang in the slots of such a construct. -/
def isConditional : Construct → Bool
  | conditional .. => true
  | _ => false

/-- A further branch of a conditional. -/
def isBranch : Construct → Bool
  | elseIf .. | otherwise _ => true
  | _ => false

end Construct

/-- The constructs that were made, the children of every node in order, and the root. -/
structure Arrangement where
  constructs : List Construct
  children : NodeId → List NodeId
  root : Option NodeId

namespace Arrangement

/-- Nothing was made yet. -/
def empty : Arrangement := ⟨[], fun _ => [], none⟩

/-- What a node is. -/
def construct? (a : Arrangement) (id : NodeId) : Option Construct := a.constructs[id]?

/-- The nodes directly under a node: its children, then those in its slots. -/
def successors (a : Arrangement) (id : NodeId) : List NodeId :=
  a.children id ++ ((a.construct? id).map Construct.slots).getD []

/-- The node that another one is directly under. -/
def owner? (a : Arrangement) (id : NodeId) : Option NodeId :=
  (List.range a.constructs.length).find? fun owner => id ∈ a.successors owner

/-- A node and all that is under it, for a number of levels. -/
def below (a : Arrangement) : Nat → NodeId → List NodeId
  | 0, _ => []
  | levels + 1, id => id :: (a.successors id).flatMap (a.below levels)

/-- The nodes under the root, each before those under it; there are no more levels than nodes. -/
def listing (a : Arrangement) : List NodeId := a.root.toList.flatMap (a.below a.constructs.length)

/-- The first program unit under the root. -/
def unit? (a : Arrangement) : Option NodeId :=
  a.listing.find? fun id => ((a.construct? id).map Construct.isUnit).getD false

/-- The arrangement after a call, or why the call is refused. -/
def edit (a : Arrangement) : Edit → Except TreeFault Arrangement
  | .allocate c _ => .ok { a with constructs := a.constructs ++ [c] }
  | .insertFirst anchor new =>
    .ok { a with children := Function.update a.children anchor (new :: a.children anchor) }
  | .insertAfter anchor new =>
    .ok { a with children := fun owner => spliceAfter anchor new (a.children owner) }
  | .setRoot id => if a.root.isSome then .error .rootAlreadySet else .ok { a with root := some id }
  | .setEntry block =>
    match a.unit? with
    | none => .error .unitNotFound
    | some unit =>
      match a.construct? unit with
      | some (.unit name scope none) =>
        .ok { a with constructs := a.constructs.set unit (.unit name scope (some block)) }
      | _ => .error .entryAlreadySet
  | .attachBranch conditional branch =>
    match a.construct? conditional, a.construct? branch with
    | some c, some b =>
      if c.isConditional && b.isBranch then
        .ok { a with constructs := a.constructs.set conditional (c.withBranch b branch) }
      else .error .notConditional
    | _, _ => .error .notConditional

/-- One call; a call that is refused changes nothing. -/
def step (a : Arrangement) (e : Edit) : Arrangement :=
  match a.edit e with
  | .error _ => a
  | .ok a' => a'

/-- What the calls build, one after the other, from nothing. -/
def run (es : List Edit) : Arrangement := es.foldl step empty

end Arrangement

namespace Tree

/-- The tree has the constructs, the lists of children and the root of an arrangement. -/
structure Mirrors (t : Tree) (a : Arrangement) : Prop where
  construct : t.construct? = a.construct?
  children : t.children = a.children
  root : t.root = a.root
  size : t.size = a.constructs.length

/-- The tree is an arrangement as far as its operations can tell: its walks list the children of a
node and all that is under the root, a child knows its neighbours and any other node has none, and
walking back finds the owner of every node. -/
structure Realizes (t : Tree) (a : Arrangement) : Prop extends t.Mirrors a where
  neighbours : ∀ owner before id after, a.children owner = before ++ id :: after →
    ∃ n, t.node? id = some n ∧ n.previous = before.getLast? ∧ n.next = after.head?
  alone : ∀ id n, t.node? id = some n → (∀ owner, id ∉ a.children owner) →
    n.previous = none ∧ n.next = none
  parent : ∀ id, t.parent? id = a.owner? id
  listing : t.reachable = a.listing

end Tree

/-- Both calls succeed, and the tree realizes the arrangement, or both are refused alike. -/
inductive SameAnswer : Except TreeFault Tree → Except TreeFault Arrangement → Prop
  | ok {t : Tree} {a : Arrangement} (realizes : t.Realizes a) : SameAnswer (.ok t) (.ok a)
  | error (fault : TreeFault) : SameAnswer (.error fault) (.error fault)

namespace Tree

variable {t : Tree} {a : Arrangement}

/-- The walks find what the lists of the arrangement say. -/
theorem Mirrors.successors (h : t.Mirrors a) : t.successors = a.successors := by
  funext id
  rw [Tree.successors, h.children, h.construct, Arrangement.successors]

/-- A construct was replaced, and another node told whose it is. -/
theorem Mirrors.adopt (h : t.Mirrors a) {owner : NodeId} {c : Construct}
    (hc : t.construct? owner = some c) (c' : Construct) (new : NodeId) :
    (t.adopt owner c' new).Mirrors { a with constructs := a.constructs.set owner c' } := by
  refine ⟨funext fun id => ?_, (t.children_adopt owner c' new).trans h.children, h.root, ?_⟩
  · have hlt : owner < a.constructs.length := h.size ▸ lt_size_of_construct? hc
    rw [construct?_adopt hc, h.construct, Arrangement.construct?, Arrangement.construct?,
      List.getElem?_set]
    by_cases hid : id = owner
    · rw [if_pos hid, if_pos hid.symm, if_pos hlt]
    · rw [if_neg hid, if_neg (Ne.symm hid)]
  · rw [size_adopt, List.length_set]
    exact h.size

/-- A node that is made stands on its own, in no list. -/
theorem Mirrors.allocate (h : t.Mirrors a) (c : Construct) (line : Nat)
    (hchildren : (t.allocate c line).2.children = t.children) :
    (t.allocate c line).2.Mirrors { a with constructs := a.constructs ++ [c] } := by
  refine ⟨funext fun id => ?_, hchildren.trans h.children, h.root, ?_⟩
  · have hat := congrFun h.construct id
    rw [construct?_allocate_eq, hat, h.size, Arrangement.construct?, Arrangement.construct?]
    split
    · rename_i heq
      simp [heq]
    · rename_i hne
      rcases Nat.lt_or_gt_of_ne hne with hlt | hgt
      · rw [List.getElem?_append_left hlt]
      · have hle : (a.constructs ++ [c]).length ≤ id := by
          rw [List.length_append]
          exact hgt
        rw [List.getElem?_eq_none (Nat.le_of_lt hgt), List.getElem?_eq_none hle]
  · rw [size_allocate, List.length_append, h.size]
    rfl

/-- What is found as the program unit is a program unit. -/
theorem Mirrors.exists_unit (h : t.Mirrors a) {id : NodeId} (hfound : a.unit? = some id) :
    ∃ name scope entry, t.construct? id = some (.unit name scope entry) := by
  have hkind := List.find?_some hfound
  rw [← h.construct] at hkind
  cases hc : t.construct? id with
  | none =>
    rw [hc] at hkind
    cases hkind
  | some c =>
    rw [hc] at hkind
    cases c with
    | unit name scope entry => exact ⟨name, scope, entry, rfl⟩
    | _ => cases hkind

/-- A branch goes into a conditional, and into nothing else. -/
theorem attachBranch_eq (t : Tree) (conditional branch : NodeId) :
    t.attachBranch conditional branch =
      match t.construct? conditional, t.construct? branch with
      | some c, some b =>
        if c.isConditional && b.isBranch then
          .ok (t.adopt conditional (c.withBranch b branch) branch)
        else .error .notConditional
      | _, _ => .error .notConditional := by
  unfold attachBranch
  cases t.construct? branch with
  | none => cases t.construct? conditional <;> rfl
  | some b =>
    cases t.construct? conditional with
    | none => cases b <;> rfl
    | some c => cases b <;> cases c <;> rfl

end Tree

/-- A walk goes no deeper than it is long. -/
theorem Walk.flatMap_below {a : Arrangement} {ids l : List NodeId} (h : Walk a.successors ids l)
    {levels : Nat} (hlevels : l.length ≤ levels) : ids.flatMap (a.below levels) = l := by
  induction h generalizing levels with
  | nil => rfl
  | @cons id rest inner outer _ _ ihi iho =>
    rw [List.length_cons, List.length_append] at hlevels
    obtain ⟨levels, rfl⟩ : ∃ more, levels = more + 1 := ⟨levels - 1, by omega⟩
    rw [List.flatMap_cons, Arrangement.below, ihi (by omega), iho (by omega), List.cons_append]

namespace Assembly

variable {s : Assembly} {a : Arrangement} {e : Edit} {tree : Tree}

/-- An owner has children or slots, so it was made. -/
theorem owner_lt {t : Tree} {owner id : NodeId} (h : id ∈ t.successors owner) : owner < t.size := by
  by_contra hge
  have hnone : t.node? owner = none := Array.getElem?_eq_none (Nat.le_of_not_lt hge)
  simp [Tree.successors, Tree.children, Tree.construct?, hnone, Tree.chain_none] at h

namespace Linked

/-- Walking back finds what the lists say. -/
theorem parent?_eq_owner? (h : s.Linked) (hm : s.tree.Mirrors a) (id : NodeId) :
    s.tree.parent? id = a.owner? id := by
  obtain ⟨howned, hfree⟩ := h.parent?_eq id
  rw [hm.successors] at howned hfree
  cases hfind : a.owner? id with
  | none =>
    refine hfree fun owner hid => ?_
    have hlt : owner < s.tree.size := owner_lt (hm.successors ▸ hid)
    rw [hm.size] at hlt
    have hnot := List.find?_eq_none.1 hfind owner (List.mem_range.2 hlt)
    simp [hid] at hnot
  | some owner =>
    have hid := List.find?_some hfind
    exact howned owner (by simpa using hid)

/-- Where every node has the links of its place, the walks, the neighbours and the owners are those
of the arrangement. -/
theorem realizes (h : s.Linked) (hm : s.tree.Mirrors a) : s.tree.Realizes a := by
  have hlinks : ∀ {id n}, s.tree.node? id = some n →
      s.tree.links id = ⟨n.previous, n.next, n.parent⟩ := by
    intro id n hn
    simp [Tree.links, Tree.link?, hn]
  refine ⟨hm, fun owner before id after hsplit => ?_, fun id n hn hid => ?_,
    h.parent?_eq_owner? hm, ?_⟩
  · rw [← hm.children] at hsplit
    have hrow := h.children owner
    have hin : id ∈ s.tree.children owner := by simp [hsplit]
    rw [hsplit] at hrow
    have hlt := h.sound.made owner id (List.mem_append_left _ hin)
    have hn : s.tree.node? id = some s.tree.nodes[id] := Array.getElem?_eq_getElem hlt
    have hbeside := hrow.neighbours
    have hprevious := hbeside.previous
    have hnext := hbeside.next
    rw [hlinks hn] at hprevious hnext
    rw [Option.or_none] at hprevious
    exact ⟨_, hn, hprevious, hnext⟩
  · rw [← hm.children] at hid
    have hnone : (s.tree.links id).previous = none ∧ (s.tree.links id).next = none := by
      -- Outside a row a node is a slot of an owner or free, and neither has neighbours.
      by_cases hslot : ∃ owner, id ∈ s.tree.slots owner
      · obtain ⟨owner, howner⟩ := hslot
        rw [h.slots owner id howner]
        exact ⟨rfl, rfl⟩
      · rw [h.free id fun owner hin => (List.mem_append.1 hin).elim (hid owner)
          fun hin => hslot ⟨owner, hin⟩]
        exact ⟨rfl, rfl⟩
    rwa [hlinks hn] at hnone
  · obtain ⟨hwalk, -⟩ := h.sound.reachable
    rw [hm.successors] at hwalk
    have hlevels : s.tree.reachable.length ≤ a.constructs.length :=
      hm.size ▸ s.tree.length_reachable_le
    rw [Arrangement.listing, ← hm.root, hwalk.flatMap_below hlevels]

/-- A call on the tree does to the lists what the same call does on them. -/
theorem mirrors (h : s.Linked) (ha : s.Strict e) (hm : s.tree.Mirrors a) :
    (∃ tree a', s.tree.edit e = .ok tree ∧ a.edit e = .ok a' ∧ tree.Mirrors a') ∨
      ∃ fault, s.tree.edit e = .error fault ∧ a.edit e = .error fault := by
  have hlists : ∀ tree, s.tree.edit e = .ok tree → tree.children = e.relist a.children := by
    intro tree hok
    rw [← hm.children]
    exact (h.sound.rearranged ha.toAdmits hok).2.2.2
  cases e with
  | allocate c line =>
    have hchildren := (hlists _ rfl).trans hm.children.symm
    exact .inl ⟨_, _, rfl, rfl, hm.allocate c line hchildren⟩
  | insertFirst anchor new =>
    refine .inl ⟨_, _, rfl, rfl, (s.tree.construct?_insertFirst anchor new).trans hm.construct,
      hlists _ rfl, (s.tree.root_insertFirst anchor new).trans hm.root,
      (s.tree.size_insertFirst anchor new).trans hm.size⟩
  | insertAfter anchor new =>
    refine .inl ⟨_, _, rfl, rfl, (s.tree.construct?_insertAfter anchor new).trans hm.construct,
      hlists _ rfl, (s.tree.root_insertAfter anchor new).trans hm.root,
      (s.tree.size_insertAfter anchor new).trans hm.size⟩
  | setRoot id =>
    rw [Tree.edit, Tree.setRoot, Arrangement.edit, ← hm.root]
    cases hroot : s.tree.root with
    | some root => exact .inr ⟨_, rfl, rfl⟩
    | none =>
      have hok : s.tree.edit (.setRoot id) = .ok { s.tree with root := some id } := by
        rw [Tree.edit, Tree.setRoot, hroot]
      exact .inl ⟨_, _, rfl, rfl, hm.construct, hlists _ hok, rfl, hm.size⟩
  | setEntry block =>
    have hunit : s.tree.find? Construct.isUnit = a.unit? := by
      rw [Tree.find?, (h.realizes hm).listing, hm.construct, Arrangement.unit?]
    rw [Tree.edit, Tree.setEntry, Arrangement.edit, hunit, ← hm.construct]
    cases hfound : a.unit? with
    | none => exact .inr ⟨_, rfl, rfl⟩
    | some unit =>
      obtain ⟨name, scope, entry, hc⟩ := hm.exists_unit hfound
      simp only [hc]
      -- the slot of the unit takes one entry block and no second one
      cases entry with
      | none => exact .inl ⟨_, _, rfl, rfl, hm.adopt hc _ block⟩
      | some entry => exact .inr ⟨_, rfl, rfl⟩
  | attachBranch conditional branch =>
    rw [Tree.edit, Tree.attachBranch_eq, Arrangement.edit, ← hm.construct]
    cases hc : s.tree.construct? conditional with
    | none => exact .inr ⟨_, rfl, rfl⟩
    | some c =>
      cases s.tree.construct? branch with
      | none => exact .inr ⟨_, rfl, rfl⟩
      | some b =>
        dsimp only
        split
        · exact .inl ⟨_, _, rfl, rfl, hm.adopt hc _ branch⟩
        · exact .inr ⟨_, rfl, rfl⟩

/-- A call that keeps to the rules is made on the arrangement as it is made on the tree. -/
theorem sameAnswer (h : s.Linked) (ha : s.Strict e) (hm : s.tree.Mirrors a) :
    SameAnswer (s.tree.edit e) (a.edit e) := by
  rcases h.mirrors ha hm with ⟨tree, a', hok, hok', hm'⟩ | ⟨fault, herror, herror'⟩
  · rw [hok, hok']
    have hnext := h.step ha
    have htree := (step_of_ok hok).1
    rw [← htree] at hm' ⊢
    exact .ok (hnext.realizes hm')
  · rw [herror, herror']
    exact .error fault

/-- A call does to the arrangement what it does to the tree. -/
theorem mirrors_step (h : s.Linked) (ha : s.Strict e) (hm : s.tree.Mirrors a) :
    (s.step e).tree.Mirrors (a.step e) := by
  rcases h.mirrors ha hm with ⟨tree, a', hok, hok', hm'⟩ | ⟨fault, herror, herror'⟩
  · rw [(step_of_ok hok).1, Arrangement.step, hok']
    exact hm'
  · rw [Assembly.step, herror, Arrangement.step, herror']
    exact hm

end Linked

theorem mirrors_foldl {es : List Edit} (h : s.Linked) (hes : Follows Strict s es)
    (hm : s.tree.Mirrors a) : (es.foldl step s).tree.Mirrors (es.foldl Arrangement.step a) := by
  induction es generalizing s a with
  | nil => exact hm
  | cons e es ih => exact ih (h.step hes.1) hes.2 (h.mirrors_step hes.1 hm)

/-- Whatever calls have built a tree by the rules, it realizes the arrangement that the same calls
have built, in which every node has at most one place, none is under itself, and the listing goes
through all that is under the root.  Each further call agrees with the same call on the arrangement;
one that is refused leaves the tree as it is, and one that puts a node into a list leaves all other
lists as they are. -/
theorem realizes_run {es : List Edit} (hes : Follows Strict start es) :
    (run es).tree.Realizes (Arrangement.run es) ∧
      Forested (Arrangement.run es).successors ∧
      Walk (Arrangement.run es).successors (Arrangement.run es).root.toList
        (Arrangement.run es).listing ∧
      ∀ e, (run es).Strict e →
        SameAnswer ((run es).tree.edit e) ((Arrangement.run es).edit e) ∧
        (∀ fault, (run es).tree.edit e = .error fault → (run (es ++ [e])).tree = (run es).tree) ∧
        ∀ tree, (run es).tree.edit e = .ok tree →
          (∀ anchor new owner, e = .insertFirst anchor new → owner ≠ anchor →
            tree.children owner = (run es).tree.children owner) ∧
          ∀ anchor new owner, e = .insertAfter anchor new →
            anchor ∉ (run es).tree.children owner →
            tree.children owner = (run es).tree.children owner := by
  have h := linked_run hes
  have hm : (run es).tree.Mirrors (Arrangement.run es) :=
    mirrors_foldl Linked.start hes ⟨rfl, rfl, rfl, rfl⟩
  have hrealizes := h.realizes hm
  have hforested := h.sound.forested
  obtain ⟨hwalk, -⟩ := h.sound.reachable
  rw [hm.successors] at hforested hwalk
  rw [hm.root, hrealizes.listing] at hwalk
  refine ⟨hrealizes, hforested, hwalk, fun e he => ⟨h.sameAnswer he hm, ?_, ?_⟩⟩
  · intro fault herror
    rw [run, List.foldl_append, List.foldl_cons, List.foldl_nil, ← run, step, herror]
  · intro tree hok
    have hlists := (h.sound.rearranged he.toAdmits hok).2.2.2
    rw [hlists]
    refine ⟨?_, ?_⟩
    · rintro anchor new owner rfl hne
      exact Function.update_of_ne hne _ _
    · rintro anchor new owner rfl hout
      exact spliceAfter_of_not_mem hout

/-- A loop whose body is put together before the loop itself is placed, behind another statement of
the entry block: first children are put in front of each other, and siblings behind and between. -/
def nestedCalls : List Edit :=
  [.allocate (.unit "m" "m" none) 1, .setRoot 0, .allocate (.entry "m^beginning") 2, .setEntry 1,
    .allocate (.loop "m^beginning^while1" (.literal 3 (.boolean true))) 3,
    .allocate (.result none) 4, .insertFirst 2 3, .allocate (.result none) 5, .insertFirst 2 4,
    .allocate (.result none) 6, .insertAfter 4 5, .allocate (.result none) 2, .insertFirst 1 6,
    .insertAfter 6 2]

/-- Calls that put siblings in front of and behind others, and one that is refused. -/
theorem nestedCalls_realized : (run nestedCalls).tree.Realizes (Arrangement.run nestedCalls) ∧
    (run nestedCalls).tree.children 2 = [4, 5, 3] ∧
    (run nestedCalls).tree.parent? 3 = some 2 ∧
    (run nestedCalls).tree.reachable = [0, 1, 6, 2, 4, 5, 3] ∧
    SameAnswer ((run nestedCalls).tree.edit (.setRoot 1)) (.error .rootAlreadySet) := by
  have hes : Follows Strict start nestedCalls := follows_strict.2 (by decide +kernel)
  have hroot : (run nestedCalls).Strict (.setRoot 1) :=
    (linked_run hes).sound.strict_iff.2 (by decide +kernel)
  obtain ⟨hrealizes, -, -, hcalls⟩ := realizes_run hes
  have hlisting : (Arrangement.run nestedCalls).listing = [0, 1, 6, 2, 4, 5, 3] := by decide +kernel
  have hchildren : (Arrangement.run nestedCalls).children 2 = [4, 5, 3] := by decide +kernel
  have hparent : (Arrangement.run nestedCalls).owner? 3 = some 2 := by decide +kernel
  refine ⟨hrealizes, ?_, (hrealizes.parent 3).trans hparent, hrealizes.listing.trans hlisting,
    (hcalls (.setRoot 1) hroot).1⟩
  rw [hrealizes.children]
  exact hchildren

end Assembly

end Primer
