import Primer.Proofs.Tree.Retention

/-!
# Primer.Proofs.Tree.Siblings — every node knows its neighbours and finds its owner.

Only the first of a row of siblings is sure to know its parent: when a new first child comes, the
old one forgets it, and a node that is put behind a sibling is told whatever walking back from that
one finds.  While nodes are put only next to children, and no branch replaces another one, the links
of every node say where it stands: a child knows the children next to it, what hangs in a slot knows
its owner and has no neighbours, and what is in no list has no links (`Assembly.Linked`).  So
walking back finds the owner of every node (`Linked.parent?_eq`).

The links of a node are kept together in one record (`Tree.Links`), and each operation has one
equation for them.  `Tree.Beside` says what the links of a node in a row should be.  A call that
puts a node in front of a row, or behind one of its members, changes the links of at most three
nodes; the lemma `Linked.of_row` is what both have in common.
-/

namespace Primer

/-- The links of a node to those next to it and above it. -/
structure Links where
  previous : Option NodeId
  next : Option NodeId
  parent : Option NodeId

namespace Tree

variable {t : Tree} {anchor new : NodeId}

/-- The links of a node, as far as they concern its neighbours and its owner. -/
def links (t : Tree) (id : NodeId) : Links :=
  ⟨t.link? Node.previous id, t.link? Node.next id, t.link? Node.parent id⟩

theorem links_allocate (t : Tree) (c : Construct) (line : Nat) :
    (t.allocate c line).2.links = t.links := by
  funext id
  rw [links, link?_allocate, link?_allocate, link?_allocate, links] <;> rfl

/-- The node comes in front of the former first child, which forgets its parent. -/
theorem links_insertFirst (hnew : new < t.size)
    (hold : ∀ old, t.link? Node.firstChild anchor = some old → old < t.size) (id : NodeId) :
    (t.insertFirst anchor new).links id
      = if id = new then ⟨none, t.link? Node.firstChild anchor, some anchor⟩
        else if t.link? Node.firstChild anchor = some id then ⟨some new, (t.links id).next, none⟩
        else t.links id := by
  rw [links, previous_insertFirst hnew hold, next_insertFirst hnew, parent_insertFirst hnew hold]
  split
  · rfl
  · split <;> rfl

/-- The node comes between its anchor and what stood behind it, and is told the owner that is found
from there. -/
theorem links_insertAfter (hanchor : anchor < t.size) (hnew : new < t.size) (hne : new ≠ anchor)
    (hold : ∀ old, (t.links anchor).next = some old → old < t.size ∧ old ≠ anchor) (id : NodeId) :
    (t.insertAfter anchor new).links id
      = if id = new then ⟨some anchor, (t.links anchor).next, t.parent? anchor⟩
        else if id = anchor then { t.links anchor with next := some new }
        else if (t.links anchor).next = some id then { t.links id with previous := some new }
        else t.links id := by
  have hlt : ∀ old, t.link? Node.next anchor = some old → old < t.size := fun old h =>
    (hold old h).1
  rw [links, previous_insertAfter hnew hlt, next_insertAfter hanchor hnew, parent_insertAfter hnew]
  by_cases hid : id = new
  · rw [if_pos hid, if_pos hid, if_pos hid, if_pos hid, if_neg fun h => hne (hid.symm.trans h)]
    rfl
  · rw [if_neg hid, if_neg hid, if_neg hid, if_neg hid]
    by_cases hid' : id = anchor
    · subst hid'
      have hloop : t.link? Node.next id ≠ some id := fun h => (hold id h).2 rfl
      rw [if_pos rfl, if_pos rfl, if_neg hloop]
      rfl
    · rw [if_neg hid', if_neg hid']
      by_cases hnext : t.link? Node.next anchor = some id
      · have hnext' : (t.links anchor).next = some id := hnext
        rw [if_pos hnext, if_pos hnext']
        rfl
      · have hnext' : ¬(t.links anchor).next = some id := hnext
        rw [if_neg hnext, if_neg hnext']
        rfl

/-- A node in a slot knows its owner. -/
theorem links_adopt (hnew : new < t.size) (owner : NodeId) (c : Construct) (id : NodeId) :
    (t.adopt owner c new).links id
      = if id = new then { t.links id with parent := some owner } else t.links id := by
  have hparent : (t.adopt owner c new).link? Node.parent id
      = if id = new then some owner else t.link? Node.parent id := by
    rw [adopt, link?_modify_const (some owner), link?_modify_of_eq]
    · exact fun _ => rfl
    · exact fun _ => rfl
    · simpa using hnew
  rw [links, hparent, link?_adopt _ _ _ _ (fun _ _ => rfl) fun _ _ => rfl,
    link?_adopt _ _ _ _ (fun _ _ => rfl) fun _ _ => rfl]
  split <;> rfl

/-- A child between two other ones: it knows both, and its owner unless there is one in front of it
that may know. -/
structure Beside (t : Tree) (owner : NodeId) (before : Option NodeId) (id : NodeId)
    (behind : Option NodeId) : Prop where
  previous : (t.links id).previous = before
  next : (t.links id).next = behind
  parent : (t.links id).parent = some owner ∨ (t.links id).parent = none ∧ before ≠ none

/-- What is said of a place is said of links. -/
theorem Beside.of_eq {t' : Tree} {owner id : NodeId} {before behind : Option NodeId}
    (h : t.Beside owner before id behind) (heq : t'.links id = t.links id) :
    t'.Beside owner before id behind := by
  obtain ⟨hprevious, hnext, hparent⟩ := h
  rw [← heq] at hprevious hnext hparent
  exact ⟨hprevious, hnext, hparent⟩

/-- One step of walking back. -/
theorem parentWithin_succ (t : Tree) (bound : Nat) (id : NodeId) : t.parentWithin (bound + 1) id
    = (t.links id).parent.or ((t.links id).previous.bind (t.parentWithin bound)) := by
  simp only [parentWithin, links, link?]
  cases t.node? id with
  | none => rfl
  | some n =>
    simp only [Option.bind_some]
    cases n.parent <;> rfl

/-- Walking back through a row of siblings finds their owner. -/
theorem parentWithin_eq {owner id : NodeId} {ids before after : List NodeId}
    (h : Strung (t.Beside owner) none ids) (hids : ids = before ++ id :: after) {bound : Nat}
    (hbound : before.length < bound) : t.parentWithin bound id = some owner := by
  induction bound generalizing id before after with
  | zero => exact absurd hbound (Nat.not_lt_zero _)
  | succ bound ih =>
    subst hids
    obtain ⟨hprevious, -, hparent⟩ := h.neighbours
    rw [parentWithin_succ, hprevious]
    rcases hparent with hparent | ⟨hparent, hne⟩
    · rw [hparent, Option.some_or]
    · rw [Option.or_none] at hne ⊢
      obtain ⟨q, hq⟩ := Option.ne_none_iff_exists'.1 hne
      obtain ⟨front, rfl⟩ := List.getLast?_eq_some_iff.1 hq
      have hsplit : front ++ [q] ++ id :: after = front ++ q :: (id :: after) := by simp
      rw [List.length_append, List.length_singleton] at hbound
      rw [hparent, hq, Option.none_or, Option.bind_some]
      exact ih hsplit (Nat.lt_of_succ_lt_succ hbound)

end Tree

namespace Assembly

/-- The rules of building an ordered tree: siblings are put only behind children, and a conditional
gets at most one branch without a condition. -/
structure Strict (s : Assembly) (e : Edit) : Prop extends s.Admits e where
  anchored : ∀ anchor new, e = .insertAfter anchor new → anchor ∈ s.chained
  single : s.tree.displaced? e = none

/-- The same rules, computed. -/
def strict (s : Assembly) (e : Edit) : Bool :=
  s.admits e && (s.tree.displaced? e).isNone &&
    match e with
    | .insertAfter anchor _ => s.chained.contains anchor
    | _ => true

/-- Whether a call is by the rules is found out by looking. -/
theorem Sound.strict_iff {s : Assembly} {e : Edit} (hs : s.Sound) :
    s.Strict e ↔ s.strict e = true := by
  unfold strict
  rw [Bool.and_eq_true, Bool.and_eq_true, ← hs.admits_iff, Option.isNone_iff_eq_none]
  constructor
  · intro h
    refine ⟨⟨h.toAdmits, h.single⟩, ?_⟩
    split
    · rename_i anchor new
      simpa using h.anchored anchor new rfl
    · rfl
  · rintro ⟨⟨hadmits, hsingle⟩, hanchor⟩
    refine ⟨hadmits, ?_, hsingle⟩
    rintro anchor new rfl
    simpa using hanchor

/-- The links of every node say where it stands. -/
structure Linked (s : Assembly) : Prop where
  sound : s.Sound
  children : ∀ owner, Strung (s.tree.Beside owner) none (s.tree.children owner)
  slots : ∀ owner, ∀ id ∈ s.tree.slots owner, s.tree.links id = ⟨none, none, some owner⟩
  free : ∀ id, (∀ owner, id ∉ s.tree.successors owner) → s.tree.links id = ⟨none, none, none⟩
  chained : ∀ id ∈ s.chained, ∃ owner, id ∈ s.tree.children owner

variable {s : Assembly} {e : Edit} {tree : Tree}

/-- What is a child hangs in no slot. -/
theorem Sound.not_mem_slots (hs : s.Sound) {id owner other : NodeId}
    (h : id ∈ s.tree.children owner) : id ∉ s.tree.slots other := by
  intro hslot
  have heq := hs.forested.unique (List.mem_append_left _ h)
    (show id ∈ s.tree.successors other from List.mem_append_right _ hslot)
  subst heq
  exact (List.nodup_append'.1 (hs.forested.once owner)).2.2 h hslot

/-- A child is in no other row. -/
theorem Sound.not_mem_children (hs : s.Sound) {id owner other : NodeId}
    (h : id ∈ s.tree.children owner) (hne : other ≠ owner) : id ∉ s.tree.children other := fun h' =>
  hne (hs.forested.unique (List.mem_append_left _ h') (List.mem_append_left _ h))

namespace Linked

/-- The first child of a node. -/
theorem first (h : s.Linked) (anchor : NodeId) :
    s.tree.link? Node.firstChild anchor = (s.tree.children anchor).head? :=
  h.sound.rows.first anchor

/-- Walking back finds the owner of every node, and nothing from a node without an owner. -/
theorem parent?_eq (h : s.Linked) (id : NodeId) :
    (∀ owner, id ∈ s.tree.successors owner → s.tree.parent? id = some owner) ∧
      ((∀ owner, id ∉ s.tree.successors owner) → s.tree.parent? id = none) := by
  refine ⟨fun owner hid => ?_, fun hfree => ?_⟩
  · have hlt := h.sound.made owner id hid
    rw [Tree.parent?]
    rcases List.mem_append.1 hid with hchild | hslot
    · obtain ⟨before, after, hsplit⟩ := List.append_of_mem hchild
      have hlength : (s.tree.children owner).length ≤ s.tree.size := s.tree.length_chain_le _ _
      rw [hsplit, List.length_append, List.length_cons] at hlength
      have hshort : before.length < s.tree.size := by omega
      exact Tree.parentWithin_eq (h.children owner) hsplit hshort
    · obtain ⟨bound, hbound⟩ := Nat.exists_eq_add_one.2 (Nat.zero_lt_of_lt hlt)
      rw [hbound, Tree.parentWithin_succ, h.slots owner id hslot]
      rfl
  · rw [Tree.parent?]
    cases s.tree.size with
    | zero => rfl
    | succ bound =>
      rw [Tree.parentWithin_succ, h.free id hfree]
      rfl

/-- After a call that succeeds it is enough to look at the links. -/
theorem of_links (h : s.Linked) (ha : s.Strict e) (hok : s.tree.edit e = .ok tree)
    (hchildren : ∀ owner, Strung (tree.Beside owner) none (e.relist s.tree.children owner))
    (hslots : ∀ owner, ∀ id ∈ tree.slots owner, tree.links id = ⟨none, none, some owner⟩)
    (hfree : ∀ id, (∀ owner, id ∉ e.relist s.tree.children owner) →
      (∀ owner, id ∉ tree.slots owner) → (∀ owner, id ∉ s.tree.successors owner) →
      tree.links id = ⟨none, none, none⟩) :
    (s.step e).Linked := by
  obtain ⟨hre, -, -, hlists⟩ := h.sound.rearranged ha.toAdmits hok
  obtain ⟨htree, -, hchained⟩ := step_of_ok hok
  refine ⟨h.sound.step ha.toAdmits, ?_, ?_, ?_, ?_⟩ <;> rw [htree]
  · rw [hlists]
    exact hchildren
  · exact hslots
  · intro id hid
    refine hfree id (fun owner hin => hid owner ?_) (fun owner hin => hid owner ?_)
      fun owner hin => hid owner ((hre.sublist ha.single owner).subset hin)
    · rw [← hlists] at hin
      exact List.mem_append_left _ hin
    · exact List.mem_append_right _ hin
  · -- A node enters the chained ones by an insertion only, and then it is among the children.
    rw [hchained, hlists]
    intro id hid
    have hold : id ∈ s.chained → ∃ owner, id ∈ e.relist s.tree.children owner := fun hin =>
      (h.chained id hin).imp fun owner howner => Edit.mem_relist howner e
    split at hid
    · rcases List.mem_append.1 hid with hnew | hin
      · rw [Option.mem_toList] at hnew
        cases e with
        | insertFirst anchor new =>
          cases hnew
          exact ⟨anchor, by simp [Edit.relist]⟩
        | insertAfter anchor new =>
          cases hnew
          obtain ⟨owner, howner⟩ := h.chained anchor (ha.anchored anchor id rfl)
          exact ⟨owner, mem_spliceAfter.2 (.inr ⟨rfl, howner⟩)⟩
        | _ => contradiction
      · exact hold hin
    · exact hold hid

/-- A row in which no links change. -/
theorem row_of_eq (h : s.Linked) {owner : NodeId}
    (heq : ∀ id ∈ s.tree.children owner, tree.links id = s.tree.links id) :
    Strung (tree.Beside owner) none (s.tree.children owner) :=
  (h.children owner).mono fun _ id hid _ hbeside => hbeside.of_eq (heq id hid)

/-- A call that puts a node into one row of children: only the row itself has to be looked at. -/
theorem of_row (h : s.Linked) (ha : s.Strict e) (hok : s.tree.edit e = .ok tree)
    {owner new : NodeId} (hnew : e.placed? = some new) (hslots : tree.slots = s.tree.slots)
    (hin : new ∈ e.relist s.tree.children owner)
    (hothers : ∀ other, other ≠ owner → e.relist s.tree.children other = s.tree.children other)
    (hkept : ∀ id, id ≠ new → id ∉ s.tree.children owner → tree.links id = s.tree.links id)
    (hrow : Strung (tree.Beside owner) none (e.relist s.tree.children owner)) :
    (s.step e).Linked := by
  have hout := h.sound.free (ha.once tree new hok hnew)
  refine h.of_links ha hok (fun other => ?_) (fun other id hid => ?_) fun id hid _ hfree => ?_
  · by_cases hother : other = owner
    · rw [hother]
      exact hrow
    · rw [hothers other hother]
      exact h.row_of_eq fun id hid =>
        hkept id (ne_of_mem_of_not_mem (List.mem_append_left _ hid) (hout other))
          (h.sound.not_mem_children hid (Ne.symm hother))
  · rw [hslots] at hid
    have hne : id ≠ new := ne_of_mem_of_not_mem (List.mem_append_right _ hid) (hout other)
    rw [hkept id hne fun hchild => h.sound.not_mem_slots hchild hid]
    exact h.slots other id hid
  · have hne : id ≠ new := by
      rintro rfl
      exact hid owner hin
    rw [hkept id hne fun hchild => hfree owner (List.mem_append_left _ hchild)]
    exact h.free id hfree

/-- Putting a node in front of a row keeps all links right. -/
theorem insertFirst (h : s.Linked) {anchor new : NodeId} (ha : s.Strict (.insertFirst anchor new)) :
    (s.step (.insertFirst anchor new)).Linked := by
  have hok : s.tree.edit (.insertFirst anchor new) = .ok (s.tree.insertFirst anchor new) := rfl
  have hout := h.sound.free (ha.once _ new hok rfl)
  have hold : ∀ old, s.tree.link? Node.firstChild anchor = some old → old < s.tree.size := by
    intro old hfirst
    rw [h.first] at hfirst
    exact h.sound.made anchor old (List.mem_append_left _ (List.mem_of_mem_head? hfirst))
  have hlinks := Tree.links_insertFirst (ha.made new (by simp [Edit.names])) hold
  rw [h.first] at hlinks
  have hne : ∀ id ∈ s.tree.children anchor, id ≠ new := fun id hid =>
    ne_of_mem_of_not_mem (List.mem_append_left _ hid) (hout anchor)
  refine h.of_row ha hok rfl (Tree.slots_insertFirst _ _ _) (by simp [Edit.relist])
    (fun other hother => Function.update_of_ne hother _ _) (fun id hid hid' => ?_) ?_
  · have hhead : ¬(s.tree.children anchor).head? = some id := fun hhead =>
      hid' (List.mem_of_mem_head? hhead)
    rw [hlinks, if_neg hid, if_neg hhead]
  · have hfirst := hlinks new
    rw [if_pos rfl] at hfirst
    simp only [Edit.relist, Function.update_self]
    refine ⟨⟨?_, ?_, ?_⟩, (h.children anchor).imp (fun id n hid hbeside => ?_) ?_⟩
    · rw [hfirst]
    · rw [hfirst]
    · rw [hfirst]
      exact .inl rfl
    · -- the old first child: it has the new one in front of it, and no longer knows its parent
      have hhead := hlinks id
      rw [if_neg (hne id (List.mem_of_mem_head? hid)), if_pos hid] at hhead
      refine ⟨?_, ?_, .inr ⟨?_, by simp⟩⟩ <;> rw [hhead]
      exact hbeside.next
    · intro p _ id hid n hbeside
      have hhead : ¬(s.tree.children anchor).head? = some id := by
        intro hhead
        have hnone := ((h.children anchor).head hhead).previous
        rw [hbeside.previous] at hnone
        cases hnone
      refine hbeside.of_eq ?_
      rw [hlinks, if_neg (hne id hid), if_neg hhead]

/-- What a child leads on to is the next child, and leads back. -/
theorem behind (h : s.Linked) {anchor owner id : NodeId} (hanchor : anchor ∈ s.tree.children owner)
    (hnext : (s.tree.links anchor).next = some id) : id ∈ s.tree.children owner ∧ id ≠ anchor ∧
      (s.tree.links id).previous = some anchor := by
  obtain ⟨before, after, hsplit⟩ := List.append_of_mem hanchor
  have hrow := h.children owner
  have hnodup := h.sound.nodup_children owner
  rw [hsplit] at hrow hnodup
  rw [hrow.neighbours.next] at hnext
  obtain ⟨rest, rfl⟩ := List.head?_eq_some_iff.1 hnext
  have hne : id ≠ anchor := by
    rintro rfl
    have hout := (List.nodup_cons.1 (List.nodup_middle.1 hnodup)).1
    exact hout (List.mem_append_right _ List.mem_cons_self)
  have hmiddle : before ++ anchor :: id :: rest = (before ++ [anchor]) ++ id :: rest := by simp
  rw [hmiddle] at hrow
  refine ⟨by simp [hsplit], hne, ?_⟩
  simpa using hrow.neighbours.previous

/-- Putting a node behind a child keeps all links right. -/
theorem insertAfter (h : s.Linked) {anchor new : NodeId} (ha : s.Strict (.insertAfter anchor new)) :
    (s.step (.insertAfter anchor new)).Linked := by
  have hok : s.tree.edit (.insertAfter anchor new) = .ok (s.tree.insertAfter anchor new) := rfl
  have hout := h.sound.free (ha.once _ new hok rfl)
  obtain ⟨owner, howner⟩ := h.chained anchor (ha.anchored anchor new rfl)
  have hparent : s.tree.parent? anchor = some owner :=
    (h.parent?_eq anchor).1 owner (List.mem_append_left _ howner)
  have hne : anchor ≠ new := ne_of_mem_of_not_mem (List.mem_append_left _ howner) (hout owner)
  have hlinks := Tree.links_insertAfter (ha.made anchor (by simp [Edit.names]))
    (ha.made new (by simp [Edit.names])) hne.symm fun old hnext =>
      ⟨h.sound.made owner old (List.mem_append_left _ (h.behind howner hnext).1),
        (h.behind howner hnext).2.1⟩
  refine h.of_row ha hok rfl (Tree.slots_insertAfter _ _ _) (mem_spliceAfter.2 (.inr ⟨rfl, howner⟩))
    (fun other hother => spliceAfter_of_not_mem (h.sound.not_mem_children howner hother))
    (fun id hid hid' => ?_) ?_
  · have hnext : ¬(s.tree.links anchor).next = some id := fun hnext =>
      hid' (h.behind howner hnext).1
    rw [hlinks, if_neg hid, if_neg (ne_of_mem_of_not_mem howner hid').symm, if_neg hnext]
  · refine (h.children owner).splice (h.sound.nodup_children owner)
      (fun hin => hout owner (List.mem_append_left _ hin)) (by simp)
      (fun p n hbeside => ⟨?_, ?_⟩) (fun p y n hy hy' hbefore hbeside => ?_)
      fun p id n hid hid' hp hbeside => ?_
    · -- the old sibling is followed by the new one
      have hat := hlinks anchor
      rw [if_neg hne, if_pos rfl] at hat
      refine ⟨?_, ?_, ?_⟩ <;> rw [hat]
      · exact hbeside.previous
      · exact hbeside.parent
    · -- the new one is told what walking back from the old one finds
      have hat := hlinks new
      rw [if_pos rfl, hparent] at hat
      refine ⟨?_, ?_, ?_⟩ <;> rw [hat]
      · exact hbeside.next
      · exact .inl rfl
    · -- what followed the old one has the new one in front of it
      have hat := hlinks y
      rw [if_neg hy, if_neg hy', if_pos hbefore.next] at hat
      refine ⟨?_, ?_, ?_⟩ <;> rw [hat]
      · exact hbeside.next
      · exact hbeside.parent.imp_right fun hnone => ⟨hnone.1, by simp⟩
    · have hnext : ¬(s.tree.links anchor).next = some id := by
        intro hnext
        rw [← hbeside.previous] at hp
        exact hp (h.behind howner hnext).2.2
      refine hbeside.of_eq ?_
      rw [hlinks, if_neg hid, if_neg hid', if_neg hnext]

/-- A node that is put into a slot was nowhere before, so it has no neighbours. -/
theorem slot (h : s.Linked) (ha : s.Strict e) (hok : s.tree.edit e = .ok tree)
    {owner new : NodeId} {c c' : Construct} {before after : List NodeId}
    (hplaced : e.placed? = some new) (hlists : e.relist s.tree.children = s.tree.children)
    (hstands : s.tree.construct? owner = some c) (hhad : c.slots = before ++ after)
    (hhas : c'.slots = before ++ new :: after) (htree : tree = s.tree.adopt owner c' new) :
    (s.step e).Linked := by
  have hout := h.sound.free (ha.once tree new hok hplaced)
  have hlinks := Tree.links_adopt (ha.made new (Edit.mem_names_of_placed? hplaced)) owner c'
  rw [← htree] at hlinks
  have hkept : ∀ id other, id ∈ s.tree.successors other → tree.links id = s.tree.links id := by
    intro id other hid
    rw [hlinks, if_neg (ne_of_mem_of_not_mem hid (hout other))]
  have hold : s.tree.slots owner = before ++ after := by
    rw [Tree.slots, hstands, Option.map_some, Option.getD_some, hhad]
  have hnew : ∀ other, tree.slots other
      = if other = owner then before ++ new :: after else s.tree.slots other := by
    intro other
    rw [htree, Tree.slots_adopt hstands, hhas]
  -- only the owner has one slot more, and only the new node gets other links
  refine h.of_links ha hok (fun other => ?_) (fun other id hid => ?_) fun id _ hid hfree => ?_
  · rw [hlists]
    exact h.row_of_eq fun id hid => hkept id other (List.mem_append_left _ hid)
  · by_cases heq : id = new
    · subst heq
      have hother : other = owner := by
        by_contra hother
        rw [hnew, if_neg hother] at hid
        exact hout other (List.mem_append_right _ hid)
      rw [hlinks, if_pos rfl, h.free id hout, hother]
    · have hid' : id ∈ s.tree.slots other := by
        rw [hnew] at hid
        split at hid
        · rename_i hother
          rw [hother, hold]
          simpa [heq] using hid
        · exact hid
      rw [hkept id other (List.mem_append_right _ hid')]
      exact h.slots other id hid'
  · have hne : id ≠ new := by
      rintro rfl
      refine hid owner ?_
      rw [hnew, if_pos rfl]
      simp
    rw [hlinks, if_neg hne]
    exact h.free id hfree

/-- A call that changes no links and no slots. -/
theorem quiet (h : s.Linked) (ha : s.Strict e) (hok : s.tree.edit e = .ok tree)
    (hlists : e.relist s.tree.children = s.tree.children) (hlinks : tree.links = s.tree.links)
    (hslots : tree.slots = s.tree.slots) : (s.step e).Linked := by
  refine h.of_links ha hok (fun owner => ?_) ?_ fun id _ _ hfree => ?_
  · rw [hlists]
    exact h.row_of_eq fun id _ => congrFun hlinks id
  · rw [hslots, hlinks]
    exact h.slots
  · rw [hlinks]
    exact h.free id hfree

/-- Every call that keeps to the rules leaves links that say where every node stands. -/
theorem step (h : s.Linked) (ha : s.Strict e) : (s.step e).Linked := by
  cases hok : s.tree.edit e with
  | error fault =>
    rw [Assembly.step, hok]
    exact h
  | ok tree =>
    cases Tree.edited hok with
    | allocate c line =>
      exact h.quiet ha hok rfl (Tree.links_allocate _ _ _)
        (Tree.slots_allocate _ (List.isEmpty_iff.1 ha.bare) line)
    | insertFirst anchor new => exact h.insertFirst ha
    | insertAfter anchor new => exact h.insertAfter ha
    | setRoot id => exact h.quiet ha hok rfl rfl rfl
    | slot places host apart stands _ had has =>
      rw [ha.single] at had
      have hlists : e.relist s.tree.children = s.tree.children := by
        cases e <;> first | rfl | cases apart
      exact h.slot ha hok places hlists stands had has rfl

theorem start : Assembly.start.Linked := by
  refine ⟨sound_start, fun _ => trivial, fun owner id hid => ?_, fun _ _ => rfl, fun id hid => ?_⟩
  · cases hid
  · cases hid

end Linked

/-- The rules for a list of calls can be checked. -/
theorem follows_strict {es : List Edit} :
    Follows Strict Assembly.start es ↔ checks strict Assembly.start es = true :=
  follows_iff (fun _ _ h => h.sound.strict_iff) (fun _ _ h ha => h.step ha) Linked.start

/-- Trees that calls have built by the rules have the right links. -/
theorem linked_run {es : List Edit} (h : Follows Strict start es) : (run es).Linked :=
  h.invariant (fun _ _ hs ha => hs.step ha) Linked.start

end Assembly

end Primer
