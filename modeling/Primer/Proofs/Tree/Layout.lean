import Primer.Proofs.Grammar.Reading

/-!
# Primer.Proofs.Tree.Layout — an accepted program is laid out in the order of its text.

Nodes are made before they are placed, and every operation on a tree changes links in the middle of
the array.  Here the operations are computed on the list of nodes, and an induction over the rules
of reading shows what comes out: a finished statement is the layout of a forest behind the nodes
that were there before (`LaidApart`), the statements of an open block are the layout of a forest
behind the node of the block (`Fills`), and the branches of a conditional are the layout of a forest
in its slots (`LaidInSlots`).  Main statement: `ReadsProgram.nodes_eq`.

The list of nodes is split at the node that a change is about, so a change of one node is a change
in the middle of a list that is written down.  `toList_insertFirst` and its companions do this for
each operation; the rest of the module is the induction, in which the lemmas `Fills.attached`,
`LaidInside.placed` and `LaidApart.followed` are the steps, one for a statement in a block, one for
a block that is closed, and one for a statement that others follow.
-/

namespace Primer

/-! ## Changes of one node among many -/

/-- A change of the member behind a known beginning. -/
theorem modify_length_append {α : Type} (before after : List α) (a : α) (f : α → α) :
    (before ++ a :: after).modify before.length f = before ++ f a :: after := by
  have h := List.modifyTailIdx_add (List.modifyHead f) 0 before (a :: after)
  simpa [List.modify] using h

namespace Tree

/-- The node that stands behind the given ones. -/
theorem node?_of_toList {t : Tree} {before after : List Node} {n : Node}
    (h : t.nodes.toList = before ++ n :: after) : t.node? before.length = some n := by
  rw [node?, ← Array.getElem?_toList, h]
  simp

/-- A change of one node, in the list of all of them. -/
theorem toList_modify {t : Tree} {before after : List Node} {n : Node}
    (h : t.nodes.toList = before ++ n :: after) (f : Node → Node) :
    (t.modify before.length f).nodes.toList = before ++ f n :: after := by
  rw [modify, Array.toList_modify, h, modify_length_append]

theorem toList_allocate (t : Tree) (c : Construct) (line : Nat) :
    (t.allocate c line).2.nodes.toList = t.nodes.toList ++ [.detached c line] := by
  simp [allocate]

theorem size_eq_length (t : Tree) : t.size = t.nodes.toList.length := by
  simp [size]

/-! ## Placing nodes -/

/-- Placing a node leaves the root alone. -/
theorem root_insertFirst (t : Tree) (anchor new : NodeId) :
    (t.insertFirst anchor new).root = t.root := by
  unfold insertFirst
  cases (t.node? anchor).bind (·.firstChild) <;> rfl

theorem root_insertAfter (t : Tree) (anchor new : NodeId) :
    (t.insertAfter anchor new).root = t.root := by
  unfold insertAfter
  cases (t.node? anchor).bind (·.next) <;> rfl

theorem root_attachBranch {t tree : Tree} {conditional branch : NodeId}
    (h : t.attachBranch conditional branch = .ok tree) : tree.root = t.root := by
  unfold attachBranch at h
  split at h <;> cases h <;> rfl

/-- A node that knows its parent answers it at once. -/
theorem parent?_of_node? {t : Tree} {id owner : Nat} {n : Node} (hn : t.node? id = some n)
    (hp : n.parent = some owner) : t.parent? id = some owner := by
  have hlt : id < t.size := (Array.getElem?_eq_some_iff.1 hn).1
  obtain ⟨bound, hb⟩ : ∃ bound, t.size = bound + 1 := ⟨t.size - 1, by omega⟩
  rw [parent?, hb, parentWithin, hn]
  simp only [hp]

/-- The first statement of a block, which stands right behind the node of the block, is put under
it. -/
theorem toList_insertFirst {t : Tree} {before after : List Node} {owner n : Node}
    (h : t.nodes.toList = before ++ owner :: n :: after) (hfirst : owner.firstChild = none) :
    (t.insertFirst before.length (before.length + 1)).nodes.toList
      = before ++ { owner with firstChild := some (before.length + 1) }
        :: { n with parent := some before.length, previous := none, next := none } :: after := by
  have hlength : (before ++ [owner]).length = before.length + 1 := by simp
  have hn : t.nodes.toList = (before ++ [owner]) ++ n :: after := by simpa using h
  have hlinked := toList_modify hn fun n =>
    { n with parent := some before.length, previous := none, next := none }
  rw [List.append_assoc, List.cons_append, List.nil_append, hlength] at hlinked
  unfold insertFirst
  simp only [node?_of_toList h, Option.bind_some, hfirst]
  exact toList_modify hlinked fun n => { n with firstChild := some (before.length + 1) }

/-- A later statement of a block is put behind the last one, which knows the block. -/
theorem toList_insertAfter {t : Tree} {before between after : List Node} {last n : Node}
    {owner : NodeId} (h : t.nodes.toList = before ++ last :: (between ++ n :: after))
    (hparent : last.parent = some owner) (hnext : last.next = none) :
    (t.insertAfter before.length (before.length + 1 + between.length)).nodes.toList
      = before ++ { last with next := some (before.length + 1 + between.length) }
        :: (between ++ { n with parent := some owner, previous := some before.length, next := none }
          :: after) := by
  have hlength : (before ++ last :: between).length = before.length + 1 + between.length := by
    simp
    omega
  have hn : t.nodes.toList = (before ++ last :: between) ++ n :: after := by simpa using h
  have hlinked := toList_modify hn fun n =>
    { n with parent := some owner, previous := some before.length, next := none }
  rw [List.append_assoc, List.cons_append, hlength] at hlinked
  unfold insertAfter
  simp only [parent?_of_node? (node?_of_toList h) hparent, node?_of_toList h, Option.bind_some,
    hnext]
  exact toList_modify hlinked fun n =>
    { n with next := some (before.length + 1 + between.length) }

/-- A branch that is attached stands in the slots of the conditional. -/
theorem attachBranch_ok {t tree : Tree} {conditional branch : NodeId} {c b : Construct}
    (hc : t.construct? conditional = some c) (hb : t.construct? branch = some b)
    (h : t.attachBranch conditional branch = .ok tree) :
    attachBranch.place t conditional branch (c.withBranch b branch) = tree := by
  unfold attachBranch at h
  rw [hc, hb] at h
  split at h
  · rename_i hb' hc'
    cases hb'
    cases hc'
    cases h
    rfl
  · rename_i hb' hc'
    cases hb'
    cases hc'
    cases h
    rfl
  · cases h

/-- A root that is set is the only thing that changes. -/
theorem setRoot_ok {t tree : Tree} {id : NodeId} (h : t.setRoot id = .ok tree) :
    tree = { t with root := some id } := by
  unfold setRoot at h
  split at h
  · cases h
  · cases h
    rfl

/-- The walk from the root starts with the root, so a unit there is found first. -/
theorem find?_isUnit {t : Tree} {id : Nat} {c : Construct} (hroot : t.root = some id)
    (hc : t.construct? id = some c) (hunit : c.isUnit = true) :
    t.find? Construct.isUnit = some id := by
  obtain ⟨n, hn, -⟩ := Option.map_eq_some_iff.1 hc
  have hlt : id < t.size := (Array.getElem?_eq_some_iff.1 hn).1
  obtain ⟨bound, hb⟩ : ∃ bound, t.size = bound + 1 := ⟨t.size - 1, by omega⟩
  rw [find?, reachable, hroot, hb]
  simp [visit, hc, hunit]

/-- The entry block that was just made is put into the slot of the unit. -/
theorem toList_setEntry {t tree : Tree} {between : List Node} {owner n : Node}
    {name scope : String} (h : t.nodes.toList = owner :: (between ++ [n]))
    (hroot : t.root = some 0) (howner : owner.construct = .unit name scope none)
    (hset : t.setEntry (between.length + 1) = .ok tree) :
    tree.nodes.toList
        = { owner with construct := .unit name scope (some (between.length + 1)) }
          :: (between ++ [{ n with parent := some 0 }]) ∧
      tree.root = some 0 := by
  have hat : t.nodes.toList = [] ++ owner :: (between ++ [n]) := h
  have hunit : t.construct? 0 = some (.unit name scope none) := by
    rw [← howner]
    exact congrArg (Option.map (·.construct)) (node?_of_toList hat)
  unfold setEntry at hset
  simp only [find?_isUnit hroot hunit rfl, hunit] at hset
  cases hset
  refine ⟨?_, hroot⟩
  let c := Construct.unit name scope (some (between.length + 1))
  have howned : (t.modify 0 fun n => { n with construct := c }).nodes.toList
      = ({ owner with construct := c } :: between) ++ [n] :=
    toList_modify hat fun n => { n with construct := c }
  exact toList_modify howned fun n => { n with parent := some 0 }

/-- A branch that was just made is put into the slots of its conditional. -/
theorem toList_attachBranch {t tree : Tree} {before between : List Node} {owner n : Node}
    (h : t.nodes.toList = before ++ owner :: (between ++ [n]))
    (hattach : t.attachBranch before.length (before.length + 1 + between.length) = .ok tree) :
    tree.nodes.toList
      = before ++ { owner with
          construct := owner.construct.withBranch n.construct
            (before.length + 1 + between.length) }
        :: (between ++ [{ n with parent := some before.length }]) := by
  have hlength : ∀ o : Node, (before ++ o :: between).length
      = before.length + 1 + between.length := by
    intro o
    simp
    omega
  have hn : t.nodes.toList = (before ++ owner :: between) ++ [n] := by simpa using h
  have howner : t.construct? before.length = some owner.construct := by
    simp [construct?, node?_of_toList h]
  have hbranch : t.construct? (before.length + 1 + between.length) = some n.construct := by
    rw [← hlength owner, construct?, node?_of_toList hn]
    rfl
  rw [← attachBranch_ok howner hbranch hattach]
  let c := owner.construct.withBranch n.construct (before.length + 1 + between.length)
  have howned : (t.modify before.length fun n => { n with construct := c }).nodes.toList
      = (before ++ { owner with construct := c } :: between) ++ [n] := by
    rw [toList_modify h]
    simp
  have hplaced := toList_modify howned fun n => { n with parent := some before.length }
  rw [hlength] at hplaced
  rw [attachBranch.place, hplaced]
  simp [c]

end Tree

namespace Grammar

theorem Draft.root_attached (d : Draft) (node : NodeId) :
    (d.attached node).tree.root = d.tree.root := by
  unfold attached
  split
  · rfl
  · dsimp only
    split
    · exact Tree.root_insertAfter _ _ _
    · exact Tree.root_insertFirst _ _ _

/-! ## A statement behind the statements of its block -/

/-- The innermost block of a draft is the node `owner` behind the nodes `before`, and `done` are its
statements so far. -/
structure Draft.Fills (d : Draft) (before : List Node) (outer : List OpenBlock) (owner : Node)
    (done : Forest) : Prop where
  blocks : ∃ scope, d.blocks
    = ⟨before.length, scope, (done.roots (before.length + 1)).reverse⟩ :: outer
  nodes : d.tree.nodes.toList
    = before ++ { owner with firstChild := done.first? (before.length + 1) }
      :: done.nodes (some before.length) (.chain none none) (before.length + 1)

/-- Behind the statements of an open block there is nothing. -/
theorem Draft.Fills.size_eq {d : Draft} {before : List Node} {outer : List OpenBlock} {owner : Node}
    {done : Forest} (h : d.Fills before outer owner done) :
    d.tree.size = before.length + 1 + done.size := by
  rw [Tree.size_eq_length, h.nodes]
  simp
  omega

/-- The first statement of a block is put under the block. -/
theorem Draft.Fills.attached_first {d d₁ : Draft} {before : List Node} {outer : List OpenBlock}
    {owner : Node} (h : d.Fills before outer owner .nil) {c : Construct} {line : Nat}
    {body slots : Forest} (hblocks : d₁.blocks = d.blocks)
    (hnodes : d₁.tree.nodes.toList = d.tree.nodes.toList
      ++ (Forest.cons c line body slots .nil).nodes none (.chain none none) d.tree.size) :
    (d₁.attached d.tree.size).Fills before outer owner (.cons c line body slots .nil) := by
  obtain ⟨scope, hscope⟩ := h.blocks
  rw [h.nodes, h.size_eq, Forest.nodes_single] at hnodes
  rw [h.size_eq]
  simp only [Forest.nodes, Forest.first?, Forest.size, Nat.add_zero, List.append_assoc,
    List.cons_append, List.nil_append] at hnodes ⊢
  have hplaced := Tree.toList_insertFirst hnodes rfl
  refine ⟨⟨scope, ?_⟩, ?_⟩
  · simp [Draft.attached, hblocks, hscope, Forest.roots]
  · simpa [Draft.attached, hblocks, hscope, Forest.roots, Forest.first?, Forest.nodes,
      Forest.Linkage.previous, Forest.Linkage.next] using hplaced

/-- Any other statement is put behind the last one of its block. -/
theorem Draft.Fills.attached_behind {d d₁ : Draft} {before : List Node} {outer : List OpenBlock}
    {owner : Node} {g : Forest} {c' : Construct} {line' : Nat} {body' slots' : Forest}
    (h : d.Fills before outer owner (g.append (.cons c' line' body' slots' .nil))) {c : Construct}
    {line : Nat} {body slots : Forest} (hblocks : d₁.blocks = d.blocks)
    (hnodes : d₁.tree.nodes.toList = d.tree.nodes.toList
      ++ (Forest.cons c line body slots .nil).nodes none (.chain none none) d.tree.size) :
    (d₁.attached d.tree.size).Fills before outer owner
      ((g.append (.cons c' line' body' slots' .nil)).append (.cons c line body slots .nil)) := by
  obtain ⟨scope, hscope⟩ := h.blocks
  rw [h.nodes, h.size_eq, Forest.nodes_single] at hnodes
  rw [h.size_eq]
  -- the last statement so far stands at `p`, and the new one at `q`
  obtain ⟨start, hstart⟩ : ∃ start, before.length + 1 = start := ⟨_, rfl⟩
  obtain ⟨p, hp⟩ : ∃ p, start + g.size = p := ⟨_, rfl⟩
  obtain ⟨q, hq⟩ : ∃ q, p + 1 + (body'.size + slots'.size) = q := ⟨_, rfl⟩
  have hsize : start + (g.append (.cons c' line' body' slots' .nil)).size = q := by
    simp only [Forest.size_append, Forest.size]
    omega
  have hfirst : (g.append (.cons c' line' body' slots' .nil)).first? start = some start := by
    cases g <;> rfl
  have hroots : (g.append (.cons c' line' body' slots' .nil)).roots start
      = g.roots start ++ [p] := by
    rw [Forest.roots_append, hp]
    rfl
  rw [hstart] at hscope hnodes ⊢
  rw [hsize] at hnodes ⊢
  rw [hroots] at hscope
  rw [hfirst, Forest.nodes_append, Forest.nodes_single] at hnodes
  let front := before ++ { owner with firstChild := some start }
    :: g.nodes (some before.length) (.chain none (some p)) start
  have hfront : front.length = p := by
    simp [front]
    omega
  let between := body'.nodes (some p) (.chain none none) (p + 1)
    ++ slots'.nodes (some p) .slots (p + 1 + body'.size)
  have hbetween : p + 1 + between.length = q := by simpa [between] using hq
  let last : Node :=
    { construct := c', line := line', parent := some before.length, previous := g.last? start,
      next := none, firstChild := body'.first? (p + 1) }
  let new : Node :=
    { construct := c, line, parent := none, previous := none, next := none,
      firstChild := body.first? (q + 1) }
  let under := body.nodes (some q) (.chain none none) (q + 1)
    ++ slots.nodes (some q) .slots (q + 1 + body.size)
  have hlist : d₁.tree.nodes.toList = front ++ last :: (between ++ new :: under) := by
    rw [hnodes, hp]
    simp [front, last, between, new, under, Forest.first?, Forest.Linkage.previous,
      Forest.Linkage.next]
  have hplaced := Tree.toList_insertAfter hlist rfl rfl
  rw [hfront, hbetween] at hplaced
  refine ⟨⟨scope, ?_⟩, ?_⟩
  · rw [hstart, Forest.roots_append, hroots, hsize]
    simp [Draft.attached, hblocks, hscope, Forest.roots]
  · rw [hstart, Forest.first?_append, hfirst, Forest.nodes_append, Forest.nodes_append, hsize, hp]
    have hlast := g.last?_append start (.cons c' line' body' slots' .nil)
    rw [hp] at hlast
    simp [Draft.attached, hblocks, hscope, hplaced, hlast, Forest.nodes_single, front, last,
      between, new, under, Forest.first?, Forest.last?, Forest.Linkage.previous,
      Forest.Linkage.next]

/-- Attaching a finished statement adds it to the statements of the block. -/
theorem Draft.Fills.attached {d d₁ : Draft} {before : List Node} {outer : List OpenBlock}
    {owner : Node} {done : Forest} (h : d.Fills before outer owner done) {c : Construct}
    {line : Nat} {body slots : Forest} (hblocks : d₁.blocks = d.blocks)
    (hnodes : d₁.tree.nodes.toList = d.tree.nodes.toList
      ++ (Forest.cons c line body slots .nil).nodes none (.chain none none) d.tree.size) :
    (d₁.attached d.tree.size).Fills before outer owner
      (done.append (.cons c line body slots .nil)) := by
  by_cases hdone : done = .nil
  · subst hdone
    exact h.attached_first hblocks hnodes
  · obtain ⟨g, c', line', body', slots', rfl⟩ := Forest.exists_append_cons hdone
    exact h.attached_behind hblocks hnodes

/-! ## What reading lays out -/

/-- A finished statement is the layout of a forest behind the nodes that were there before. -/
structure LaidApart (d : Draft) (f : Forest) (d' : Draft) : Prop where
  single : ∃ c line body slots, f = .cons c line body slots .nil
  linked : f.Linked d.tree.size
  nodes : d'.tree.nodes.toList = d.tree.nodes.toList ++ f.nodes none (.chain none none) d.tree.size

/-- The statements of an open block go on with a forest. -/
def LaidInside (d : Draft) (f : Forest) (d' : Draft) : Prop :=
  ∀ before outer owner done, d.Fills before outer owner done →
    d'.Fills before outer owner (done.append f) ∧ f.Linked d.tree.size

/-- The branches of a conditional that has no last one yet go on with a forest. -/
def LaidInSlots (d : Draft) (f : Forest) (d' : Draft) (id : NodeId) : Prop :=
  ∀ before owner rest scope condition elseIfs,
    d.tree.nodes.toList = before ++ owner :: rest → id = before.length →
    owner.construct = .conditional scope condition elseIfs none →
    d'.tree.nodes.toList
        = before ++ { owner with construct := f.fill owner.construct d.tree.size }
          :: (rest ++ f.nodes (some id) .slots d.tree.size) ∧
      f.Linked d.tree.size ∧
      (f.fill owner.construct d.tree.size).slots = elseIfs ++ f.roots d.tree.size

/-- What reading lays out, by what is read. -/
def Laid (d : Draft) (f : Forest) (d' : Draft) : Role → Prop
  | .declaration | .statement | .routine => LaidApart d f d'
  | .body | .items => LaidInside d f d'
  | .branches id => LaidInSlots d f d' id

/-- The body of a node that was made last. -/
theorem LaidInside.opened {d d' : Draft} {f : Forest} {scope : String} {before : List Node}
    {owner : Node} (h : LaidInside (d.opened before.length scope) f d')
    (hnodes : d.tree.nodes.toList = before ++ [owner]) (hfirst : owner.firstChild = none) :
    d'.tree.nodes.toList
        = before ++ { owner with firstChild := f.first? (before.length + 1) }
          :: f.nodes (some before.length) (.chain none none) (before.length + 1) ∧
      f.Linked (before.length + 1) := by
  have hfills : (d.opened before.length scope).Fills before d.blocks owner .nil := by
    refine ⟨⟨scope, rfl⟩, ?_⟩
    simp [Draft.opened, hnodes, Forest.first?, Forest.nodes, ← hfirst]
  obtain ⟨hbody, hlinked⟩ := h _ _ _ _ hfills
  have hsize : (d.opened before.length scope).tree.size = before.length + 1 := by
    simp [Draft.opened, Tree.size_eq_length, hnodes]
  exact ⟨hbody.nodes, hsize ▸ hlinked⟩

/-- The body of a construct that was just made. -/
theorem LaidInside.entered {d d₁ d₂ : Draft} {c : Construct} {line : Nat} {scope : String}
    {body : Forest} (h : LaidInside (d₁.entered c line scope) body d₂) (htree : d₁.tree = d.tree) :
    d₂.tree.nodes.toList
        = d.tree.nodes.toList ++ { Node.detached c line with
            firstChild := body.first? (d.tree.size + 1) }
          :: body.nodes (some d.tree.size) (.chain none none) (d.tree.size + 1) ∧
      body.Linked (d.tree.size + 1) := by
  rw [Draft.entered, htree, Tree.size_eq_length] at h
  rw [Tree.size_eq_length]
  refine h.opened ?_ rfl
  rw [Draft.allocated, Tree.toList_allocate, htree]

/-- A statement without a body is one node. -/
theorem LaidApart.leaf {d d₁ d₂ : Draft} {c : Construct} {line : Nat} (htree : d₁.tree = d.tree)
    (hnew : d₂.tree = (d₁.tree.allocate c line).2) (hslots : c.slots = []) :
    LaidApart d (.leaf c line) d₂ where
  single := ⟨c, line, .nil, .nil, rfl⟩
  linked := ⟨hslots, trivial, trivial, trivial⟩
  nodes := by
    rw [hnew, Tree.toList_allocate, htree, Forest.leaf, Forest.nodes_single]
    rfl

/-- A statement with a body is its node and the layout of the body. -/
theorem LaidApart.block {d d₁ d₂ d₃ : Draft} {c : Construct} {line : Nat} {scope : String}
    {body : Forest} (h : LaidInside (d₁.entered c line scope) body d₂) (htree : d₁.tree = d.tree)
    (hslots : c.slots = []) (hlast : d₃.tree = d₂.tree) :
    LaidApart d (.block c line body) d₃ where
  single := ⟨c, line, body, .nil, rfl⟩
  linked := ⟨hslots, (h.entered htree).2, trivial, trivial⟩
  nodes := by
    rw [hlast, (h.entered htree).1, Forest.block, Forest.nodes_single]
    simp [Forest.nodes, Node.detached, Forest.Linkage.previous, Forest.Linkage.next]

/-- A branch was put into the slots of its conditional, and its body was read. -/
theorem LaidInside.placed {d d₁ d₂ : Draft} {tree : Tree} {branch : Construct} {line : Nat}
    {scope : String} {body : Forest} {before rest : List Node} {owner : Node}
    (h : LaidInside ((d₁.counted.planted tree).opened d₁.tree.size scope) body d₂)
    (htree : d₁.tree = d.tree) (hnodes : d.tree.nodes.toList = before ++ owner :: rest)
    (hplaced : (d₁.tree.allocate branch line).2.attachBranch before.length d₁.tree.size
      = .ok tree) :
    d₂.tree.nodes.toList
        = before ++ { owner with construct := owner.construct.withBranch branch d.tree.size }
          :: (rest ++ { Node.detached branch line with
              parent := some before.length, firstChild := body.first? (d.tree.size + 1) }
            :: body.nodes (some d.tree.size) (.chain none none) (d.tree.size + 1)) ∧
      body.Linked (d.tree.size + 1) := by
  have hsize : d.tree.size = before.length + 1 + rest.length := by
    rw [Tree.size_eq_length, hnodes]
    simp
    omega
  rw [htree] at h hplaced
  have hmade : (d.tree.allocate branch line).2.nodes.toList
      = before ++ owner :: (rest ++ [.detached branch line]) := by
    rw [Tree.toList_allocate, hnodes]
    simp
  rw [hsize] at h hplaced ⊢
  have htree' := Tree.toList_attachBranch hmade hplaced
  -- Placing a branch changes the slots of the owner and the parent of the branch, no other node.
  let owner' : Node :=
    { owner with
      construct := owner.construct.withBranch branch (before.length + 1 + rest.length) }
  have hlength : (before ++ owner' :: rest).length = before.length + 1 + rest.length := by
    simp
    omega
  have howned : (d₁.counted.planted tree).tree.nodes.toList
      = (before ++ owner' :: rest)
        ++ [{ Node.detached branch line with parent := some before.length }] := by
    rw [List.append_assoc]
    exact htree'
  rw [← hlength] at h
  have hbody := h.opened howned rfl
  rw [hlength] at hbody
  simpa [owner'] using hbody

/-- A finished statement is put behind those of its block, and the block goes on from there. -/
theorem LaidApart.followed {d d₁ d₂ : Draft} {f g : Forest} (h : LaidApart d f d₁)
    (hblocks : d₁.blocks = d.blocks) (hmore : LaidInside (d₁.attached d.tree.size) g d₂) :
    LaidInside d (f.append g) d₂ := by
  obtain ⟨⟨c, line, body, slots, rfl⟩, hlinked, hnodes⟩ := h
  intro before outer owner done hfills
  have hattached := hfills.attached hblocks hnodes
  obtain ⟨hfills', hlinked'⟩ := hmore _ _ _ _ hattached
  rw [Forest.append_assoc] at hfills'
  refine ⟨hfills', (Forest.linked_append _ _ _).2 ⟨hlinked, ?_⟩⟩
  rw [hattached.size_eq, Forest.size_append, ← Nat.add_assoc, ← hfills.size_eq] at hlinked'
  exact hlinked'

/-- What the rules of reading lay out, for each of the roles that a reading may have. -/
theorem Reads.laid {role : Role} {d d' : Draft} {f : Forest} (h : Reads role d f d') :
    Laid d f d' role := by
  induction h with
  | declaration taken written sound id_eq new => exact .leaf taken.tree rfl rfl
  | simple taken kind sound => exact .leaf taken.tree rfl kind.slots_eq
  | loop taken sound scope_eq inside rest ih => exact .block ih taken.tree rfl rest.tree
  | @conditional d d₁ d₂ d₃ d₄ line scope condition body slots taken _ _ _ _ rest ihb ihs =>
    obtain ⟨hnodes, hbody⟩ := LaidInside.entered ihb taken.tree
    have hsize : d₂.tree.size = d.tree.size + 1 + body.size := by
      rw [Tree.size_eq_length, Tree.size_eq_length, hnodes]
      simp
      omega
    have hid : d₁.tree.size = d.tree.nodes.toList.length := by
      rw [taken.tree, Tree.size_eq_length]
    -- the conditional was made without branches, and reading them fills its slots
    obtain ⟨hnodes', hslots, hfill⟩ := ihs _ _ _ scope condition [] hnodes hid rfl
    rw [show d₂.closed.tree.size = d.tree.size + 1 + body.size from hsize] at hnodes' hslots hfill
    rw [hsize]
    refine ⟨⟨_, line, body, slots, rfl⟩, ⟨hfill, hbody, hslots, trivial⟩, ?_⟩
    rw [rest.tree, hnodes', Forest.nodes_single, taken.tree]
    rfl
  | @elseIf d d₁ d₂ d₃ conditional line scope condition tree body slots taken _ _ placed _ _ ihb
      ihs =>
    rintro before owner rest scope' condition' elseIfs hnodes rfl howner
    obtain ⟨hbody, hlinked⟩ := LaidInside.placed ihb taken.tree hnodes placed
    have hsize : d₂.tree.size = d.tree.size + 1 + body.size := by
      rw [Tree.size_eq_length, Tree.size_eq_length, hbody, hnodes]
      simp
      omega
    -- this branch is in the slots of the conditional before the next one is read
    have hwith : owner.construct.withBranch (.elseIf scope condition) d.tree.size
        = .conditional scope' condition' (elseIfs ++ [d.tree.size]) none := by
      rw [howner]
      rfl
    obtain ⟨hnodes', hslots, hfill⟩ := ihs _ _ _ scope' condition' _ hbody rfl hwith
    rw [show d₂.closed.tree.size = d.tree.size + 1 + body.size from hsize] at hnodes' hslots hfill
    refine ⟨?_, ⟨rfl, hlinked, trivial, hslots⟩, ?_⟩
    · rw [hnodes']
      simp [Forest.nodes, Forest.fill, Forest.size, Node.detached, Forest.first?,
        Forest.Linkage.previous, Forest.Linkage.next, Forest.Linkage.after]
    · simpa [Forest.fill, Forest.roots, Forest.size] using hfill
  | @otherwise d d₁ d₂ conditional line scope tree body taken _ placed _ ih =>
    rintro before owner rest scope' condition' elseIfs hnodes rfl howner
    obtain ⟨hbody, hlinked⟩ := LaidInside.placed ih taken.tree hnodes placed
    refine ⟨?_, ⟨rfl, hlinked, trivial, trivial⟩, ?_⟩
    · rw [show d₂.closed.tree = d₂.tree from rfl, hbody]
      simp [Forest.block, Forest.nodes, Forest.fill, Node.detached, Forest.Linkage.previous,
        Forest.Linkage.next]
    · rw [howner]
      rfl
  | routine taken outermost written distinct parameters scope_eq inside rest defined ih =>
    exact .block ih taken.tree rfl rest.tree
  | @done role d list =>
    cases role with
    | body | items =>
      intro before outer owner done hfills
      exact ⟨by rwa [Forest.append_nil], trivial⟩
    | branches id =>
      intro before owner rest scope condition elseIfs hnodes hid howner
      refine ⟨?_, trivial, ?_⟩
      · simpa [Forest.fill, Forest.nodes] using hnodes
      · simp [Forest.fill, Forest.roots, howner, Construct.slots]
    | declaration | statement | routine => exact list.elim
  | @item list role d d₁ d₂ f g admitted first more ihf ihm =>
    have hlaid : LaidApart d f d₁ := by
      cases list <;> cases role <;> first | exact ihf | exact admitted.elim
    have hblocks := first.sameBlocks.all admitted.isOpen.2
    have hinside : LaidInside (d₁.attached d.tree.size) g d₂ := by
      cases list <;> first | exact ihm | exact admitted.isOpen.1.elim
    have hwhole := hlaid.followed hblocks hinside
    cases list <;> first | exact hwhole | exact admitted.isOpen.1.elim

/-! ## The root -/

theorem Draft.Takes.root_eq {d d' : Draft} {line : Nat} {ns : List String}
    (h : d.Takes line ns d') :
    d'.tree.root = d.tree.root := by
  rw [h.tree]

/-- Reading statements leaves the root alone. -/
theorem Reads.root_eq {role : Role} {d d' : Draft} {f : Forest} (h : Reads role d f d') :
    d'.tree.root = d.tree.root := by
  induction h with
  | declaration taken => exact taken.root_eq
  | simple taken => exact taken.root_eq
  | loop taken _ _ _ rest ih =>
    rw [rest.tree]
    exact ih.trans taken.root_eq
  | conditional taken _ _ _ _ rest ihb ihs =>
    rw [rest.tree]
    exact ihs.trans (ihb.trans taken.root_eq)
  | elseIf taken _ _ placed _ _ ihb ihs =>
    exact ihs.trans (ihb.trans ((Tree.root_attachBranch placed).trans taken.root_eq))
  | otherwise taken _ placed _ ih =>
    exact ih.trans ((Tree.root_attachBranch placed).trans taken.root_eq)
  | routine taken _ _ _ _ _ _ rest _ ih =>
    exact (congrArg Tree.root rest.tree).trans (ih.trans taken.root_eq)
  | done _ => rfl
  | item _ _ _ ihf ihm => exact ihm.trans ((Draft.root_attached _ _).trans ihf)

/-- The nodes of an accepted program are the layout of the forest that it was read as, from the
first position on, and the unit is its root. -/
theorem ReadsProgram.nodes_eq {tokens : List Lexeme} {f : Forest} {p : Program}
    (h : ReadsProgram tokens f p) :
    p.tree.nodes.toList = f.nodes none (.chain none none) 0 ∧ f.Linked 0 ∧ p.root = 0 ∧
      p.tree.root = some 0 := by
  cases h with
  | @intro d d₁ d₂ d₃ _ line entryLine name scope tree tree' items body taken written placed inside
      begun scope_eq entryPlaced entered =>
  have hempty : d.tree = .empty := taken.tree
  rw [hempty] at placed inside ⊢
  obtain rfl := Tree.setRoot_ok placed
  -- the unit is made at the first position and its items behind it
  let unit := Node.detached (.unit name name none) line
  have hinside : LaidInside _ items d₁ := inside.laid
  have hunit : (d.planted { (Tree.empty.allocate unit.construct line).2 with
      root := some Tree.empty.size }).tree.nodes.toList = [] ++ [unit] := rfl
  obtain ⟨hitems, hlinked⟩ := hinside.opened hunit rfl
  have hroot : d₂.tree.root = some 0 := by
    rw [begun.tree, inside.root_eq]
    rfl
  -- the entry block follows them, and then the unit is told
  let between := items.nodes (some 0) (.chain none none) 1
  let entry := Node.detached (.entry scope) entryLine
  have hmade : (d₂.tree.allocate entry.construct entryLine).2.nodes.toList
      = { unit with firstChild := items.first? 1 } :: (between ++ [entry]) := by
    rw [Tree.toList_allocate, begun.tree, hitems]
    rfl
  have hsize : d₂.tree.size = between.length + 1 := by
    rw [begun.tree, Tree.size_eq_length, hitems]
    rfl
  rw [hsize] at entered entryPlaced ⊢
  obtain ⟨hplaced, hroot'⟩ := Tree.toList_setEntry hmade hroot rfl entryPlaced
  let unit' : Node :=
    { unit with
      construct := .unit name name (some (between.length + 1)), firstChild := items.first? 1 }
  have hentry : (d₂.planted tree').tree.nodes.toList
      = (unit' :: between) ++ [{ entry with parent := some 0 }] := hplaced
  have hentered : LaidInside _ body d₃ := entered.laid
  obtain ⟨hbody, hlinked'⟩ := hentered.opened hentry rfl
  have hlength : between.length + 1 = 0 + 1 + items.size := by
    rw [Forest.length_nodes]
    omega
  rw [List.length_cons, hlength] at hbody hlinked'
  rw [hlength]
  refine ⟨?_, ⟨rfl, hlinked, ⟨rfl, hlinked', trivial, trivial⟩, trivial⟩, rfl, ?_⟩
  · rw [hbody, Forest.nodes_single, Forest.block, Forest.nodes_single]
    simp [unit', unit, entry, between, Node.detached, Forest.nodes, Forest.Linkage.previous,
      Forest.Linkage.next, Nat.add_comm items.size 1]
  · rw [entered.root_eq]
    exact hroot'

end Grammar

end Primer
