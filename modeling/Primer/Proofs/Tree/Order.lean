import Primer.Proofs.Grammar.Readers
import Primer.Proofs.Tree.Layout

/-!
# Primer.Proofs.Tree.Order — a finished tree lists its nodes in the order of the text.

The nodes of an accepted program are the layout of a forest (`ReadsProgram.nodes_eq`), so everything
about its links is a statement about layouts, by induction on forests.  The walks of a tree are
bounded by the number of its nodes; on a layout no bound is ever reached.

`Tree.Lays` and `Tree.Stands` say that a forest, or one construct with all that belongs to it, is
laid out in a tree from a position on.  For every walk of a tree there is a lemma that says what it
does on a layout: following siblings gives the roots, the walk downwards gives the positions one
after the other, and walking back finds the owner.  That the lines do not decrease is said of the
tokens, which the nodes are made from in order (`Spans`).

Main statement: `Program.ofTokens_wellFormed`.
-/

namespace Primer

theorem Except.exists_eq_ok {ε α : Type} {x : Except ε α} (h : x.isOk = true) :
    ∃ a, x = .ok a := by
  cases x with
  | error e => cases h
  | ok a => exact ⟨a, rfl⟩

/-- The positions of a layout: that of the first construct, and then those of its parts. -/
theorem Forest.range'_size_cons (start : Nat) (c : Construct) (line : Nat)
    (body slots rest : Forest) :
    List.range' start (cons c line body slots rest).size
      = start :: (List.range' (start + 1) body.size
        ++ (List.range' (start + 1 + body.size) slots.size
        ++ List.range' (start + 1 + body.size + slots.size) rest.size)) := by
  rw [List.range'_append_1, List.range'_append_1, ← List.range'_succ, size]
  congr 1
  omega

namespace Tree

/-! ## Forests in a tree -/

/-- The tree has the nodes of this forest from a position on. -/
structure Lays (t : Tree) (owner : Option NodeId) (linkage : Forest.Linkage) (start : Nat)
    (f : Forest) : Prop where
  shows : t.Shows start (f.nodes owner linkage start)
  linked : f.Linked start

/-- A construct stands at a position, and what is under it right behind. -/
structure Stands (t : Tree) (id : Nat) (c : Construct) (line : Nat) (body slots : Forest) :
    Prop where
  node : ∃ n, t.node? id = some n ∧ n.construct = c ∧ n.line = line ∧
    n.firstChild = body.first? (id + 1)
  inBody : t.Lays (some id) (.chain none none) (id + 1) body
  inSlots : t.Lays (some id) .slots (id + 1 + body.size) slots
  slots_eq : c.slots = slots.roots (id + 1 + body.size)

namespace Lays

variable {t : Tree} {owner : Option NodeId} {linkage : Forest.Linkage} {start : Nat}
  {c : Construct} {line : Nat} {body slots rest : Forest}

/-- The node at the front of a layout. -/
theorem node (h : t.Lays owner linkage start (.cons c line body slots rest)) :
    t.node? start = some
      { construct := c, line, parent := owner, previous := linkage.previous,
        next := linkage.next (rest.first? (start + 1 + body.size + slots.size)),
        firstChild := body.first? (start + 1) } :=
  (shows_cons.1 h.shows).1

/-- The parts of a layout, one behind the other. -/
theorem parts (h : t.Lays owner linkage start (.cons c line body slots rest)) :
    t.Stands start c line body slots ∧
      t.Lays owner (linkage.after start) (start + 1 + body.size + slots.size) rest := by
  have hunder := (shows_cons.1 h.shows).2
  rw [shows_append, shows_append, Forest.length_nodes, Forest.length_nodes] at hunder
  obtain ⟨hbody, hslots, hrest⟩ := hunder
  obtain ⟨heq, hbody', hslots', hrest'⟩ := h.linked
  exact ⟨⟨⟨_, h.node, rfl, rfl, rfl⟩, ⟨hbody, hbody'⟩, ⟨hslots, hslots'⟩, heq⟩, ⟨hrest, hrest'⟩⟩

/-- At every position of a layout a construct stands. -/
theorem exists_stands {f : Forest} (h : t.Lays owner linkage start f) {id : Nat}
    (hge : start ≤ id) (hlt : id < start + f.size) :
    ∃ c line body slots, t.Stands id c line body slots := by
  induction f generalizing owner linkage start with
  | nil =>
    rw [Forest.size] at hlt
    omega
  | cons c line body slots rest ihb ihs ihr =>
    obtain ⟨hstands, hrest⟩ := h.parts
    rw [Forest.size] at hlt
    by_cases hid : id = start
    · subst hid
      exact ⟨_, _, _, _, hstands⟩
    by_cases hb : id < start + 1 + body.size
    · exact ihb hstands.inBody (by omega) hb
    by_cases hs : id < start + 1 + body.size + slots.size
    · exact ihs hstands.inSlots (by omega) hs
    · exact ihr hrest (by omega) (by omega)

/-- There are at least as many nodes as a layout has. -/
theorem size_le {f : Forest} (h : t.Lays owner linkage start f) : f.size ≤ t.size := by
  by_cases hpos : f.size = 0
  · omega
  · obtain ⟨_, _, _, _, ⟨⟨n, hn, -⟩, -, -, -⟩⟩ :=
      h.exists_stands (show start ≤ start + (f.size - 1) by omega) (by omega)
    have hlt : start + (f.size - 1) < t.size := (Array.getElem?_eq_some_iff.1 hn).1
    omega

end Lays

/-- A tree whose nodes are the layout of a forest. -/
theorem lays_of_toList {t : Tree} {f : Forest} {owner : Option NodeId} {linkage : Forest.Linkage}
    (hnodes : t.nodes.toList = f.nodes owner linkage 0) (hlinked : f.Linked 0) :
    t.Lays owner linkage 0 f := by
  have hat : t.nodes.toList = [] ++ (f.nodes owner linkage 0 ++ []) := by
    rw [hnodes, List.append_nil, List.nil_append]
  exact ⟨shows_of_toList hat, hlinked⟩

theorem lt_size_of_construct? {t : Tree} {id : NodeId} {c : Construct}
    (h : t.construct? id = some c) : id < t.size := by
  obtain ⟨n, hn, -⟩ := Option.map_eq_some_iff.1 h
  exact (Array.getElem?_eq_some_iff.1 hn).1

/-! ## Chains of siblings -/

/-- These nodes are linked to each other in both directions, in this order; the first is `first?`
and has `previous` in front of it, and the last has nothing behind it. -/
def DoublyLinked (t : Tree) (previous first? : Option NodeId) : List NodeId → Prop
  | [] => first? = none
  | id :: rest =>
    first? = some id ∧ ∃ n, t.node? id = some n ∧ n.previous = previous ∧
      t.DoublyLinked (some id) n.next rest

/-- The roots of a layout are linked with each other in both directions. -/
theorem Lays.doublyLinked {t : Tree} {owner previous : Option NodeId} {start : Nat} {f : Forest}
    (h : t.Lays owner (.chain previous none) start f) :
    t.DoublyLinked previous (f.first? start) (f.roots start) := by
  induction f generalizing previous start with
  | nil => rfl
  | cons c line body slots rest _ _ ih =>
    refine ⟨rfl, _, h.node, rfl, ?_⟩
    have hrest := ih h.parts.2
    simpa [Forest.Linkage.next] using hrest

theorem chain_none (t : Tree) (bound : Nat) : t.chain bound none = [] := by
  cases bound <;> rfl

/-- Following the links of a doubly linked chain lists it. -/
theorem DoublyLinked.chain_eq {t : Tree} {previous first? : Option NodeId} {ids : List NodeId}
    (h : t.DoublyLinked previous first? ids) {bound : Nat} (hbound : ids.length ≤ bound) :
    t.chain bound first? = ids := by
  induction ids generalizing previous first? bound with
  | nil =>
    obtain rfl : first? = none := h
    exact t.chain_none bound
  | cons id rest ih =>
    obtain ⟨rfl, n, hn, -, hrest⟩ := h
    -- the bound is not used up before the last of the chain
    obtain ⟨more, rfl⟩ : ∃ more, bound = more + 1 := ⟨bound - 1, by simp at hbound; omega⟩
    rw [chain, hn, Option.bind_some, ih hrest (by simpa using hbound)]

namespace Stands

variable {t : Tree} {id : Nat} {c : Construct} {line : Nat} {body slots : Forest}

/-- The construct at the front of a layout. -/
theorem construct?_eq (h : t.Stands id c line body slots) : t.construct? id = some c := by
  obtain ⟨n, hn, rfl, -⟩ := h.node
  simp [construct?, hn]

/-- The children are the outermost constructs of the body. -/
theorem children_eq (h : t.Stands id c line body slots) : t.children id = body.roots (id + 1) := by
  obtain ⟨n, hn, -, -, hfirst⟩ := h.node
  rw [children, hn, Option.bind_some, hfirst]
  refine h.inBody.doublyLinked.chain_eq (Nat.le_trans ?_ h.inBody.size_le)
  exact Forest.length_roots_le _ _

/-- Right below a node are the roots of its body and those of its slots. -/
theorem successors_eq (h : t.Stands id c line body slots) :
    t.successors id = body.roots (id + 1) ++ slots.roots (id + 1 + body.size) := by
  rw [successors, h.children_eq, h.construct?_eq, ← h.slots_eq]
  rfl

end Stands

/-! ## The walk through a layout -/

/-- A walk with enough steps left lists the positions of a layout and goes on with what waits. -/
theorem Lays.visit_eq {t : Tree} {owner : Option NodeId} {linkage : Forest.Linkage} {start : Nat}
    {f : Forest} (h : t.Lays owner linkage start f) {bound : Nat} (hbound : f.size ≤ bound)
    (waiting : List NodeId) :
    t.visit bound (f.roots start ++ waiting)
      = List.range' start f.size ++ t.visit (bound - f.size) waiting := by
  induction f generalizing owner linkage start bound waiting with
  | nil => rfl
  | cons c line body slots rest ihb ihs ihr =>
    obtain ⟨hstands, hrest⟩ := h.parts
    rw [Forest.size] at hbound
    obtain ⟨more, rfl⟩ : ∃ more, bound = more + 1 := ⟨bound - 1, by omega⟩
    -- the walk goes into the body, then into the slots, and then on to what follows
    rw [Forest.roots, List.cons_append, visit, hstands.successors_eq, List.append_assoc,
      ihb hstands.inBody (by omega), ihs hstands.inSlots (by omega), ihr hrest (by omega),
      Forest.range'_size_cons]
    have hleft : more - body.size - slots.size - rest.size
        = more + 1 - (1 + body.size + slots.size + rest.size) := by omega
    simp only [hleft, Forest.size, List.cons_append, List.append_assoc]

/-- A forest that is laid out from the first position on is walked position by position. -/
theorem Lays.reachable_eq {t : Tree} {f : Forest} {linkage : Forest.Linkage}
    (h : t.Lays none linkage 0 f) (hsize : f.size = t.size) (hroots : f.roots 0 = t.root.toList) :
    t.reachable = List.range t.size := by
  have hvisit := h.visit_eq (Nat.le_of_eq hsize) []
  rw [List.append_nil, hroots, hsize, Nat.sub_self] at hvisit
  rw [reachable, hvisit, List.range_eq_range']
  simp [visit]

/-! ## Owners -/

/-- Every position of a layout but those of the outermost constructs is owned once from within. -/
theorem Lays.perm_successors {t : Tree} {owner : Option NodeId} {linkage : Forest.Linkage}
    {start : Nat} {f : Forest} (h : t.Lays owner linkage start f) :
    ((List.range' start f.size).flatMap t.successors ++ f.roots start).Perm
      (List.range' start f.size) := by
  induction f generalizing owner linkage start with
  | nil => exact .nil
  | cons c line body slots rest ihb ihs ihr =>
    obtain ⟨hstands, hrest⟩ := h.parts
    rw [Forest.range'_size_cons, Forest.roots, List.flatMap_cons, List.flatMap_append,
      List.flatMap_append, hstands.successors_eq]
    -- each position is counted on both sides
    refine List.perm_iff_count.2 fun id => ?_
    have hb := (ihb hstands.inBody).count_eq id
    have hs := (ihs hstands.inSlots).count_eq id
    have hr := (ihr hrest).count_eq id
    simp only [List.count_append, List.count_cons] at hb hs hr ⊢
    omega

/-- The outermost constructs of a layout know whose they are. -/
theorem Lays.parent?_of_mem_roots {t : Tree} {owner : NodeId} {linkage : Forest.Linkage}
    {start : Nat} {f : Forest} (h : t.Lays (some owner) linkage start f) {id : Nat}
    (hid : id ∈ f.roots start) : t.parent? id = some owner := by
  induction f generalizing linkage start with
  | nil => cases hid
  | cons c line body slots rest _ _ ih =>
    rw [Forest.roots, List.mem_cons] at hid
    rcases hid with rfl | hid
    · exact parent?_of_node? h.node rfl
    · exact ih h.parts.2 hid

/-- The constructs in slots have no siblings. -/
theorem Lays.alone_of_mem_roots {t : Tree} {owner : Option NodeId} {start : Nat} {f : Forest}
    (h : t.Lays owner .slots start f) {id : Nat} (hid : id ∈ f.roots start) :
    ∃ n, t.node? id = some n ∧ n.previous = none ∧ n.next = none := by
  induction f generalizing start with
  | nil => cases hid
  | cons c line body slots rest _ _ ih =>
    rw [Forest.roots, List.mem_cons] at hid
    rcases hid with rfl | hid
    · exact ⟨_, h.node, rfl, rfl⟩
    · exact ih h.parts.2 hid

/-! ## Well-formed trees -/

/-- The nodes of a tree are in the order in which the walk from its root meets them, and their links
agree with each other. -/
structure WellFormed (t : Tree) : Prop where
  /-- The walk meets every node, and the nodes in the order in which they were made. -/
  reachable : t.reachable = List.range t.size
  root : t.root = some 0
  /-- The root is the only program unit. -/
  unit : ∀ id, (∃ c, t.construct? id = some c ∧ c.isUnit = true) ↔ id = 0
  /-- The children of a node are linked in both directions, and the node knows the first. -/
  siblings : ∀ id n, t.node? id = some n → t.DoublyLinked none n.firstChild (t.children id)
  /-- What hangs in a slot has no siblings. -/
  slots : ∀ owner c, t.construct? owner = some c → ∀ id ∈ c.slots,
    ∃ n, t.node? id = some n ∧ n.previous = none ∧ n.next = none
  /-- Every node but the root is owned once, as a child or in a slot. -/
  owned : ((List.range t.size).flatMap t.successors).Perm (List.range' 1 (t.size - 1))
  parent : ∀ owner id, id ∈ t.successors owner → t.parent? id = some owner

/-- Where one construct is laid out with all that belongs to it, every other node is owned once. -/
theorem Lays.perm_owned {t : Tree} {c : Construct} {line : Nat} {body slots : Forest}
    (h : t.Lays none (.chain none none) 0 (.cons c line body slots .nil))
    (hsize : t.size = (Forest.cons c line body slots .nil).size) :
    ((List.range t.size).flatMap t.successors).Perm (List.range' 1 (t.size - 1)) := by
  have hperm := h.perm_successors
  obtain ⟨more, hmore⟩ : ∃ more, t.size = more + 1 :=
    ⟨t.size - 1, by rw [hsize, Forest.size]; omega⟩
  rw [← hsize, hmore, List.range'_succ] at hperm
  rw [hmore, List.range_eq_range', List.range'_succ]
  exact (List.Perm.symm (List.perm_append_singleton 0 _)).trans hperm |>.cons_inv

/-- A unit anywhere but at the root would be among the constructs of the body or of the slots. -/
theorem eq_zero_of_isUnit {t : Tree} {c : Construct} {line : Nat} {body slots : Forest}
    (hnodes : t.nodes.toList
      = (Forest.cons c line body slots .nil).nodes none (.chain none none) 0)
    (hbody : body.All (·.isUnit = false)) (hslots : slots.All (·.isUnit = false)) {id : NodeId}
    {c' : Construct} (hc' : t.construct? id = some c') (hunit : c'.isUnit = true) : id = 0 := by
  cases id with
  | zero => rfl
  | succ id =>
    obtain ⟨n, hn, rfl⟩ := Option.map_eq_some_iff.1 hc'
    rw [node?, ← Array.getElem?_toList, hnodes, Forest.nodes_single, List.getElem?_cons_succ] at hn
    rcases List.mem_append.1 (List.mem_of_getElem? hn) with hmem | hmem
    · rw [(Forest.all_iff_nodes _ _ _ body).1 hbody n hmem] at hunit
      cases hunit
    · rw [(Forest.all_iff_nodes _ _ _ slots).1 hslots n hmem] at hunit
      cases hunit

/-- A tree that is the layout of one unit with all that belongs to it is well-formed. -/
theorem wellFormed_of_lays {t : Tree} {c : Construct} {line : Nat} {body slots : Forest}
    (hnodes : t.nodes.toList
      = (Forest.cons c line body slots .nil).nodes none (.chain none none) 0)
    (hlinked : (Forest.cons c line body slots .nil).Linked 0) (hroot : t.root = some 0)
    (hunit : c.isUnit = true) (hbody : body.All (·.isUnit = false))
    (hslots : slots.All (·.isUnit = false)) : t.WellFormed := by
  have hsize : t.size = (Forest.cons c line body slots .nil).size := by
    rw [size_eq_length, hnodes, Forest.length_nodes]
  have hlays : t.Lays none (.chain none none) 0 (.cons c line body slots .nil) :=
    lays_of_toList hnodes hlinked
  -- Every node stands somewhere in the forest, and what is claimed of it is read off there.
  have hstands : ∀ {id : Nat} {n}, t.node? id = some n → ∃ c line body slots,
      t.Stands id c line body slots := by
    intro id n hn
    have hlt : id < t.size := (Array.getElem?_eq_some_iff.1 hn).1
    exact hlays.exists_stands (Nat.zero_le id) (by omega)
  exact
    { reachable := hlays.reachable_eq hsize.symm (by rw [hroot]; rfl)
      root := hroot
      unit := by
        intro id
        constructor
        · rintro ⟨c', hc', hunit'⟩
          exact eq_zero_of_isUnit hnodes hbody hslots hc' hunit'
        · rintro rfl
          exact ⟨c, hlays.parts.1.construct?_eq, hunit⟩
      siblings := by
        intro id n hn
        obtain ⟨c, line, body, slots, hs⟩ := hstands hn
        obtain ⟨n', hn', -, -, hfirst⟩ := hs.node
        cases hn.symm.trans hn'
        rw [hs.children_eq, hfirst]
        exact hs.inBody.doublyLinked
      slots := by
        intro owner c hc id hid
        obtain ⟨n, hn, -⟩ := Option.map_eq_some_iff.1 hc
        obtain ⟨c', line, body, slots, hs⟩ := hstands hn
        cases hc.symm.trans hs.construct?_eq
        rw [hs.slots_eq] at hid
        exact hs.inSlots.alone_of_mem_roots hid
      owned := hlays.perm_owned hsize
      parent := by
        intro owner id hid
        cases hn : t.node? owner with
        | none =>
          simp [successors, children, construct?, hn, chain_none] at hid
        | some n =>
          obtain ⟨c, line, body, slots, hs⟩ := hstands hn
          rw [hs.successors_eq, List.mem_append] at hid
          rcases hid with hid | hid
          · exact hs.inBody.parent?_of_mem_roots hid
          · exact hs.inSlots.parent?_of_mem_roots hid }

/-- The lines of the nodes, in the order in which the walk from the root meets them. -/
def lineOrder (t : Tree) : List Nat :=
  t.reachable.filterMap fun id => (t.node? id).map (·.line)

/-- The walk through a well-formed tree meets the nodes as they are stored. -/
theorem WellFormed.lineOrder_eq {t : Tree} (h : t.WellFormed) :
    t.lineOrder = t.nodes.toList.map (·.line) := by
  have hall : ∀ ns : List Node, (List.range ns.length).filterMap (fun i => ns[i]?.map (·.line))
      = ns.map (·.line) := by
    intro ns
    induction ns with
    | nil => rfl
    | cons n ns ih => simpa [List.range_succ_eq_map, List.filterMap_map, Function.comp_def] using ih
  rw [lineOrder, h.reachable, size_eq_length, ← hall]
  simp [node?]

end Tree

namespace Grammar

/-! ## Accepted programs -/

/-- The unit is not among the statements. -/
theorem Reads.all_not_unit {role : Role} {d d' : Draft} {f : Forest} (h : Reads role d f d') :
    f.All (·.isUnit = false) := by
  induction h with
  | declaration => exact ⟨rfl, trivial, trivial, trivial⟩
  | @simple _ _ _ c _ kind _ =>
    refine ⟨?_, trivial, trivial, trivial⟩
    cases c <;> first | rfl | exact kind.elim
  | loop _ _ _ _ _ ih => exact ⟨rfl, ih, trivial, trivial⟩
  | @conditional _ d₁ d₂ _ _ _ scope condition _ slots _ _ _ _ _ _ ihb ihs =>
    obtain ⟨elseIfs, last, hfill⟩ := slots.exists_fill_eq d₂.tree.size scope condition [] none
    exact ⟨by rw [hfill]; rfl, ihb, ihs, trivial⟩
  | elseIf _ _ _ _ _ _ ihb ihs => exact ⟨rfl, ihb, trivial, ihs⟩
  | otherwise _ _ _ _ ih => exact ⟨rfl, ih, trivial, trivial⟩
  | routine _ _ _ _ _ _ _ _ _ ih => exact ⟨rfl, ih, trivial, trivial⟩
  | done _ => trivial
  | item _ _ _ ihf ihm => exact (Forest.all_append _ _ _).2 ⟨ihf, ihm⟩

/-- These lines and then those of the tokens left are among the lines of the tokens, in this
order. -/
def Spans (tokens : List Lexeme) (lines : List Nat) (left : List Lexeme) : Prop :=
  (lines ++ left.map (·.line)).Sublist (tokens.map (·.line))

/-- Lines that are spanned one part after the other. -/
theorem Spans.trans {ts us vs : List Lexeme} {ls ms : List Nat} (h : Spans ts ls us)
    (h' : Spans us ms vs) : Spans ts (ls ++ ms) vs := by
  refine List.Sublist.trans ?_ h
  rw [List.append_assoc]
  exact h'.append_left ls

theorem Draft.Skips.spans {d d' : Draft} (h : d.Skips d') : Spans d.tokens [] d'.tokens :=
  h.suffix.sublist.map _

/-- A construct is made in the line of one of the tokens that are taken for it. -/
theorem Draft.Takes.spans {d d' : Draft} {line : Nat} {ns : List String} (h : d.Takes line ns d') :
    Spans d.tokens [line] d'.tokens := by
  obtain ⟨l, more, hd, rfl, hs⟩ := h.first
  rw [hd]
  exact (hs.sublist.map (·.line)).cons_cons l.line

/-- The lines of what was read are among those of the tokens that were taken. -/
theorem Reads.spans {role : Role} {d d' : Draft} {f : Forest} (h : Reads role d f d') :
    Spans d.tokens f.lines d'.tokens := by
  induction h with
  | declaration taken => exact taken.spans
  | simple taken => exact taken.spans
  | loop taken _ _ _ rest ih =>
    have hall := taken.spans.trans (ih.trans rest.spans)
    simpa [Forest.block, Forest.lines] using hall
  | conditional taken _ _ _ _ rest ihb ihs =>
    have hall := taken.spans.trans (ihb.trans (ihs.trans rest.spans))
    simpa [Forest.lines] using hall
  | elseIf taken _ _ _ _ _ ihb ihs =>
    have hall := taken.spans.trans (ihb.trans ihs)
    simpa [Forest.lines] using hall
  | otherwise taken _ _ _ ih =>
    have hall := taken.spans.trans ih
    simpa [Forest.block, Forest.lines, Draft.closed] using hall
  | routine taken _ _ _ _ _ _ rest _ ih =>
    have hall := taken.spans.trans (ih.trans rest.spans)
    simpa [Forest.block, Forest.lines, Draft.equipped] using hall
  | done _ => exact List.Sublist.refl _
  | item _ _ _ ihf ihm =>
    rw [Draft.tokens_attached] at ihm
    rw [Forest.lines_append]
    exact ihf.trans ihm

/-- The lines of the constructs are lines of tokens, in the order of the tokens. -/
theorem ReadsProgram.lines_sublist {tokens : List Lexeme} {f : Forest} {p : Program}
    (h : ReadsProgram tokens f p) : f.lines.Sublist (tokens.map (·.line)) := by
  cases h with
  | intro taken _ _ inside begun _ _ entered =>
    have hall := taken.spans.trans (inside.spans.trans (begun.spans.trans entered.spans))
    simpa [Forest.block, Forest.lines, Draft.start] using
      (List.sublist_append_left _ _).trans hall

end Grammar

namespace Program

/-- The tree of an accepted program is well-formed, and its nodes are in the order of their lines
if the tokens are. -/
theorem ofTokens_wellFormed {tokens : List Lexeme} {p : Program} (h : ofTokens tokens = .ok p) :
    p.tree.WellFormed ∧ p.root = 0 ∧
      ((tokens.map (·.line)).Pairwise (· ≤ ·) → p.tree.lineOrder.Pairwise (· ≤ ·)) := by
  obtain ⟨f, hreads⟩ := ofTokens_reads h
  obtain ⟨hnodes, hlinked, hroot, htree⟩ := hreads.nodes_eq
  have hlines := hreads.lines_sublist
  have hwell : p.tree.WellFormed := by
    cases hreads with
    | intro taken written placed inside begun scope_eq entryPlaced entered =>
      exact Tree.wellFormed_of_lays hnodes hlinked htree rfl inside.all_not_unit
        ⟨rfl, entered.all_not_unit, trivial, trivial⟩
  refine ⟨hwell, hroot, fun hsorted => ?_⟩
  rw [hwell.lineOrder_eq, hnodes, Forest.map_line_nodes]
  exact hsorted.sublist hlines

/-- The tokens of a program with a declaration and a conditional, on six lines. -/
def sampleTokens : List Lexeme :=
  [⟨.word .module, 1⟩, ⟨.identifier "sample", 1⟩, ⟨.mark .semicolon, 1⟩,
    ⟨.word .variable, 2⟩, ⟨.word (.scalar .integer), 2⟩, ⟨.identifier "x", 2⟩,
    ⟨.mark .semicolon, 2⟩,
    ⟨.word .beginning, 3⟩, ⟨.word .if, 3⟩, ⟨.boolean true, 3⟩, ⟨.word .then, 3⟩,
    ⟨.word .input, 4⟩, ⟨.identifier "x", 4⟩, ⟨.mark .semicolon, 4⟩,
    ⟨.word .else, 5⟩, ⟨.word .output, 5⟩, ⟨.identifier "x", 5⟩, ⟨.mark .semicolon, 5⟩,
    ⟨.word .end, 6⟩, ⟨.word .if, 6⟩, ⟨.mark .semicolon, 6⟩,
    ⟨.word .end, 6⟩, ⟨.identifier "sample", 6⟩, ⟨.mark .dot, 6⟩]

/-- A program with a routine, a loop and a conditional. -/
theorem sampleTokens_wellFormed : ∃ p, ofTokens sampleTokens = .ok p ∧ p.tree.WellFormed ∧
    p.root = 0 ∧ p.tree.lineOrder.Pairwise (· ≤ ·) := by
  obtain ⟨p, hp⟩ := Except.exists_eq_ok (x := ofTokens sampleTokens) (by decide +kernel)
  obtain ⟨hwell, hroot, hlines⟩ := ofTokens_wellFormed hp
  exact ⟨p, hp, hwell, hroot, hlines (by decide)⟩

end Program

end Primer
