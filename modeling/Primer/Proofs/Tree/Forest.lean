import Primer.Tree

/-!
# Primer.Proofs.Tree.Forest — the nodes of a program, as nested lists.

A `Forest` is what a program tree stands for: constructs in order, each with the constructs of its
body and those in its slots.  `Forest.nodes` lays a forest out from a given position on, a construct
before its body, its body before its slots, and its slots before what follows; it says what every
link of every node is.  All that the arrays and links of a `Tree` hide is in this one function, so a
statement about trees is proved by induction on forests.

`Tree.Shows t start ns` says that the tree has these nodes from that position on.

The functions on forests are structural, and almost all of them turn an appended forest into a sum
or an append: its size, its lines, the positions of its roots, and the nodes of its layout.  So a
proof about a program that was read in two parts puts the parts together by rewriting, without a
word about positions.
-/

namespace Primer

/-- A conditional with one more branch in its slots; nothing else takes branches. -/
def Construct.withBranch (c branch : Construct) (id : NodeId) : Construct :=
  match c, branch with
  | conditional scope condition elseIfs last, elseIf .. =>
    conditional scope condition (elseIfs ++ [id]) last
  | conditional scope condition elseIfs _, otherwise _ =>
    conditional scope condition elseIfs (some id)
  | c, _ => c

/-- Constructs in order, each with its line, its body and what hangs in its slots. -/
inductive Forest where
  | nil
  | cons (construct : Construct) (line : Nat) (body slots rest : Forest)

namespace Forest

/-- One construct without a body. -/
def leaf (c : Construct) (line : Nat) : Forest := cons c line nil nil nil

/-- One construct with a body and without slots. -/
def block (c : Construct) (line : Nat) (body : Forest) : Forest := cons c line body nil nil

/-- The number of constructs, nested ones included. -/
def size : Forest → Nat
  | nil => 0
  | cons _ _ body slots rest => 1 + body.size + slots.size + rest.size

/-- The constructs of two forests after one another. -/
def append : Forest → Forest → Forest
  | nil, g => g
  | cons c line body slots rest, g => cons c line body slots (rest.append g)

/-- The lines of all constructs, in the order in which they are laid out. -/
def lines : Forest → List Nat
  | nil => []
  | cons _ line body slots rest => line :: (body.lines ++ (slots.lines ++ rest.lines))

/-! ## Positions -/

/-- The position of the first outermost construct. -/
def first? (start : Nat) : Forest → Option NodeId
  | nil => none
  | cons .. => some start

/-- The positions of the outermost constructs. -/
def roots (start : Nat) : Forest → List NodeId
  | nil => []
  | cons _ _ body slots rest => start :: rest.roots (start + 1 + body.size + slots.size)

/-- The position of the last outermost construct. -/
def last? (start : Nat) : Forest → Option NodeId
  | nil => none
  | cons _ _ body slots rest =>
    (rest.last? (start + 1 + body.size + slots.size)).or (some start)

/-- Every construct names the positions of what hangs in its slots. -/
def Linked (start : Nat) : Forest → Prop
  | nil => True
  | cons c _ body slots rest =>
    c.slots = slots.roots (start + 1 + body.size) ∧ body.Linked (start + 1) ∧
      slots.Linked (start + 1 + body.size) ∧ rest.Linked (start + 1 + body.size + slots.size)

/-- Every construct has a property. -/
def All (P : Construct → Prop) : Forest → Prop
  | nil => True
  | cons c _ body slots rest => P c ∧ body.All P ∧ slots.All P ∧ rest.All P

/-- A construct with all branches of a forest in its slots. -/
def fill (c : Construct) (start : Nat) : Forest → Construct
  | nil => c
  | cons branch _ body slots rest =>
    rest.fill (c.withBranch branch start) (start + 1 + body.size + slots.size)

/-! ## Layout -/

/-- How the outermost constructs of a forest hang together: as a chain of siblings between two
nodes that may be there, or side by side in slots. -/
inductive Linkage where
  | chain (previous next : Option NodeId)
  | slots

namespace Linkage

/-- What the first construct has in front of it. -/
def previous : Linkage → Option NodeId
  | chain previous _ => previous
  | slots => none

/-- What a construct has behind it whose next sibling in the forest is `sibling`. -/
def next (sibling : Option NodeId) : Linkage → Option NodeId
  | chain _ next => sibling.or next
  | slots => none

/-- The linkage of what follows the construct at `id`. -/
def after (id : NodeId) : Linkage → Linkage
  | chain _ next => chain (some id) next
  | slots => slots

end Linkage

/-- The nodes of a forest that is laid out from `start` on, under an owner. -/
def nodes (owner : Option NodeId) (linkage : Linkage) (start : Nat) : Forest → List Node
  | nil => []
  | cons construct line body slots rest =>
    let branches := start + 1 + body.size
    let behind := branches + slots.size
    { construct, line, parent := owner, previous := linkage.previous,
      next := linkage.next (rest.first? behind), firstChild := body.first? (start + 1) }
      :: (body.nodes (some start) (.chain none none) (start + 1)
        ++ (slots.nodes (some start) .slots branches
        ++ rest.nodes owner (linkage.after start) behind))

/-! ## Sizes and positions of what is put together -/

/-- The size of two forests, one behind the other. -/
@[simp]
theorem size_append (f g : Forest) : (f.append g).size = f.size + g.size := by
  induction f with
  | nil => simp [append, size]
  | cons c line body slots rest _ _ ih =>
    simp only [append, size, ih]
    omega

@[simp]
theorem append_nil (f : Forest) : f.append nil = f := by
  induction f with
  | nil => rfl
  | cons c line body slots rest _ _ ih => simp [append, ih]

theorem append_assoc (f g h : Forest) : (f.append g).append h = f.append (g.append h) := by
  induction f with
  | nil => rfl
  | cons c line body slots rest _ _ ih => simp [append, ih]

/-- A forest that is not empty has a last outermost construct. -/
theorem exists_append_cons {f : Forest} (h : f ≠ nil) :
    ∃ g c line body slots, f = append g (cons c line body slots nil) := by
  induction f with
  | nil => exact absurd rfl h
  | cons c line body slots rest _ _ ih =>
    cases rest with
    | nil => exact ⟨nil, c, line, body, slots, rfl⟩
    | cons c' line' body' slots' rest' =>
      obtain ⟨g, e, l, b, s, hg⟩ := ih (by simp)
      exact ⟨cons c line body slots g, e, l, b, s, by rw [hg]; rfl⟩

/-- A forest ends behind its first construct, what belongs to that, and all further ones. -/
theorem add_size_cons (start : Nat) (c : Construct) (line : Nat) (body slots rest : Forest) :
    start + (cons c line body slots rest).size
      = start + 1 + body.size + slots.size + rest.size := by
  simp only [size, Nat.add_assoc]

/-- A forest takes up as many nodes as it has constructs. -/
@[simp]
theorem length_nodes (owner : Option NodeId) (linkage : Linkage) (start : Nat) (f : Forest) :
    (f.nodes owner linkage start).length = f.size := by
  induction f generalizing owner linkage start with
  | nil => rfl
  | cons c line body slots rest ihb ihs ihr =>
    simp only [nodes, size, List.length_cons, List.length_append, ihb, ihs, ihr]
    omega

theorem lines_append (f g : Forest) : (f.append g).lines = f.lines ++ g.lines := by
  induction f with
  | nil => rfl
  | cons c line body slots rest _ _ ih => simp [append, lines, ih]

/-- The lines of the nodes are those of the constructs. -/
theorem map_line_nodes (owner : Option NodeId) (linkage : Linkage) (start : Nat) (f : Forest) :
    (f.nodes owner linkage start).map (·.line) = f.lines := by
  induction f generalizing owner linkage start with
  | nil => rfl
  | cons c line body slots rest ihb ihs ihr => simp [nodes, lines, ihb, ihs, ihr]

theorem first?_append (start : Nat) (f g : Forest) :
    (f.append g).first? start = (f.first? start).or (g.first? (start + f.size)) := by
  cases f <;> simp [append, first?, size]

/-- The roots of a forest behind another one start behind all of its nodes. -/
theorem roots_append (start : Nat) (f g : Forest) :
    (f.append g).roots start = f.roots start ++ g.roots (start + f.size) := by
  induction f generalizing start with
  | nil => simp [append, roots, size]
  | cons c line body slots rest _ _ ih =>
    simp only [append, roots, add_size_cons, ih, List.cons_append]

theorem length_roots_le (start : Nat) (f : Forest) : (f.roots start).length ≤ f.size := by
  induction f generalizing start with
  | nil => exact Nat.le_refl 0
  | cons c line body slots rest _ _ ih =>
    have hrest := ih (start + 1 + body.size + slots.size)
    simp only [roots, size, List.length_cons]
    omega

/-- A root of a forest is one of its positions. -/
theorem mem_roots {f : Forest} {start id : Nat} (h : id ∈ f.roots start) :
    start ≤ id ∧ id < start + f.size := by
  induction f generalizing start with
  | nil => cases h
  | cons c line body slots rest _ _ ih =>
    rw [roots, List.mem_cons] at h
    rw [size]
    rcases h with rfl | h
    · omega
    · have hrest := ih h
      omega

theorem last?_append (start : Nat) (f g : Forest) :
    (f.append g).last? start = (g.last? (start + f.size)).or (f.last? start) := by
  induction f generalizing start with
  | nil => simp [append, last?, size]
  | cons c line body slots rest _ _ ih =>
    simp only [append, last?, add_size_cons, ih, Option.or_assoc]

/-- The slots of a forest are linked if those of its two parts are, each at its place. -/
theorem linked_append (start : Nat) (f g : Forest) :
    (f.append g).Linked start ↔ f.Linked start ∧ g.Linked (start + f.size) := by
  induction f generalizing start with
  | nil => simp [append, Linked, size]
  | cons c line body slots rest _ _ ih =>
    simp only [append, Linked, add_size_cons, ih, and_assoc]

/-- A property of every construct, of two forests. -/
theorem all_append (P : Construct → Prop) (f g : Forest) :
    (f.append g).All P ↔ f.All P ∧ g.All P := by
  induction f with
  | nil => simp [append, All]
  | cons c line body slots rest _ _ ih => simp only [append, All, ih, and_assoc]

/-- A property of all constructs is one of all nodes. -/
theorem all_iff_nodes {P : Construct → Prop} (owner : Option NodeId) (linkage : Linkage)
    (start : Nat) (f : Forest) :
    f.All P ↔ ∀ n ∈ f.nodes owner linkage start, P n.construct := by
  induction f generalizing owner linkage start with
  | nil => simp [All, nodes]
  | cons c line body slots rest ihb ihs ihr =>
    simp only [All, nodes, List.forall_mem_cons, List.forall_mem_append, ← ihb, ← ihs, ← ihr]

/-- Filling the slots of a conditional changes nothing but its slots. -/
theorem exists_fill_eq (f : Forest) (start : Nat) (scope : String) (condition : Expr)
    (elseIfs : List NodeId) (last : Option NodeId) :
    ∃ elseIfs' last', f.fill (.conditional scope condition elseIfs last) start
      = .conditional scope condition elseIfs' last' := by
  induction f generalizing start elseIfs last with
  | nil => exact ⟨elseIfs, last, rfl⟩
  | cons branch line body slots rest _ _ ih =>
    rw [fill]
    cases branch <;> exact ih _ _ _

/-- The nodes of a chain that goes on: its last outermost construct is followed by the first of the
continuation, which in turn has that construct in front of it. -/
theorem nodes_append (owner previous next : Option NodeId) (start : Nat) (f g : Forest) :
    (f.append g).nodes owner (.chain previous next) start
      = f.nodes owner (.chain previous ((g.first? (start + f.size)).or next)) start
        ++ g.nodes owner (.chain ((f.last? start).or previous) next) (start + f.size) := by
  induction f generalizing previous start with
  | nil => simp [append, nodes, size, last?]
  | cons c line body slots rest _ _ ih =>
    simp only [append, nodes, add_size_cons, last?, ih, Linkage.next, Linkage.previous,
      Linkage.after, first?_append, Option.or_assoc, Option.some_or, List.cons_append,
      List.append_assoc]

/-- The nodes of one construct, with those of its body and slots behind its own. -/
theorem nodes_single (owner : Option NodeId) (linkage : Linkage)
    (start : Nat) (c : Construct) (line : Nat) (body slots : Forest) :
    (cons c line body slots nil).nodes owner linkage start
      = { construct := c, line, parent := owner, previous := linkage.previous,
          next := linkage.next none, firstChild := body.first? (start + 1) }
        :: (body.nodes (some start) (.chain none none) (start + 1)
          ++ slots.nodes (some start) .slots (start + 1 + body.size)) := by
  simp [nodes, first?]

end Forest

/-! ## Nodes of a tree -/

namespace Tree

/-- The tree has these nodes from this position on. -/
def Shows (t : Tree) (start : Nat) (ns : List Node) : Prop :=
  ∀ i n, ns[i]? = some n → t.node? (start + i) = some n

theorem shows_nil (t : Tree) (start : Nat) : t.Shows start [] := by
  intro i n h
  simp at h

theorem shows_cons {t : Tree} {start : Nat} {n : Node} {ns : List Node} :
    t.Shows start (n :: ns) ↔ t.node? start = some n ∧ t.Shows (start + 1) ns := by
  constructor
  · intro h
    refine ⟨h 0 n rfl, fun i m hm => ?_⟩
    have hi := h (i + 1) m (by simpa using hm)
    rwa [show start + (i + 1) = start + 1 + i by omega] at hi
  · rintro ⟨hn, hns⟩ i m hm
    cases i with
    | zero => simpa [← (by simpa using hm : n = m)] using hn
    | succ i =>
      rw [show start + (i + 1) = start + 1 + i by omega]
      exact hns i m (by simpa using hm)

/-- A tree shows two lists of nodes, one behind the other, if it shows each at its place. -/
theorem shows_append {t : Tree} {start : Nat} {ns ms : List Node} :
    t.Shows start (ns ++ ms) ↔ t.Shows start ns ∧ t.Shows (start + ns.length) ms := by
  induction ns generalizing start with
  | nil => simp [shows_nil]
  | cons n ns ih =>
    have hstart : start + 1 + ns.length = start + (n :: ns).length := by
      simp only [List.length_cons]
      omega
    rw [List.cons_append, shows_cons, shows_cons, ih, hstart, and_assoc]

/-- The tree shows the nodes that it is made of. -/
theorem shows_of_toList {t : Tree} {before ns after : List Node}
    (h : t.nodes.toList = before ++ (ns ++ after)) : t.Shows before.length ns := by
  intro i n hi
  have hlt : i < ns.length := (List.getElem?_eq_some_iff.1 hi).1
  rw [node?, ← Array.getElem?_toList, h, List.getElem?_append_right (by omega),
    show before.length + i - before.length = i by omega, List.getElem?_append_left hlt, hi]

end Tree

end Primer
