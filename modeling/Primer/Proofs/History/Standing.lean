import Primer.Proofs.Grammar.Reading
import Primer.Proofs.Scope.Agreement

/-!
# Primer.Proofs.History.Standing — the table of variables and the open blocks.

The table of variables never shrinks, and yet, of the ids in the scope of an open block, it holds
just those that the block itself declares.  The reason is that a block gets a scope in which nothing
was declared before.  One kind of block does not: the body of a routine whose name another routine
has already.  It gets the scope of that routine's body, and that the name is taken is only found at
its end.  Such a block is said to repeat (`Draft.Repeats`), and nothing is claimed about it.

`Stands s d` is the invariant of reading inside a program unit.  It is about every draft on the way,
also of a text that is refused later.

A site says where a draft stands: the name of the unit, the scopes of the open blocks, the routines
that were completed, and the nodes that wait to be attached.  For every change of a draft there is
one lemma that keeps the invariant, and the site it keeps it for tells what has changed.  The node
of a declaration waits for a moment, between its making and its attachment, and for that moment the
table has one entry more than the block (`waiting`).
-/

namespace Primer.Grammar

/-! ## What is visible -/

namespace Draft

/-- The node is a declaration of this name. -/
def DeclaresAt (d : Draft) (node : NodeId) (name : String) : Prop :=
  ∃ v, d.tree.construct? node = some (.declaration v) ∧ v.name = name

/-- The block is the body of a routine whose name another routine has already. -/
def Repeats (d : Draft) (b : OpenBlock) : Prop :=
  ∃ heading, d.heading? b = some heading ∧ d.routines.contains heading.name = true

/-- The declaration that was read last is for this block, and waits for its place in it. -/
def Awaits (d : Draft) (b : OpenBlock) (name : String) : Prop :=
  d.blocks.head? = some b ∧ ∃ v, d.tree.construct? (d.tree.size - 1) = some (.declaration v) ∧
    v.name = name ∧ v.id = Name.qualify b.scope name

/-- The block declares the name: by one of its statements, or by the declaration that was just
read for it. -/
def Declares (d : Draft) (b : OpenBlock) (name : String) : Prop :=
  (∃ node ∈ b.statements, d.DeclaresAt node name) ∨ d.Awaits b name

/-- Of the ids in the scope of an open block, the table holds those that the block declares; and it
holds all ids that are declared in the tree. -/
structure Visible (d : Draft) : Prop where
  table : ∀ b ∈ d.blocks, ¬ d.Repeats b → ∀ name, Name.IsSegment name →
    (d.declared.contains (Name.qualify b.scope name) = true ↔ d.Declares b name)
  covered : ∀ node v, d.tree.construct? node = some (.declaration v) →
    d.declared.contains v.id = true

end Draft

/-! ## The invariant -/

/-- Where reading stands in a unit: the nodes and scopes of the open blocks, innermost first, the
routines whose bodies are closed and that are not registered, and nodes that are no declarations. -/
structure Site where
  unit : String
  blocks : List (NodeId × String)
  finished : List String
  held : List NodeId

namespace Site

/-- The scopes of the open blocks. -/
def scopes (s : Site) : List String := s.blocks.map (·.2)

/-- A block was opened. -/
def enter (s : Site) (node : NodeId) (scope : String) : Site :=
  { s with blocks := (node, scope) :: s.blocks }

/-- A body was closed that belongs to these routines. -/
def finish (s : Site) (names : List String) : Site := { s with finished := names ++ s.finished }

/-- A node was made that is no declaration. -/
def hold (s : Site) (node : NodeId) : Site := { s with held := node :: s.held }

/-- Reading stands in a block inside the unit. -/
def Inner (s : Site) : Prop :=
  ∃ b c outer, s.blocks = b :: c :: outer ∧ Name.isQualified b.2 = true

end Site

/-- A scope that reading gives to a block. -/
def Draft.Scoped (d : Draft) (unit scope : String) : Prop :=
  Name.NamedIn unit scope ∨ Name.Numbered d.blockCount scope

/-- The node is there. -/
def Draft.Has (d : Draft) (node : Nat) : Prop := node < d.tree.size

/-- The node is there and is no declaration. -/
def Draft.Holds (d : Draft) (node : NodeId) : Prop :=
  d.Has node ∧ ∀ v, d.tree.construct? node ≠ some (.declaration v)

/-- The draft is at this site, and the table of variables fits its open blocks.  A statement may
have been read that is not yet placed in the innermost block. -/
structure Stands (s : Site) (waiting : Option NodeId) (d : Draft) : Prop where
  blocks_eq : d.blocks.map (fun b => (b.node, b.scope)) = s.blocks
  unit : Name.IsSegment s.unit
  distinct : s.scopes.Nodup
  kinds : ∀ scope ∈ s.scopes, d.Scoped s.unit scope
  made : ∀ b ∈ d.blocks, d.Has b.node ∧ ∀ node ∈ b.statements, d.Has node
  held : ∀ node ∈ s.held, d.Holds node
  covered : ∀ node v, d.tree.construct? node = some (.declaration v) →
    d.declared.contains v.id = true
  known : ∀ id, d.declared.contains id = true →
    ∃ scope name, id = Name.qualify scope name ∧ Name.IsSegment name ∧ d.Scoped s.unit scope
  named : ∀ routine name, Name.IsSegment routine → Name.IsSegment name →
    d.declared.contains (Name.qualify (Name.qualify s.unit routine) name) = true →
    d.routines.contains routine = true ∨ Name.qualify s.unit routine ∈ s.scopes ∨
      routine ∈ s.finished
  table : ∀ b ∈ d.blocks, ¬ d.Repeats b → ∀ name, Name.IsSegment name →
    (d.declared.contains (Name.qualify b.scope name) = true ↔
      (∃ node ∈ b.statements, d.DeclaresAt node name) ∨
        d.blocks.head? = some b ∧ ∃ node ∈ waiting, d.DeclaresAt node name)
  waits : ∀ node ∈ waiting, d.Has node
  plain : Token.AllPlain d.tokens
  routines : ∀ name, d.routines.contains name = true → Name.Plain name

/-! ## Changes of the tree -/

/-- The nodes of one draft are there in another one, as far as blocks and declarations go, and
nothing else is declared there. -/
structure Draft.SameNodes (d d' : Draft) : Prop where
  size : d.tree.size ≤ d'.tree.size
  heading : ∀ b, d.Has b.node → d'.heading? b = d.heading? b
  declaration : ∀ node v, d'.tree.construct? node = some (.declaration v) ↔
    d.tree.construct? node = some (.declaration v)

theorem Tree.lt_size_of_construct? {t : Tree} {node : NodeId} {c : Construct}
    (h : t.construct? node = some c) : (node : Nat) < t.size :=
  Nat.lt_of_not_le fun hle => by
    rw [Tree.construct?_of_size_le hle] at h
    cases h

/-- A node is a declaration if it is asked for one and has it. -/
theorem Tree.construct?_eq_declaration {t : Tree} {node : NodeId} {v : Declaration} :
    t.construct? node = some (.declaration v)
      ↔ (t.construct? node).bind Construct.declaration? = some v := by
  cases t.construct? node with
  | none => simp
  | some c => cases c <;> simp [Construct.declaration?]

/-- A block keeps its heading while nodes are made and placed. -/
theorem Draft.heading?_of_keeps {d d' : Draft} (hkeeps : d.tree.Keeps d'.tree) {b b' : OpenBlock}
    (hnode : b.node = b'.node) (hb : d.Has b.node) : d'.heading? b' = d.heading? b := by
  rw [heading?_eq, heading?_eq, ← hnode]
  exact hkeeps.heading _ hb

/-- A block that repeats goes on repeating. -/
theorem Draft.Repeats.mono {d d' : Draft} {b b' : OpenBlock} (h : d.Repeats b)
    (hheading : d'.heading? b' = d.heading? b) (hroutines : ∀ name,
      d.routines.contains name = true → d'.routines.contains name = true) : d'.Repeats b' := by
  obtain ⟨heading, hh, htaken⟩ := h
  exact ⟨heading, hheading.trans hh, hroutines _ htaken⟩

namespace Draft.SameNodes

variable {d d' : Draft}

/-- Nodes have been placed. -/
theorem of_keeps (hkeeps : d.tree.Keeps d'.tree) (hsize : d'.tree.size = d.tree.size) :
    d.SameNodes d' := by
  refine ⟨hkeeps.size, fun b hb => heading?_of_keeps hkeeps rfl hb, fun node v => ?_⟩
  rw [Tree.construct?_eq_declaration, Tree.construct?_eq_declaration]
  by_cases hnode : (node : Nat) < d.tree.size
  · rw [hkeeps.declaration node hnode]
  · have hle := Nat.le_of_not_lt hnode
    rw [Tree.construct?_of_size_le hle, Tree.construct?_of_size_le (hsize ▸ hle)]

theorem of_eq (h : d'.tree = d.tree) : d.SameNodes d' :=
  of_keeps (h ▸ .refl _) (congrArg Tree.size h)

/-- A node was made that is no declaration. -/
theorem allocated (d : Draft) {c : Construct} (hc : c.declaration? = none) (line : Nat) :
    d.SameNodes (d.allocated c line) := by
  have hkeeps : d.tree.Keeps (d.allocated c line).tree := Tree.keeps_allocate _ _ _
  have hsize : (d.allocated c line).tree.size = d.tree.size + 1 := Tree.size_allocate _ _ _
  refine ⟨hkeeps.size, fun b hb => heading?_of_keeps hkeeps rfl hb, fun node v => ?_⟩
  rw [Tree.construct?_eq_declaration, Tree.construct?_eq_declaration]
  rcases Nat.lt_trichotomy node d.tree.size with hnode | hnode | hnode
  · rw [hkeeps.declaration node hnode]
  · have hnew : (d.allocated c line).tree.construct? node = some c := by
      rw [hnode]
      exact Tree.construct?_allocate _ _ _
    rw [hnew, Tree.construct?_of_size_le (Nat.le_of_eq hnode.symm), Option.bind_some, hc]
    rfl
  · rw [Tree.construct?_of_size_le (Nat.le_of_lt hnode),
      Tree.construct?_of_size_le (hsize ▸ Nat.succ_le_of_lt hnode)]

variable {b : OpenBlock} {node : NodeId} {name : String}

/-- What a node declares depends on its construct. -/
theorem declaresAt_iff (h : d.SameNodes d') : d'.DeclaresAt node name ↔ d.DeclaresAt node name := by
  simp only [DeclaresAt, h.declaration]

theorem holds (h : d.SameNodes d') (hnode : d.Holds node) : d'.Holds node :=
  ⟨Nat.lt_of_lt_of_le hnode.1 h.size, fun v hv => hnode.2 v ((h.declaration node v).1 hv)⟩

end Draft.SameNodes

/-- A declaration was made. -/
theorem Draft.construct?_allocated_declaration (d : Draft) (v : Declaration) (line : Nat)
    (node : NodeId) (w : Declaration) :
    (d.allocated (.declaration v) line).tree.construct? node = some (.declaration w)
      ↔ node = d.tree.size ∧ w = v ∨ d.tree.construct? node = some (.declaration w) := by
  have hkeeps : d.tree.Keeps (d.allocated (.declaration v) line).tree := Tree.keeps_allocate _ _ _
  have hsize : (d.allocated (.declaration v) line).tree.size = d.tree.size + 1 :=
    Tree.size_allocate _ _ _
  rcases Nat.lt_trichotomy node d.tree.size with hnode | rfl | hnode
  · rw [Tree.construct?_eq_declaration, Tree.construct?_eq_declaration,
      hkeeps.declaration node hnode]
    exact (or_iff_right fun h => Nat.ne_of_lt hnode h.1).symm
  · have hnew : (d.allocated (.declaration v) line).tree.construct? d.tree.size
        = some (.declaration v) := Tree.construct?_allocate _ _ _
    rw [hnew, Tree.construct?_of_size_le (Nat.le_refl _)]
    simp [eq_comm]
  · rw [Tree.construct?_of_size_le (hsize ▸ Nat.succ_le_of_lt hnode),
      Tree.construct?_of_size_le (Nat.le_of_lt hnode)]
    simp [Nat.ne_of_gt hnode]

/-- The nodes from before declare what they declared. -/
theorem Draft.declaresAt_allocated_of_has (d : Draft) (v : Declaration) (line : Nat)
    {node : NodeId} (hnode : d.Has node) (name : String) :
    (d.allocated (.declaration v) line).DeclaresAt node name ↔ d.DeclaresAt node name := by
  refine exists_congr fun w => and_congr_left fun _ => ?_
  refine (d.construct?_allocated_declaration v line node w).trans (or_iff_right fun hnew => ?_)
  exact Nat.ne_of_lt hnode hnew.1

/-- The new node declares its variable. -/
theorem Draft.declaresAt_allocated_size (d : Draft) (v : Declaration) (line : Nat) (name : String) :
    (d.allocated (.declaration v) line).DeclaresAt d.tree.size name ↔ v.name = name := by
  constructor
  · rintro ⟨w, hw, hname⟩
    rcases (d.construct?_allocated_declaration v line _ w).1 hw with ⟨-, rfl⟩ | hw
    · exact hname
    · exact absurd (Tree.lt_size_of_construct? hw) (Nat.lt_irrefl _)
  · intro hname
    exact ⟨v, (d.construct?_allocated_declaration v line _ v).2 (Or.inl ⟨rfl, rfl⟩), hname⟩

/-! ## Steps that keep the invariant -/

namespace Stands

variable {s : Site} {waiting : Option NodeId} {d d' : Draft}

/-- The open blocks, as far as they are told by their nodes and scopes. -/
theorem mem_scopes (h : Stands s waiting d) {b : OpenBlock} (hb : b ∈ d.blocks) :
    b.scope ∈ s.scopes := by
  rw [Site.scopes, ← h.blocks_eq, List.map_map]
  exact List.mem_map_of_mem hb

/-- The scopes of the site are those of the open blocks. -/
theorem scopes_eq (h : Stands s waiting d) : d.blocks.map (·.scope) = s.scopes := by
  rw [Site.scopes, ← h.blocks_eq, List.map_map]
  rfl

/-- The ids of the table, with that of a new variable. -/
theorem contains_registered (d : Draft) (v : Declaration) (id : String) :
    (d.registered v.fresh).declared.contains id = true
      ↔ id = v.id ∨ d.declared.contains id = true := by
  show (d.declared.insert v.id v.fresh).contains id = true ↔ _
  rw [Table.contains_insert, Bool.or_eq_true, beq_iff_eq]

/-- Nothing waits. -/
theorem or_waiting_none {P Q : Prop} {R : NodeId → Prop} :
    (P ∨ Q ∧ ∃ node ∈ (none : Option NodeId), R node) ↔ P := by
  simp

/-- Where nothing waits, the table holds of the scope of a block what the block declares. -/
theorem table_none (h : Stands s none d) {b : OpenBlock} (hb : b ∈ d.blocks)
    (hrepeats : ¬ d.Repeats b) {name : String} (hname : Name.IsSegment name) :
    d.declared.contains (Name.qualify b.scope name) = true
      ↔ ∃ node ∈ b.statements, d.DeclaresAt node name :=
  (h.table b hb hrepeats name hname).trans or_waiting_none

/-- Of the open blocks only the innermost one has its scope. -/
theorem scope_eq_iff (h : Stands s waiting d) {b b' : OpenBlock} {outer : List OpenBlock}
    (hblocks : d.blocks = b :: outer) (hb' : b' ∈ d.blocks) :
    b'.scope = b.scope ↔ d.blocks.head? = some b' := by
  have hdistinct := h.distinct
  rw [← h.scopes_eq, hblocks, List.map_cons, List.nodup_cons] at hdistinct
  rw [hblocks] at hb' ⊢
  rcases List.mem_cons.1 hb' with rfl | hb'
  · simp
  · have hne : b'.scope ≠ b.scope := fun heq => hdistinct.1 (heq ▸ List.mem_map_of_mem hb')
    refine iff_of_false hne fun heq => hne ?_
    rw [Option.some.inj heq]

/-- A step that changes neither the tables nor the blocks. -/
theorem change (h : Stands s waiting d) (hnodes : d.SameNodes d') (hblocks : d'.blocks = d.blocks)
    (hroutines : d'.routines = d.routines) (hdeclared : d'.declared = d.declared)
    (hcount : d.blockCount ≤ d'.blockCount) (htokens : ∀ l ∈ d'.tokens, l ∈ d.tokens) :
    Stands s waiting d' := by
  have hscoped : ∀ scope, d.Scoped s.unit scope → d'.Scoped s.unit scope :=
    fun scope hk => hk.imp_right (·.mono hcount)
  have hhas : ∀ node, d.Has node → d'.Has node := fun node hn => Nat.lt_of_lt_of_le hn hnodes.size
  refine ⟨hblocks ▸ h.blocks_eq, h.unit, h.distinct, fun scope hs => hscoped _ (h.kinds scope hs),
    fun b hb => ?_, fun node hn => hnodes.holds (h.held node hn), fun node v hv => ?_,
    fun id hid => ?_, ?_, fun b hb hrepeats name hname => ?_,
    fun node hn => hhas _ (h.waits node hn), fun l hl => h.plain l (htokens l hl),
    hroutines ▸ h.routines⟩
  · obtain ⟨hnode, hstatements⟩ := h.made b (hblocks ▸ hb)
    exact ⟨hhas _ hnode, fun node hn => hhas _ (hstatements node hn)⟩
  · rw [hdeclared]
    exact h.covered node v ((hnodes.declaration node v).1 hv)
  · obtain ⟨scope, name, heq, hname, hk⟩ := h.known id (hdeclared ▸ hid)
    exact ⟨scope, name, heq, hname, hscoped _ hk⟩
  · rw [hdeclared, hroutines]
    exact h.named
  · rw [hblocks] at hb
    have hheading := hnodes.heading b (h.made b hb).1
    simp only [hdeclared, hblocks, hnodes.declaresAt_iff]
    exact h.table b hb (fun hr => hrepeats (hr.mono hheading fun _ hk => hroutines ▸ hk)) name hname

theorem skips (h : Stands s waiting d) (hs : d.Skips d') : Stands s waiting d' :=
  h.change (.of_eq hs.tree) hs.blocks hs.routines hs.declared (Nat.le_of_eq hs.blockCount.symm)
    fun _ hl => hs.suffix.mem hl

theorem counted (h : Stands s waiting d) : Stands s waiting d.counted :=
  h.change (.of_eq rfl) rfl rfl rfl (Nat.le_succ _) fun _ hl => hl

/-- A node that declares nothing is held until it is attached. -/
theorem allocated (h : Stands s waiting d) {c : Construct} (hc : c.declaration? = none)
    (line : Nat) : Stands (s.hold d.tree.size) waiting (d.allocated c line) := by
  have hall := h.change (.allocated d hc line) rfl rfl rfl (Nat.le_refl _) fun _ hl => hl
  have hnew : (d.allocated c line).tree.construct? d.tree.size = some c :=
    Tree.construct?_allocate _ _ _
  refine { hall with held := fun node hnode => ?_ }
  rcases List.mem_cons.1 hnode with rfl | hnode
  · refine ⟨Tree.lt_size_of_construct? hnew, fun v hv => ?_⟩
    rw [hnew] at hv
    cases hv
    cases hc
  · exact hall.held node hnode

/-- Nodes have been placed in slots. -/
theorem planted (h : Stands s waiting d) {tree : Tree} (hkeeps : d.tree.Keeps tree)
    (hsize : tree.size = d.tree.size) : Stands s waiting (d.planted tree) :=
  h.change (.of_keeps hkeeps hsize) rfl rfl rfl (Nat.le_refl _) fun _ hl => hl

/-- A node is no longer of interest. -/
theorem drop {node : NodeId} (h : Stands (s.hold node) waiting d) : Stands s waiting d :=
  { h with held := fun other hother => h.held other (List.mem_cons_of_mem _ hother) }

/-! ### Statements -/

/-- A statement waits that is no declaration. -/
theorem wait {node : NodeId} (h : Stands (s.hold node) none d) : Stands s (some node) d := by
  obtain ⟨hhas, hother⟩ := h.held node List.mem_cons_self
  refine { h with
    held := fun other hmem => h.held other (List.mem_cons_of_mem _ hmem)
    table := fun b hb hrepeats name hname => ?_
    waits := fun other hmem => ?_ }
  · rw [h.table b hb hrepeats name hname]
    refine or_congr_right ⟨fun hnone => absurd hnone.2 (by simp), ?_⟩
    rintro ⟨-, other, hmem, v, hv, -⟩
    obtain rfl := Option.mem_some.1 hmem
    exact absurd hv (hother v)
  · obtain rfl := Option.mem_some.1 hmem
    exact hhas

/-- With the new variable the table holds of the scope of a block what the block declares, where
the new node waits for the innermost one: only that block has the scope of the new id. -/
theorem table_registered (h : Stands s none d) {b b' : OpenBlock} {outer : List OpenBlock}
    (hblocks : d.blocks = b :: outer) {v : Declaration} (hid : v.id = Name.qualify b.scope v.name)
    (hname : Name.IsSegment v.name) (line : Nat) (hb' : b' ∈ d.blocks)
    (hrepeats : ¬ ((d.registered v.fresh).allocated (.declaration v) line).Repeats b')
    {name : String} (hn : Name.IsSegment name) :
    (d.registered v.fresh).declared.contains (Name.qualify b'.scope name) = true ↔
      (∃ node ∈ b'.statements,
        ((d.registered v.fresh).allocated (.declaration v) line).DeclaresAt node name) ∨
      d.blocks.head? = some b' ∧ ∃ node ∈ some d.tree.size,
        ((d.registered v.fresh).allocated (.declaration v) line).DeclaresAt node name := by
  have hheading : ((d.registered v.fresh).allocated (.declaration v) line).heading? b'
      = d.heading? b' :=
    Draft.heading?_of_keeps (Tree.keeps_allocate _ _ _) rfl (h.made b' hb').1
  have hrepeats' : ¬ d.Repeats b' := fun hr => hrepeats (hr.mono hheading fun _ hk => hk)
  have hstatements : (∃ node ∈ b'.statements,
        ((d.registered v.fresh).allocated (.declaration v) line).DeclaresAt node name)
      ↔ ∃ node ∈ b'.statements, d.DeclaresAt node name :=
    exists_congr fun node => and_congr_right fun hmem =>
      (d.registered v.fresh).declaresAt_allocated_of_has v line ((h.made b' hb').2 node hmem) name
  have hwaiting : (∃ node ∈ some d.tree.size,
        ((d.registered v.fresh).allocated (.declaration v) line).DeclaresAt node name)
      ↔ v.name = name := by
    have hown :
        ((d.registered v.fresh).allocated (.declaration v) line).DeclaresAt d.tree.size name
          ↔ v.name = name := (d.registered v.fresh).declaresAt_allocated_size v line name
    simpa using hown
  rw [contains_registered, hid, Name.qualify_inj hn hname, h.table_none hb' hrepeats' hn,
    hstatements, hwaiting, or_comm]
  refine or_congr_right (and_congr ?_ eq_comm)
  exact h.scope_eq_iff hblocks hb'

/-- A variable is registered and its declaration is made. -/
theorem declared (h : Stands s none d) {b : OpenBlock} {outer : List OpenBlock}
    (hblocks : d.blocks = b :: outer) {v : Declaration} (hid : v.id = Name.qualify d.scope v.name)
    (hname : Name.IsSegment v.name) (line : Nat) :
    Stands s (some d.tree.size) ((d.registered v.fresh).allocated (.declaration v) line) := by
  have hscope : d.scope = b.scope := by
    rw [Draft.scope, hblocks]
    rfl
  have hmade : b.scope ∈ s.scopes := h.mem_scopes (hblocks ▸ List.mem_cons_self)
  have hcontains : ∀ id, (d.registered v.fresh).declared.contains id = true
      ↔ id = v.id ∨ d.declared.contains id = true := contains_registered d v
  have hnode := fun node w => d.construct?_allocated_declaration v line node w
  have hhas : ∀ node, d.Has node →
      ((d.registered v.fresh).allocated (.declaration v) line).Has node := fun node hn =>
    Nat.lt_of_lt_of_le hn (Tree.keeps_allocate _ _ _).size
  refine ⟨h.blocks_eq, h.unit, h.distinct, h.kinds, fun b' hb' => ?_, fun node hn => ?_,
    fun node w hw => ?_, fun id hcontained => ?_, fun routine name hroutine hn hcontained => ?_,
    fun b' hb' hrepeats name hn => ?_, fun node hn => ?_, h.plain, h.routines⟩
  · obtain ⟨hown, hstatements⟩ := h.made b' hb'
    exact ⟨hhas _ hown, fun node hn => hhas _ (hstatements node hn)⟩
  · obtain ⟨hn', hother⟩ := h.held node hn
    refine ⟨hhas _ hn', fun w hw => ?_⟩
    rcases (hnode node w).1 hw with ⟨hsize, -⟩ | hw
    · exact absurd hsize (Nat.ne_of_lt hn')
    · exact hother w hw
  · rw [show ((d.registered v.fresh).allocated (.declaration v) line).declared
      = (d.registered v.fresh).declared from rfl, hcontains]
    rcases (hnode node w).1 hw with ⟨-, rfl⟩ | hw
    · exact Or.inl rfl
    · exact Or.inr (h.covered node w hw)
  · rcases (hcontains id).1 hcontained with rfl | hcontained
    · refine ⟨b.scope, v.name, ?_, hname, h.kinds _ hmade⟩
      rw [hid, hscope]
    · exact h.known id hcontained
  · rcases (hcontains _).1 hcontained with heq | hcontained
    · rw [hid, hscope, Name.qualify_inj hn hname] at heq
      exact Or.inr (Or.inl (heq.1 ▸ hmade))
    · exact h.named routine name hroutine hn hcontained
  · exact h.table_registered hblocks (hscope ▸ hid) hname line hb' hrepeats hn
  · obtain rfl := Option.mem_some.1 hn
    exact Nat.lt_of_lt_of_eq (Nat.lt_succ_self _) (Tree.size_allocate _ _ _).symm

/-- A block that is open when a statement has been placed was open before, perhaps without its last
statement. -/
theorem exists_open_before (h : Stands s waiting d) {node : NodeId} {b : OpenBlock}
    (hb : b ∈ (d.attached node).blocks) : ∃ b' ∈ d.blocks, b'.node = b.node ∧ b'.scope = b.scope ∧
      ∀ node', node' ∈ b.statements ↔
        node' ∈ b'.statements ∨ d.blocks.head? = some b' ∧ node' = node := by
  cases hblocks : d.blocks with
  | nil =>
    rw [Draft.attached, hblocks] at hb
    dsimp only at hb
    rw [hblocks] at hb
    cases hb
  | cons first outer =>
    rw [Draft.attached, hblocks] at hb
    rcases List.mem_cons.1 hb with rfl | hb
    · refine ⟨first, List.mem_cons_self, rfl, rfl, fun node' => ?_⟩
      rw [List.mem_cons, or_comm]
      simp
    · refine ⟨b, List.mem_cons_of_mem _ hb, rfl, rfl, fun node' => ?_⟩
      have hmem : b ∈ d.blocks := hblocks ▸ List.mem_cons_of_mem _ hb
      -- an outer block is not the innermost one, because its scope is another
      refine (or_iff_left fun hhead => ?_).symm
      have hsame := (h.scope_eq_iff hblocks hmem).2 (hblocks ▸ hhead.1)
      have hdistinct := h.distinct
      rw [← h.scopes_eq, hblocks, List.map_cons, List.nodup_cons, ← hsame] at hdistinct
      exact hdistinct.1 (List.mem_map_of_mem hb)

/-- The statement that waited is placed. -/
theorem attached {node : NodeId} (h : Stands s (some node) d) :
    Stands s none (d.attached node) := by
  obtain ⟨hkeeps, hsize⟩ := d.attached_tree node
  have hnodes : d.SameNodes (d.attached node) := .of_keeps hkeeps hsize
  have hkeys := (d.blocks_attached node).2
  have hhas : ∀ node', d.Has node' → (d.attached node).Has node' :=
    fun _ hn => Nat.lt_of_lt_of_le hn hnodes.size
  have hdeclared := d.declared_attached node
  have hroutines := d.routines_attached node
  have hold : ∀ b ∈ (d.attached node).blocks, ∃ b' ∈ d.blocks, b'.node = b.node ∧
      b'.scope = b.scope ∧ ∀ node', node' ∈ b.statements ↔
        node' ∈ b'.statements ∨ d.blocks.head? = some b' ∧ node' = node :=
    fun b hb => h.exists_open_before hb
  have hscoped : ∀ scope, d.Scoped s.unit scope → (d.attached node).Scoped s.unit scope :=
    fun scope hk => by
      unfold Draft.Scoped
      rwa [d.blockCount_attached]
  refine ⟨hkeys.trans h.blocks_eq, h.unit, h.distinct, fun scope hs => hscoped _ (h.kinds scope hs),
    fun b hb => ?_, fun node hn => hnodes.holds (h.held node hn), fun node' v hv => ?_,
    fun id hid => ?_, ?_, fun b hb hrepeats name hname => ?_, fun _ hn => absurd hn (by simp), ?_,
    hroutines ▸ h.routines⟩
  · obtain ⟨b', hb', hnode, -, hstatements⟩ := hold b hb
    refine ⟨hhas _ (hnode ▸ (h.made b' hb').1), fun node' hn => ?_⟩
    rcases (hstatements node').1 hn with hn | ⟨-, rfl⟩
    · exact hhas _ ((h.made b' hb').2 node' hn)
    · exact hhas _ (h.waits node' rfl)
  · rw [hdeclared]
    exact h.covered node' v ((hnodes.declaration node' v).1 hv)
  · obtain ⟨scope, name, heq', hname, hk⟩ := h.known id (hdeclared ▸ hid)
    exact ⟨scope, name, heq', hname, hscoped _ hk⟩
  · rw [hdeclared, hroutines]
    exact h.named
  · obtain ⟨b', hb', hnode, hscope, hstatements⟩ := hold b hb
    -- what waited is now the last statement of the innermost block, and the others have theirs
    have hheading := Draft.heading?_of_keeps hkeeps hnode (h.made b' hb').1
    have hrepeats' : ¬ d.Repeats b' :=
      fun hr => hrepeats (hr.mono hheading fun _ hk => hroutines ▸ hk)
    rw [hdeclared, ← hscope, h.table b' hb' hrepeats' name hname, or_waiting_none]
    simp only [hnodes.declaresAt_iff, hstatements]
    constructor
    · rintro (⟨node', hn, hdecl⟩ | ⟨hhead, node', hn, hdecl⟩)
      · exact ⟨node', Or.inl hn, hdecl⟩
      · exact ⟨node', Or.inr ⟨hhead, (Option.mem_some.1 hn).symm⟩, hdecl⟩
    · rintro ⟨node', hn | ⟨hhead, rfl⟩, hdecl⟩
      · exact Or.inl ⟨node', hn, hdecl⟩
      · exact Or.inr ⟨hhead, node', rfl, hdecl⟩
  · rw [Draft.tokens_attached]
    exact h.plain

/-! ### Blocks -/

/-- A block is opened in whose scope nothing was declared, or one that repeats. -/
theorem opened (h : Stands s none d) {node : NodeId} {scope : String} (hnode : d.Has node)
    (hkind : d.Scoped s.unit scope) (hnew : scope ∉ s.scopes)
    (hfree : ¬ d.Repeats ⟨node, scope, []⟩ → ∀ name, Name.IsSegment name →
      d.declared.contains (Name.qualify scope name) = false) :
    Stands (s.enter node scope) none (d.opened node scope) := by
  refine ⟨congrArg ((node, scope) :: ·) h.blocks_eq, h.unit, List.nodup_cons.2 ⟨hnew, h.distinct⟩,
    fun scope' hs => ?_, fun b hb => ?_, h.held, h.covered, h.known,
    fun routine name hr hn hcontained => ?_, fun b hb hrepeats name hn => ?_, h.waits, h.plain,
    h.routines⟩
  · rcases List.mem_cons.1 hs with rfl | hs
    · exact hkind
    · exact h.kinds scope' hs
  · rcases List.mem_cons.1 hb with rfl | hb
    · exact ⟨hnode, fun _ hmem => absurd hmem List.not_mem_nil⟩
    · exact h.made b hb
  · exact (h.named routine name hr hn hcontained).imp_right
      (Or.imp_left (List.mem_cons_of_mem scope))
  · rcases List.mem_cons.1 hb with rfl | hb
    · have hnone := hfree hrepeats name hn
      simp [Draft.opened, hnone]
    · exact (h.table_none hb hrepeats hn).trans or_waiting_none.symm

/-- The innermost block is closed. -/
theorem closed {node : NodeId} {scope : String} (h : Stands (s.enter node scope) none d)
    {names : List String} (hnames : ∀ routine, Name.IsSegment routine →
      scope = Name.qualify s.unit routine → routine ∈ names) :
    Stands (s.finish names) none d.closed := by
  have houter : ∀ b ∈ d.blocks.tail, b ∈ d.blocks := fun b hb => List.mem_of_mem_tail hb
  have hscopes : (s.enter node scope).scopes = scope :: s.scopes := rfl
  have hdistinct := h.distinct
  rw [hscopes, List.nodup_cons] at hdistinct
  refine ⟨?_, h.unit, hdistinct.2, fun scope' hs => h.kinds scope' (List.mem_cons_of_mem _ hs),
    fun b hb => h.made b (houter b hb), h.held, h.covered, h.known,
    fun routine name hr hn hcontained => ?_, fun b hb hrepeats name hn => ?_, h.waits, h.plain,
    h.routines⟩
  · show d.blocks.tail.map _ = s.blocks
    rw [List.map_tail, h.blocks_eq]
    rfl
  · rcases h.named routine name hr hn hcontained with hk | hk | hk
    · exact Or.inl hk
    · rw [hscopes, List.mem_cons] at hk
      rcases hk with hk | hk
      · exact Or.inr (Or.inr (List.mem_append_left _ (hnames routine hr hk.symm)))
      · exact Or.inr (Or.inl hk)
    · exact Or.inr (Or.inr (List.mem_append_right _ hk))
  · exact (h.table_none (houter b hb) hrepeats hn).trans or_waiting_none.symm

/-- A routine whose body is closed takes its name. -/
theorem equipped {name : String} (h : Stands (s.finish [name]) none d) (hname : Name.Plain name)
    (routine : Routine) : Stands s none (d.equipped (d.routines.insert name routine)) := by
  have hcontains : ∀ other, (d.routines.insert name routine).contains other = true
      ↔ other = name ∨ d.routines.contains other = true := by
    intro other
    rw [Table.contains_insert, Bool.or_eq_true, beq_iff_eq]
  refine ⟨h.blocks_eq, h.unit, h.distinct, h.kinds, h.made, h.held, h.covered, h.known,
    fun other name' hr hn hcontained => ?_, fun b hb hrepeats name' hn => ?_, h.waits, h.plain,
    fun other hother => ?_⟩
  · rw [show (d.equipped (d.routines.insert name routine)).routines
      = d.routines.insert name routine from rfl, hcontains]
    rcases h.named other name' hr hn hcontained with hk | hk | hk
    · exact Or.inl (Or.inr hk)
    · exact Or.inr (Or.inl hk)
    · rcases List.mem_cons.1 hk with rfl | hk
      · exact Or.inl (Or.inl rfl)
      · exact Or.inr (Or.inr hk)
  · refine h.table b hb (fun hr => hrepeats (hr.mono rfl fun other hk => ?_)) name' hn
    exact (hcontains other).2 (Or.inr hk)
  · rcases (hcontains other).1 hother with rfl | hother
    · exact hname
    · exact h.routines other hother

end Stands

/-! ## What the invariant says -/

theorem Stands.visible {s : Site} {waiting : Option NodeId} {d : Draft} (h : Stands s waiting d)
    (hlast : ∀ node ∈ waiting, ∀ v, d.tree.construct? node = some (.declaration v) →
      node + 1 = d.tree.size ∧ v.id = Name.qualify d.scope v.name) : d.Visible := by
  refine ⟨fun b hb hrepeats name hname => ?_, h.covered⟩
  constructor
  · intro hcontained
    rcases (h.table b hb hrepeats name hname).1 hcontained with
      hstatement | ⟨hhead, node, hnode, v, hv, hn⟩
    · exact Or.inl hstatement
    · obtain ⟨hsize, hid⟩ := hlast node hnode v hv
      have hscope : d.scope = b.scope := by
        rw [Draft.scope, hhead]
        rfl
      refine Or.inr ⟨hhead, v, ?_, hn, ?_⟩
      · rw [← hsize, Nat.add_sub_cancel]
        exact hv
      · rw [hid, hscope, hn]
  · rintro (hstatement | ⟨-, v, hv, -, hid⟩)
    · exact (h.table b hb hrepeats name hname).2 (Or.inl hstatement)
    · rw [← hid]
      exact h.covered _ v hv

end Primer.Grammar
