import Mathlib.Data.List.Basic
import Mathlib.Data.List.Find
import Primer.Proofs.Scope.Env
import Primer.Proofs.Token.Words
import Primer.Proofs.Tree.Frame

/-!
# Primer.Proofs.Scope.Agreement — the tables of a draft and the environment of its point.

While a program is read, a name is looked up in one table of all ids that were ever declared.  That
this finds the innermost declaration rests on scopes that are never used twice: a draft and an
environment agree (`Draft.Agrees`) if the open blocks are the levels and the table holds, of the ids
in their scopes, just those of the names that the levels have declared.

A scope is known if it belongs to a level of the environment, to a routine or to a block with a
number that was given out (`Env.Known`).  Numbers are given out one after the other, so a scope that
is opened is not known yet; a table entry is in a known scope, and therefore nothing in the table is
in the scope of a block that starts.  This is what makes one table enough.

Main statement: `Draft.Agrees.names_le`, by which what a draft resolves is what the environment
says.
The steps of reading that keep the agreement follow.
-/

namespace Primer

/-- The scope belongs to a block that was opened at some time: one without a name, an open one, or a
complete routine. -/
def Env.Known (Γ : Env) (count : Nat) (scope : String) : Prop :=
  Name.Numbered count scope ∨ scope ∈ Γ.levels.map (·.scope) ∨
    ∃ r ∈ Γ.routines, scope = Name.qualify Γ.unit.scope r.heading.name

/-- The scopes of an environment are those that reading makes: the unit has a plain name, and every
block in it is a block with a name or has a number. -/
structure Env.Regular (Γ : Env) (count : Nat) : Prop where
  unit : Name.IsSegment Γ.unit.scope
  kinds : ∀ scope ∈ Γ.levels.map (·.scope),
    Name.Numbered count scope ∨ Name.NamedIn Γ.unit.scope scope
  distinct : (Γ.levels.map (·.scope)).Nodup
  routines : ∀ r ∈ Γ.routines, Name.Plain r.heading.name
  outside : Γ.inner = [] → Γ.heading = none

/-- What is known depends on scopes and routines only. -/
theorem Env.Known.of_eq {Γ Γ' : Env} {count : Nat} {scope : String} (h : Γ.Known count scope)
    (hscopes : Γ'.levels.map (·.scope) = Γ.levels.map (·.scope))
    (hroutines : Γ'.routines = Γ.routines) (hunit : Γ'.unit.scope = Γ.unit.scope) :
    Γ'.Known count scope := by
  rw [Env.Known, hscopes, hroutines, hunit]
  exact h

theorem Env.Regular.declare {Γ : Env} {count : Nat} (h : Γ.Regular count) (name : String) :
    (Γ.declare name).Regular count := by
  have hscopes := Γ.map_scope_declare name
  refine ⟨?_, ?_, ?_, ?_, fun hinner => ?_⟩
  · rw [Γ.unit_scope_declare]
    exact h.unit
  · rw [hscopes, Γ.unit_scope_declare]
    exact h.kinds
  · rw [hscopes]
    exact h.distinct
  · rw [Γ.routines_declare]
    exact h.routines
  · rw [Γ.heading_declare]
    refine h.outside ?_
    rw [Γ.inner_declare] at hinner
    -- declaring changes the names of a level and not how many there are
    cases hl : Γ.inner with
    | nil => rfl
    | cons l outer =>
      rw [hl] at hinner
      cases hinner

theorem Env.Known.mono {Γ : Env} {count count' : Nat} {scope : String} (h : Γ.Known count scope)
    (hle : count ≤ count') : Γ.Known count' scope :=
  h.imp (·.mono hle) id

theorem Env.Regular.mono {Γ : Env} {count count' : Nat} (h : Γ.Regular count)
    (hle : count ≤ count') : Γ.Regular count' :=
  { h with kinds := fun scope hs => (h.kinds scope hs).imp (·.mono hle) id }

/-- A scope that was ever used has a number or belongs to a block with a name. -/
theorem Env.Regular.of_known {Γ : Env} {count : Nat} {scope : String} (h : Γ.Regular count)
    (hk : Γ.Known count scope) : Name.Numbered count scope ∨ Name.NamedIn Γ.unit.scope scope := by
  rcases hk with hk | hk | ⟨r, hr, rfl⟩
  · exact Or.inl hk
  · exact h.kinds scope hk
  · exact Or.inr (Or.inr ⟨_, (h.routines r hr).segment, rfl⟩)

/-- The next number makes a scope that was never used. -/
theorem Env.Regular.not_known_next {Γ : Env} {count : Nat} {outer label : String}
    (h : Γ.Regular count) (hlabel : Name.IsLabel label) (houter : Name.isQualified outer = true) :
    ¬ Γ.Known count (Name.qualify outer (label ++ toString (count + 1))) := by
  intro hk
  rcases h.of_known hk with hn | hn
  · exact Name.not_numbered_next hlabel count hn
  · exact (Name.numbered_next hlabel houter count).not_namedIn h.unit hn

/-- A name under the unit makes a scope that was never used, if no routine has it. -/
theorem Env.Regular.not_known_named {Γ : Env} {count : Nat} {name : String} (h : Γ.Regular count)
    (hinner : Γ.inner = []) (hname : Name.IsSegment name)
    (hfree : ∀ r ∈ Γ.routines, r.heading.name ≠ name) :
    ¬ Γ.Known count (Name.qualify Γ.unit.scope name) := by
  rintro (hk | hk | ⟨r, hr, heq⟩)
  · exact hk.not_namedIn h.unit (Or.inr ⟨name, hname, rfl⟩)
  · rw [Env.levels, hinner, List.nil_append, List.map_singleton, List.mem_singleton] at hk
    have hunit := h.unit
    rw [← hk] at hunit
    exact Name.not_isSegment_qualify _ _ hunit
  · exact hfree r hr ((Name.qualify_inj hname (h.routines r hr).segment).1 heq).2.symm

namespace Grammar

/-- A draft stands where an environment says. -/
structure Draft.Agrees (Γ : Env) (d : Draft) : Prop where
  regular : Γ.Regular d.blockCount
  scopes : d.blocks.map (·.scope) = Γ.levels.map (·.scope)
  headings : d.blocks.filterMap d.heading? = Γ.heading.toList
  nodes : ∀ b ∈ d.blocks, b.node < d.tree.size
  routines : ∀ name, d.routines.get? name = Γ.routine? name
  covered : ∀ id x, (d.tree.construct? id).bind Construct.declared? = some x →
    d.declared.contains x = true
  table : ∀ l ∈ Γ.levels, ∀ name, Name.IsSegment name →
    (d.declared.contains (Name.qualify l.scope name) = true ↔ name ∈ l.names)
  known : ∀ id, d.declared.contains id = true →
    ∃ scope name, id = Name.qualify scope name ∧ Name.IsSegment name ∧ Γ.Known d.blockCount scope

/-- An id that is not in the table is declared nowhere in the tree. -/
theorem Draft.declares_eq_false_of_covered (d : Draft)
    (hcovered : ∀ id x, (d.tree.construct? id).bind Construct.declared? = some x →
      d.declared.contains x = true) (block : OpenBlock) {id : String}
    (hid : d.declared.contains id = false) : d.declares block id = false := by
  have hnode : ∀ node, (d.tree.construct? node).bind Construct.declared? ≠ some id := by
    intro node hnode
    rw [hcovered node id hnode] at hid
    cases hid
  rw [Draft.declares, Bool.or_eq_false_iff]
  constructor
  · rw [List.any_eq_false]
    intro node _
    simpa using hnode node
  · rw [Tree.declares, Tree.find?, Option.isSome_eq_false_iff, Option.isNone_iff_eq_none,
      List.find?_eq_none]
    intro node _
    cases hc : d.tree.construct? node with
    | none => simp
    | some c =>
      have hdeclared := hnode node
      rw [hc] at hdeclared
      simpa using hdeclared

namespace Draft.Agrees

variable {Γ : Env} {d : Draft}

/-! ## What names mean -/

theorem enclosing?_eq (h : d.Agrees Γ) : d.enclosing? = Γ.heading := by
  rw [enclosing?, ← List.head?_filterMap, h.headings]
  cases Γ.heading <;> rfl

theorem isParameter_eq (h : d.Agrees Γ) (name : String) :
    d.isParameter name = Γ.isParameter name := by
  have hany : d.isParameter name
      = (d.blocks.filterMap d.heading?).any fun heading => (heading.parameter? name).isSome := by
    rw [isParameter, List.any_filterMap]
    congr 1
    funext block
    cases d.heading? block <;> rfl
  rw [hany, h.headings, Env.isParameter]
  cases Γ.heading <;> simp

theorem callable?_eq (h : d.Agrees Γ) : d.callable? = Γ.callable? := by
  funext name
  cases hr : Γ.routine? name with
  | none => simp only [callable?, Env.callable?, h.routines, h.enclosing?_eq, hr]
  | some r => simp only [callable?, Env.callable?, h.routines, hr]

theorem isReadOnly_eq (h : d.Agrees Γ) : d.isReadOnly = Γ.isReadOnly := by
  funext id
  cases hp : Γ.heading.bind (·.parameter? id) with
  | none => simp only [isReadOnly, Env.isReadOnly, h.enclosing?_eq, hp]
  | some parameter => simp only [isReadOnly, Env.isReadOnly, h.enclosing?_eq, hp]

/-- The scope of the innermost block. -/
theorem scope_eq (h : d.Agrees Γ) : d.scope = Γ.scope := by
  have hhead := congrArg List.head? h.scopes
  rw [List.head?_map, List.head?_map, Γ.scope_eq] at hhead
  rw [Draft.scope, hhead]
  rfl

/-- The first open block whose scope has the name in the table is the innermost level that declares
it. -/
theorem find?_candidates (h : d.Agrees Γ) {name : String} (hname : Name.IsSegment name) :
    (d.candidates name).find? d.declared.contains
      = (Γ.levels.find? (name ∈ ·.names)).map fun l => Name.qualify l.scope name := by
  have hcandidates : d.candidates name = Γ.levels.map fun l => Name.qualify l.scope name := by
    -- only scopes matter for the candidates, and those agree
    have hmap := congrArg (List.map fun scope => Name.qualify scope name) h.scopes
    rwa [List.map_map, List.map_map] at hmap
  rw [hcandidates, List.find?_map]
  congr 1
  refine List.find?_congr fun l hl => ?_
  have htable := h.table l hl name hname
  rw [Bool.eq_iff_iff, Function.comp_apply, htable, decide_eq_true_iff]

/-- What is not in the table is declared nowhere. -/
theorem declares_eq_false (h : d.Agrees Γ) (block : OpenBlock) {id : String}
    (hid : d.declared.contains id = false) : d.declares block id = false :=
  d.declares_eq_false_of_covered h.covered block hid

/-- What a draft resolves is what the environment says. -/
theorem resolve?_eq (h : d.Agrees Γ) {name : String} (hname : Name.IsSegment name) :
    d.resolve? name = Γ.resolve name := by
  rw [Draft.resolve?, Env.resolve, h.isParameter_eq]
  split
  · rfl
  · rw [← h.find?_candidates hname]
    split
    · rename_i id hfind
      exact hfind.symm
    · rename_i hnone
      -- the search of the tree behind the table finds nothing that is not in the table
      have hblocks : d.blocks.find? (fun b => d.declares b (Name.qualify b.scope name)) = none := by
        rw [List.find?_eq_none] at hnone ⊢
        intro block hblock
        have hfree := hnone _ (List.mem_map_of_mem hblock)
        rw [Bool.not_eq_true] at hfree ⊢
        exact h.declares_eq_false block hfree
      rw [hnone, hblocks]
      rfl

end Draft.Agrees

/-- What can be named where a draft stands can be named in the environment it agrees with. -/
theorem Draft.Agrees.names_le {Γ : Env} {d : Draft} (h : d.Agrees Γ)
    (hplain : Token.AllPlain d.tokens) : d.names.Le Γ.names := by
  have hreads : ∀ id, d.names.reads id → Γ.names.reads id := by
    rintro id ⟨name, ⟨l, hl, hname⟩, hr⟩
    have hsegment := (hplain l hl name hname).segment
    rw [h.resolve?_eq hsegment] at hr
    show Γ.resolve (Name.bare id) = some id
    -- a name is kept under an id, and the environment is asked by the name in it
    rw [Γ.bare_of_resolve hsegment hr, hr]
  refine ⟨hreads, fun id hw => ⟨hreads id hw.1, ?_⟩, fun name heading hc => ?_, h.enclosing?_eq⟩
  · rw [← h.isReadOnly_eq]
    exact hw.2
  · show Γ.callable? name = some heading
    rw [← h.callable?_eq]
    exact hc

/-! ## Steps that only move the tree -/

/-- An open block has the heading of its node. -/
theorem Draft.heading?_eq (d : Draft) (b : OpenBlock) :
    d.heading? b = (d.tree.construct? b.node).bind Construct.heading? := by
  rw [heading?]
  cases d.tree.construct? b.node with
  | none => rfl
  | some c => cases c <;> rfl

/-- The headings of the open blocks depend on their nodes only. -/
theorem Draft.filterMap_heading? {d d' : Draft} (hkeeps : d.tree.Keeps d'.tree)
    (hnodes : ∀ b ∈ d.blocks, b.node < d.tree.size)
    (hkeys : d'.blocks.map (·.node) = d.blocks.map (·.node)) :
    d'.blocks.filterMap d'.heading? = d.blocks.filterMap d.heading? := by
  have hmap : ∀ x : Draft, x.blocks.filterMap x.heading?
      = (x.blocks.map (·.node)).filterMap fun id =>
          (x.tree.construct? id).bind Construct.heading? := by
    intro x
    rw [List.filterMap_map]
    exact List.filterMap_congr fun b _ => x.heading?_eq b
  rw [hmap, hmap, hkeys]
  refine List.filterMap_congr fun id hid => ?_
  obtain ⟨b, hb, rfl⟩ := List.mem_map.1 hid
  exact hkeeps.heading _ (hnodes b hb)

/-- A step that leaves the tables alone; what new nodes declare is in the table already. -/
theorem Draft.Agrees.change {Γ : Env} {d d' : Draft} (h : d.Agrees Γ)
    (hkeys : d'.blocks.map (fun b => (b.node, b.scope)) = d.blocks.map fun b => (b.node, b.scope))
    (hkeeps : d.tree.Keeps d'.tree) (hroutines : d'.routines = d.routines)
    (hdeclared : d'.declared = d.declared) (hcount : d'.blockCount = d.blockCount)
    (hnew : ∀ (id : Nat) (x : String), d.tree.size ≤ id →
      (d'.tree.construct? id).bind Construct.declared? = some x → d.declared.contains x = true) :
    d'.Agrees Γ := by
  have hnode : d'.blocks.map (·.node) = d.blocks.map (·.node) := by
    simpa [Function.comp_def] using congrArg (List.map Prod.fst) hkeys
  have hscope : d'.blocks.map (·.scope) = d.blocks.map (·.scope) := by
    simpa [Function.comp_def] using congrArg (List.map Prod.snd) hkeys
  refine ⟨hcount ▸ h.regular, hscope.trans h.scopes, ?_, fun b hb => ?_, hroutines ▸ h.routines,
    fun id x hx => ?_, hdeclared ▸ h.table, hdeclared ▸ hcount ▸ h.known⟩
  · exact (Draft.filterMap_heading? hkeeps h.nodes hnode).trans h.headings
  · have hmem : b.node ∈ d'.blocks.map (·.node) := List.mem_map_of_mem hb
    rw [hnode] at hmem
    obtain ⟨b', hb', heq⟩ := List.mem_map.1 hmem
    rw [← heq]
    exact Nat.lt_of_lt_of_le (h.nodes b' hb') hkeeps.size
  · rw [hdeclared]
    by_cases hid : (id : Nat) < d.tree.size
    · rw [hkeeps.declared id hid] at hx
      exact h.covered id x hx
    · exact hnew id x (Nat.le_of_not_lt hid) hx

/-- Reading tokens changes nothing that names depend on. -/
theorem Draft.Agrees.skips {Γ : Env} {d d' : Draft} (h : d.Agrees Γ) (hs : d.Skips d') :
    d'.Agrees Γ := by
  refine h.change (by rw [hs.blocks]) hs.keeps hs.routines hs.declared hs.blockCount
    fun id x hid hx => ?_
  rw [hs.tree, Tree.construct?_of_size_le hid] at hx
  cases hx

theorem Draft.Agrees.attached {Γ : Env} {d : Draft} (h : d.Agrees Γ) (node : NodeId) :
    (d.attached node).Agrees Γ := by
  obtain ⟨hkeeps, hsize⟩ := d.attached_tree node
  refine h.change (d.blocks_attached node).2 hkeeps (d.routines_attached node)
    (d.declared_attached node) (d.blockCount_attached node) fun id x hid hx => ?_
  rw [Tree.construct?_of_size_le (by omega)] at hx
  cases hx

/-- The tree grew by a node, and perhaps a slot was filled. -/
theorem Draft.Agrees.planted {Γ : Env} {d : Draft} (h : d.Agrees Γ) {c : Construct} {line : Nat}
    {tree : Tree} (hc : ∀ x, c.declared? = some x → d.declared.contains x = true)
    (hkeeps : (d.tree.allocate c line).2.Keeps tree) (hsize : tree.size = d.tree.size + 1) :
    (d.planted tree).Agrees Γ := by
  refine h.change rfl ((Tree.keeps_allocate _ _ _).trans hkeeps) rfl rfl rfl fun id x hid hx => ?_
  have hx' : (tree.construct? id).bind Construct.declared? = some x := hx
  by_cases heq : id = d.tree.size
  · subst heq
    rw [hkeeps.declared _ (by rw [Tree.size_allocate]; omega), Tree.construct?_allocate] at hx'
    exact hc x hx'
  · rw [Tree.construct?_of_size_le (by omega)] at hx'
    cases hx'

theorem Draft.Agrees.allocated {Γ : Env} {d : Draft} (h : d.Agrees Γ) {c : Construct} {line : Nat}
    (hc : ∀ x, c.declared? = some x → d.declared.contains x = true) :
    (d.allocated c line).Agrees Γ :=
  h.planted hc (.refl _) (Tree.size_allocate _ _ _)

/-! ## A declaration -/

/-- A variable was registered in the innermost block. -/
theorem Draft.Agrees.registered {Γ : Env} {d : Draft} (h : d.Agrees Γ) {v : Variable}
    (hid : v.id = Name.qualify d.scope v.name) (hname : Name.IsSegment v.name) :
    (d.registered v).Agrees (Γ.declare v.name) := by
  have hscopes := Γ.map_scope_declare v.name
  obtain ⟨l, outer, hlevels⟩ := List.exists_cons_of_ne_nil Γ.levels_ne_nil
  have hscope : Γ.scope = l.scope := by
    have heq := Γ.scope_eq
    rw [hlevels] at heq
    exact (Option.some.inj heq).symm
  rw [h.scope_eq, hscope] at hid
  have hcontains : ∀ id, (d.registered v).declared.contains id
      = (id == Name.qualify l.scope v.name || d.declared.contains id) := by
    intro id
    rw [← hid]
    exact Table.contains_insert _ _ _ _
  refine ⟨h.regular.declare v.name, h.scopes.trans hscopes.symm, ?_, h.nodes, ?_, ?_, ?_, ?_⟩
  · rw [Γ.heading_declare]
    exact h.headings
  · intro name
    rw [Env.routine?, Γ.routines_declare]
    exact h.routines name
  · intro id x hx
    rw [hcontains, h.covered id x hx, Bool.or_true]
  · intro m hm name hname'
    rw [Γ.levels_declare, hlevels, List.modifyHead_cons, List.mem_cons] at hm
    rw [hcontains, Bool.or_eq_true, beq_iff_eq]
    -- the innermost level has one name more, and the others are in other scopes
    rcases hm with rfl | hm
    · have htable := h.table l (by simp [hlevels]) name hname'
      show Name.qualify l.scope name = _ ∨ d.declared.contains (Name.qualify l.scope name) = true
        ↔ name ∈ l.names ++ [v.name]
      rw [Name.qualify_inj hname' hname, htable, List.mem_append, List.mem_singleton, or_comm]
      simp
    · have htable := h.table m (by simp [hlevels, hm]) name hname'
      rw [Name.qualify_inj hname' hname, htable]
      refine or_iff_right ?_
      rintro ⟨hsame, -⟩
      have hdistinct := h.regular.distinct
      rw [hlevels, List.map_cons, List.nodup_cons, ← hsame] at hdistinct
      exact hdistinct.1 (List.mem_map_of_mem hm)
  · intro id hcontained
    rw [hcontains, Bool.or_eq_true, beq_iff_eq] at hcontained
    have hsame : ∀ {scope}, Γ.Known d.blockCount scope →
        (Γ.declare v.name).Known d.blockCount scope :=
      fun hk => hk.of_eq hscopes (Γ.routines_declare _) (Γ.unit_scope_declare _)
    rcases hcontained with rfl | hcontained
    · refine ⟨l.scope, v.name, rfl, hname, hsame (Or.inr (Or.inl ?_))⟩
      simp [hlevels]
    · obtain ⟨scope, name, rfl, hname', hknown⟩ := h.known id hcontained
      exact ⟨scope, name, rfl, hname', hsame hknown⟩

/-! ## Opening and closing a block -/

theorem Draft.Agrees.counted {Γ : Env} {d : Draft} (h : d.Agrees Γ) : d.counted.Agrees Γ := by
  have hle : d.blockCount ≤ d.counted.blockCount := Nat.le_succ _
  refine ⟨h.regular.mono hle, h.scopes, h.headings, h.nodes, h.routines, h.covered, h.table,
    fun id hid => ?_⟩
  obtain ⟨scope, name, heq, hname, hknown⟩ := h.known id hid
  exact ⟨scope, name, heq, hname, hknown.mono hle⟩

/-- Nothing was declared in a scope that was never used. -/
theorem Draft.Agrees.not_contains {Γ : Env} {d : Draft} (h : d.Agrees Γ) {scope name : String}
    (hscope : ¬ Γ.Known d.blockCount scope) (hname : Name.IsSegment name) :
    d.declared.contains (Name.qualify scope name) = false := by
  rw [← Bool.not_eq_true]
  intro hcontains
  obtain ⟨scope', name', heq, hname', hknown⟩ := h.known _ hcontains
  obtain ⟨rfl, -⟩ := (Name.qualify_inj hname hname').1 heq
  exact hscope hknown

/-- A block was opened whose scope is new. -/
theorem Draft.Agrees.opened {Γ : Env} {d : Draft} (h : d.Agrees Γ) {node : NodeId}
    {scope : String} {heading : Option Heading} (hnode : node < d.tree.size)
    (hheading : heading.toList
      = ((d.tree.construct? node).bind Construct.heading?).toList ++ Γ.heading.toList)
    (hkind : Name.Numbered d.blockCount scope ∨ Name.NamedIn Γ.unit.scope scope)
    (hnew : scope ∉ Γ.levels.map (·.scope))
    (hfree : ∀ name, Name.IsSegment name →
      d.declared.contains (Name.qualify scope name) = false) :
    (d.opened node scope).Agrees { Γ with heading, inner := ⟨scope, []⟩ :: Γ.inner } := by
  refine ⟨⟨h.regular.unit, ?_, ?_, h.regular.routines, ?_⟩, ?_, ?_, ?_, h.routines, h.covered, ?_,
    ?_⟩
  · rintro s hs
    rcases List.mem_cons.1 hs with rfl | hs
    · exact hkind
    · exact h.regular.kinds s hs
  · exact List.nodup_cons.2 ⟨hnew, h.regular.distinct⟩
  · intro hinner
    cases hinner
  · exact congrArg (scope :: ·) h.scopes
  · show ((⟨node, scope, []⟩ : OpenBlock) :: d.blocks).filterMap d.heading? = heading.toList
    rw [hheading, ← h.headings, List.filterMap_cons, Draft.heading?_eq]
    cases (d.tree.construct? node).bind Construct.heading? <;> rfl
  · intro b hb
    rcases List.mem_cons.1 hb with rfl | hb
    · exact hnode
    · exact h.nodes b hb
  · intro l hl name hname
    rcases List.mem_cons.1 hl with rfl | hl
    · -- The new block has declared nothing, and nothing was declared under its scope before.
      show d.declared.contains (Name.qualify scope name) = true ↔ name ∈ []
      simp [hfree name hname]
    · exact h.table l hl name hname
  · intro id hid
    obtain ⟨s, name, heq, hname, hknown⟩ := h.known id hid
    refine ⟨s, name, heq, hname, hknown.imp_right (Or.imp_left fun hs => ?_)⟩
    exact List.mem_cons_of_mem scope hs

/-- A block was read and closed again, and perhaps a routine was registered.  What was declared in
the block stays in the table, under a scope that is known as that of a finished block. -/
theorem Draft.Agrees.closed {Γ Γ' : Env} {d d' : Draft} (h : d.Agrees Γ) (h' : d'.Agrees Γ')
    {l : Level} {table : Routines} {routines : List Routine}
    (hlevels : Γ'.levels = l :: Γ.levels) (hunit : Γ'.unit = Γ.unit)
    (hroutines : Γ'.routines = Γ.routines) (hblocks : d'.blocks.tail = d.blocks)
    (hkeeps : d.tree.Keeps d'.tree)
    (htable : ∀ name, table.get? name = routines.find? (·.heading.name == name))
    (hplain : ∀ r ∈ routines, Name.Plain r.heading.name)
    (hmore : ∀ r ∈ Γ.routines, r ∈ routines)
    (hknown : Name.Numbered d'.blockCount l.scope ∨
      ∃ r ∈ routines, l.scope = Name.qualify Γ.unit.scope r.heading.name) :
    (d'.closed.equipped table).Agrees { Γ with routines } := by
  have hscopes : Γ'.levels.map (·.scope) = l.scope :: Γ.levels.map (·.scope) := by
    rw [hlevels, List.map_cons]
  have hregular := h'.regular
  refine ⟨⟨hunit ▸ hregular.unit, fun s hs => ?_, ?_, hplain, h.regular.outside⟩, ?_, ?_,
    fun b hb => ?_, htable, h'.covered, fun m hm => ?_, fun id hid => ?_⟩
  · have hkind := hregular.kinds s (by rw [hscopes]; exact List.mem_cons_of_mem _ hs)
    rwa [hunit] at hkind
  · have hdistinct := hregular.distinct
    rw [hscopes] at hdistinct
    exact (List.nodup_cons.1 hdistinct).2
  · show d'.blocks.tail.map (·.scope) = _
    rw [hblocks]
    exact h.scopes
  · have hnodes : d'.closed.blocks.map (·.node) = d.blocks.map (·.node) :=
      congrArg (List.map (·.node)) hblocks
    have hkeeps' : d.tree.Keeps d'.closed.tree := hkeeps
    exact (Draft.filterMap_heading? hkeeps' h.nodes hnodes).trans h.headings
  · have hb' : b ∈ d.blocks := by
      rw [← hblocks]
      exact hb
    exact Nat.lt_of_lt_of_le (h.nodes b hb') hkeeps.size
  · exact h'.table m (by rw [hlevels]; exact List.mem_cons_of_mem _ hm)
  · obtain ⟨scope, name, heq, hname, hk⟩ := h'.known id hid
    refine ⟨scope, name, heq, hname, ?_⟩
    -- of the levels inside, only the closed one is no longer open
    rcases hk with hk | hk | ⟨r, hr, hk⟩
    · exact Or.inl hk
    · rw [hscopes, List.mem_cons] at hk
      rcases hk with rfl | hk
      · exact hknown.imp_right Or.inr
      · exact Or.inr (Or.inl hk)
    · rw [hroutines] at hr
      rw [hunit] at hk
      exact Or.inr (Or.inr ⟨r, hmore r hr, hk⟩)

end Grammar

end Primer
