import Primer.Proofs.Scope.Fresh

/-!
# Primer.Proofs.Scope.Symbols — the tables of a program mirror its tree.

Reading fills two tables beside the tree: a variable is registered before its node is made, and a
routine when its body has been read.  Both tables end up as lists of what the tree declares, in the
order of its nodes.

The scopes of blocks differ because every block without a name uses up a number.  A user may spell a
name like a numbered label, but such a name makes a scope directly under the unit, and numbered
scopes stand further down.

The three parts of the claim have three inductions over the rules of reading: the entries of the
table of variables are the declarations of what was read, the entries of the table of routines are
its routines, and the scopes of numbered blocks count up (`Name.CountsUp`).  Scopes with names are
told from numbered ones by their texts, and from each other because routines have different names.

Main statement: `Program.ofSource_mirrors`.
-/

namespace Primer

/-! ## What a tree declares -/

namespace Construct

/-- The entry of a declaration in the table of variables. -/
def declaredVariable? : Construct → Option (String × Variable)
  | declaration d => some (d.id, d.fresh)
  | _ => none

/-- The entry of a routine at a node in the table of routines. -/
def declaredRoutine? (node : NodeId) (c : Construct) : Option (String × Routine) :=
  c.heading?.map fun heading => (heading.name, ⟨node, heading⟩)

/-- The scope of a block without a name. -/
def numbered? : Construct → Option String
  | loop scope _ | conditional scope .. | elseIf scope _ | otherwise scope => some scope
  | _ => none

/-- The scope of a block with a name. -/
def named? : Construct → Option String
  | unit _ scope _ | entry scope => some scope
  | routine heading => some heading.scope
  | _ => none

/-- A block has a name or a number. -/
theorem scope?_eq_some_iff {c : Construct} {scope : String} :
    c.scope? = some scope ↔ c.named? = some scope ∨ c.numbered? = some scope := by
  cases c <;> simp [scope?, named?, numbered?]

end Construct

namespace Tree

/-- The entries of all declarations, in the order of the nodes. -/
def declaredVariables (t : Tree) : List (String × Variable) :=
  t.nodes.toList.filterMap fun n => n.construct.declaredVariable?

/-- The entries of all routines, in the order of the nodes. -/
def declaredRoutines (t : Tree) : List (String × Routine) :=
  (List.range t.size).filterMap fun id => (t.construct? id).bind (Construct.declaredRoutine? id)

end Tree

/-! ## What a forest declares -/

namespace Forest

/-- The constructs of a forest, in the order in which they are laid out. -/
def constructs : Forest → List Construct
  | nil => []
  | cons c _ body slots rest => c :: (body.constructs ++ (slots.constructs ++ rest.constructs))

/-- The constructs of two forests in a row. -/
theorem constructs_append (f g : Forest) :
    (f.append g).constructs = f.constructs ++ g.constructs := by
  induction f with
  | nil => rfl
  | cons c line body slots rest _ _ ih =>
    simp only [append, constructs, ih, List.cons_append, List.append_assoc]

/-- The constructs of a forest are those of its layout. -/
theorem map_construct_nodes (owner : Option NodeId) (linkage : Linkage) (start : Nat)
    (f : Forest) : (f.nodes owner linkage start).map (·.construct) = f.constructs := by
  induction f generalizing owner linkage start with
  | nil => rfl
  | cons c line body slots rest ihb ihs ihr => simp [nodes, constructs, ihb, ihs, ihr]

theorem filterMap_constructs {α : Type} (g : Construct → Option α) (c : Construct) (line : Nat)
    (body slots rest : Forest) :
    (cons c line body slots rest).constructs.filterMap g
      = (g c).toList ++ (body.constructs.filterMap g ++ (slots.constructs.filterMap g
        ++ rest.constructs.filterMap g)) := by
  rw [constructs, List.filterMap_cons, List.filterMap_append, List.filterMap_append]
  cases g c <;> rfl

/-- The entries of the routines of a forest that is laid out from `start` on. -/
def declaredRoutines (start : Nat) : Forest → List (String × Routine)
  | nil => []
  | cons c _ body slots rest =>
    (c.declaredRoutine? start).toList ++ (body.declaredRoutines (start + 1)
      ++ (slots.declaredRoutines (start + 1 + body.size)
      ++ rest.declaredRoutines (start + 1 + body.size + slots.size)))

/-- The routines of two forests in a row. -/
theorem declaredRoutines_append (start : Nat) (f g : Forest) :
    (f.append g).declaredRoutines start
      = f.declaredRoutines start ++ g.declaredRoutines (start + f.size) := by
  induction f generalizing start with
  | nil => simp [append, declaredRoutines, size]
  | cons c line body slots rest _ _ ih =>
    simp only [append, declaredRoutines, add_size_cons, ih, List.append_assoc]

end Forest

/-- The routines of a layout, read off the tree. -/
theorem Tree.Lays.routines_eq {t : Tree} {owner : Option NodeId} {linkage : Forest.Linkage}
    {start : Nat} {f : Forest} (h : t.Lays owner linkage start f) :
    (List.range' start f.size).filterMap
        (fun id => (t.construct? id).bind (Construct.declaredRoutine? id))
      = f.declaredRoutines start := by
  induction f generalizing owner linkage start with
  | nil => rfl
  | cons c line body slots rest ihb ihs ihr =>
    obtain ⟨hstands, hrest⟩ := h.parts
    rw [Forest.range'_size_cons, List.filterMap_cons, List.filterMap_append,
      List.filterMap_append, ihb hstands.inBody, ihs hstands.inSlots, ihr hrest,
      hstands.construct?_eq, Option.bind_some, Forest.declaredRoutines]
    cases c.declaredRoutine? start <;> rfl

/-! ## Tables -/

namespace Table

variable {α : Type}

/-- A name that is not taken is entered at the end. -/
theorem entries_insert {t : Table α} {key : String} (h : t.contains key = false) (value : α) :
    (t.insert key value).entries = t.entries ++ [(key, value)] := by
  obtain ⟨entries⟩ := t
  unfold contains get? at h
  unfold insert
  dsimp only at h ⊢
  induction entries with
  | nil => rfl
  | cons entry rest ih =>
    rw [lookup] at h
    rw [put]
    split at h
    · cases h
    · rename_i hne
      rw [if_neg hne, ih h]
      rfl

theorem contains_iff_mem_keys {t : Table α} {key : String} :
    t.contains key = true ↔ key ∈ t.keys := by
  obtain ⟨entries⟩ := t
  unfold contains get? keys
  dsimp only
  induction entries with
  | nil => simp [lookup]
  | cons entry rest ih =>
    rw [lookup, List.map_cons, List.mem_cons, ← ih]
    by_cases hkey : entry.1 = key
    · simp [hkey]
    · simp [hkey, Ne.symm hkey]

end Table

namespace Grammar

/-- The scope of a draft is that of its innermost block. -/
theorem Draft.scope_of_keys {d d' : Draft} (h : d'.blocks.map (fun b => (b.node, b.scope))
    = d.blocks.map (fun b => (b.node, b.scope))) : d'.scope = d.scope := by
  have hhead := congrArg (fun keys => keys.head?.map Prod.snd) h
  simp only [List.head?_map, Option.map_map] at hhead
  exact congrArg (Option.getD · "") hhead

theorem Draft.scope_of_blocks {d d' : Draft} (h : d'.blocks = d.blocks) : d'.scope = d.scope :=
  Draft.scope_of_keys (by rw [h])

/-- What is read behind a statement that was placed is read in the same scope. -/
theorem Reads.scope_attached {role : Role} {d d' : Draft} {f : Forest} (h : Reads role d f d')
    (node : NodeId) : (d'.attached node).scope = d.scope :=
  Draft.scope_of_keys ((d'.blocks_attached node).2.trans h.sameBlocks.keys)

/-- What a declaration reads it registers, and nothing else is registered. -/
theorem Reads.variables_eq {role : Role} {d d' : Draft} {f : Forest} (h : Reads role d f d') :
    d'.declared.entries
      = d.declared.entries ++ f.constructs.filterMap Construct.declaredVariable? := by
  induction h with
  | @declaration d d₁ line v taken written sound id_eq new =>
    rw [← taken.declared] at new ⊢
    exact Table.entries_insert new v.fresh
  | @simple d d₁ line c taken kind sound =>
    have hnone : (Forest.leaf c line).constructs.filterMap Construct.declaredVariable? = [] := by
      cases c <;> first | rfl | exact kind.elim
    rw [hnone, List.append_nil, ← taken.declared]
    rfl
  | @loop d d₁ d₂ d₃ line scope condition body taken sound scope_eq inside rest ih =>
    have hbody : d₂.closed.declared.entries = d₁.declared.entries ++ _ := ih
    rw [rest.declared, ← taken.declared, Forest.block, Forest.filterMap_constructs]
    exact hbody.trans (by simp [Forest.constructs, Construct.declaredVariable?])
  | @conditional d d₁ d₂ d₃ d₄ line scope condition body slots taken sound scope_eq inside after
      rest ihb ihs =>
    obtain ⟨elseIfs, last, hfill⟩ := slots.exists_fill_eq d₂.tree.size scope condition [] none
    have hbody : d₂.closed.declared.entries = d₁.declared.entries ++ _ := ihb
    rw [hbody] at ihs
    -- The body is registered first, then the branches: the order of the forest.
    rw [rest.declared, ← taken.declared, hfill, ihs, Forest.filterMap_constructs]
    simp [Forest.constructs, Construct.declaredVariable?]
  | @elseIf d d₁ d₂ d₃ conditional line scope condition tree body slots taken sound scope_eq placed
      inside after ihb ihs =>
    have hbody : d₂.closed.declared.entries = d₁.declared.entries ++ _ := ihb
    rw [hbody] at ihs
    rw [← taken.declared, ihs, Forest.filterMap_constructs]
    simp [Forest.constructs, Construct.declaredVariable?]
  | @otherwise d d₁ d₂ conditional line scope tree body taken scope_eq placed inside ih =>
    have hbody : d₂.closed.declared.entries = d₁.declared.entries ++ _ := ih
    rw [← taken.declared, Forest.block, Forest.filterMap_constructs]
    exact hbody.trans (by simp [Forest.constructs, Construct.declaredVariable?])
  | @routine d d₁ d₂ d₃ line heading routines body taken outermost written distinct parameters
      scope_eq inside rest defined ih =>
    have hbody : d₂.closed.declared.entries = d₁.declared.entries ++ _ := ih
    show d₃.declared.entries = _
    rw [rest.declared, ← taken.declared, Forest.block, Forest.filterMap_constructs]
    exact hbody.trans (by simp [Forest.constructs, Construct.declaredVariable?])
  | done list => simp [Forest.constructs]
  | @item list role d d₁ d₂ f g admitted first more ihf ihm =>
    rw [Draft.declared_attached] at ihm
    rw [ihm, ihf, Forest.constructs_append, List.filterMap_append, List.append_assoc]

/-- No block with a name is read but a routine, and none is inside a routine. -/
theorem Reads.unnamed {role : Role} {d d' : Draft} {f : Forest} (h : Reads role d f d') :
    role ≠ .routine → role ≠ .items →
      f.constructs.filterMap Construct.named? = [] ∧ ∀ start, f.declaredRoutines start = [] := by
  induction h with
  | declaration => exact fun _ _ => ⟨rfl, fun _ => rfl⟩
  | @simple d d₁ line c taken kind sound =>
    intro _ _
    cases c <;> first | exact ⟨rfl, fun _ => rfl⟩ | exact kind.elim
  | loop _ _ _ _ _ ih | otherwise _ _ _ _ ih =>
    intro _ _
    obtain ⟨hnamed, hroutines⟩ := ih (by simp) (by simp)
    rw [Forest.block, Forest.filterMap_constructs, hnamed]
    exact ⟨rfl, fun start => by rw [Forest.declaredRoutines, hroutines]; rfl⟩
  | @conditional d d₁ d₂ d₃ d₄ line scope condition body slots taken sound scope_eq inside after
      rest ihb ihs =>
    intro _ _
    obtain ⟨elseIfs, last, hfill⟩ := slots.exists_fill_eq d₂.tree.size scope condition [] none
    obtain ⟨hnamed, hroutines⟩ := ihb (by simp) (by simp)
    obtain ⟨hnamed', hroutines'⟩ := ihs (by simp) (by simp)
    rw [hfill, Forest.filterMap_constructs, hnamed, hnamed']
    exact ⟨rfl, fun start => by rw [Forest.declaredRoutines, hroutines, hroutines']; rfl⟩
  | elseIf _ _ _ _ _ _ ihb ihs =>
    intro _ _
    obtain ⟨hnamed, hroutines⟩ := ihb (by simp) (by simp)
    obtain ⟨hnamed', hroutines'⟩ := ihs (by simp) (by simp)
    rw [Forest.filterMap_constructs, hnamed, hnamed']
    refine ⟨rfl, fun start => ?_⟩
    rw [Forest.declaredRoutines, hroutines, hroutines']
    rfl
  | routine => exact fun hr => absurd rfl hr
  | done => exact fun _ _ => ⟨rfl, fun _ => rfl⟩
  | @item list role d d₁ d₂ f g admitted first more ihf ihm =>
    intro hr hi
    obtain ⟨hr', hi'⟩ := admitted.ne_routine hi
    obtain ⟨hnamed, hroutines⟩ := ihf hr' hi'
    obtain ⟨hnamed', hroutines'⟩ := ihm hr hi
    rw [Forest.constructs_append, List.filterMap_append, hnamed, hnamed']
    exact ⟨rfl, fun start => by rw [Forest.declaredRoutines_append, hroutines, hroutines']; rfl⟩

/-- What is read as a routine is registered behind those before it, under a new name, and is the
block of that name. -/
structure Draft.Equips (d : Draft) (f : Forest) (d' : Draft) : Prop where
  registered : d'.routines.entries = d.routines.entries ++ f.declaredRoutines d.tree.size
  distinct : d.routines.keys.Nodup → d'.routines.keys.Nodup
  scopes : f.constructs.filterMap Construct.named?
    = (f.declaredRoutines d.tree.size).map fun entry => Name.qualify d.scope entry.1
  plain : Token.AllPlain d.tokens → ∀ entry ∈ f.declaredRoutines d.tree.size, Name.Plain entry.1

/-- Inside blocks no routine is read, so the table stays what it is. -/
theorem Reads.equips_inner {role : Role} {d d' : Draft} {f : Forest} (h : Reads role d f d')
    (hr : role ≠ .routine) (hi : role ≠ .items) : d.Equips f d' := by
  obtain ⟨hnamed, hroutines⟩ := h.unnamed hr hi
  refine ⟨?_, ?_, ?_, ?_⟩
  · rw [h.routines_eq hr hi, hroutines, List.append_nil]
  · rw [h.routines_eq hr hi]
    exact id
  · rw [hnamed, hroutines]
    rfl
  · rw [hroutines]
    exact fun _ _ hentry => absurd hentry List.not_mem_nil

/-- Reading a forest puts its routines into the table. -/
theorem Reads.equips {role : Role} {d d' : Draft} {f : Forest} (h : Reads role d f d') :
    d.Equips f d' := by
  induction h with
  | @routine d d₁ d₂ d₃ line heading routines body taken outermost written distinct parameters
      scope_eq inside rest defined ih =>
    obtain ⟨hfree, hroutines⟩ := define_ok defined
    have hkept : d₃.routines = d.routines :=
      rest.routines.trans ((inside.routines_eq (by simp) (by simp)).trans taken.routines)
    -- No routine stands in a body, so the table is still the one from before the heading.
    have hnew : d.routines.contains heading.name = false := by
      rw [Table.contains, ← hkept, hfree]
      rfl
    have hentries : routines.entries
        = d.routines.entries ++ [(heading.name, ⟨d.tree.size, heading⟩)] := by
      rw [hroutines, hkept, ← taken.tree]
      exact Table.entries_insert hnew _
    obtain ⟨hnamed, hinside⟩ := inside.unnamed (by simp) (by simp)
    have hown : (Forest.block (.routine heading) line body).declaredRoutines d.tree.size
        = [(heading.name, ⟨d.tree.size, heading⟩)] := by
      rw [Forest.block, Forest.declaredRoutines, hinside]
      rfl
    refine ⟨by rw [hown]; exact hentries, fun hnodup => ?_, ?_, fun hplain entry hentry => ?_⟩
    · show routines.keys.Nodup
      rw [Table.keys, hentries, List.map_append, List.nodup_append]
      refine ⟨hnodup, by simp, fun name hname other hother heq => ?_⟩
      rw [List.map_singleton, List.mem_singleton] at hother
      have hmem : heading.name ∈ d.routines.keys := by
        rw [heq, hother] at hname
        exact hname
      rw [← Table.contains_iff_mem_keys, hnew] at hmem
      cases hmem
    · rw [hown, Forest.block, Forest.filterMap_constructs, hnamed]
      exact congrArg (fun scope => [scope]) scope_eq
    · rw [hown, List.mem_singleton] at hentry
      rw [hentry]
      exact written.plain hplain
  | @done role d list =>
    exact ⟨(List.append_nil _).symm, id, rfl, fun _ _ hentry => absurd hentry List.not_mem_nil⟩
  | @item list role d d₁ d₂ f g admitted first more ihf ihm =>
    obtain ⟨hregistered, hdistinct, hscopes, hplain⟩ := ihm
    rw [(d₁.attached_tree _).2, first.size_eq] at hregistered hscopes hplain
    rw [Draft.routines_attached] at hregistered hdistinct
    rw [first.scope_attached] at hscopes
    refine ⟨?_, fun hnodup => hdistinct (ihf.distinct hnodup), ?_, fun hall entry hentry => ?_⟩
    · rw [hregistered, ihf.registered, Forest.declaredRoutines_append, List.append_assoc]
    · rw [Forest.constructs_append, List.filterMap_append, ihf.scopes, hscopes,
        Forest.declaredRoutines_append, List.map_append]
    · rw [Forest.declaredRoutines_append, List.mem_append] at hentry
      exact hentry.elim (ihf.plain hall entry) (hplain (first.allPlain_attached hall _) entry)
  -- What stands in a body has no routine in it.
  | _ => exact Reads.equips_inner (by constructor <;> assumption) (by simp) (by simp)

end Grammar

/-! ## Scopes -/

/-- These scopes have numbers that were used up on the way from one count to another, each of them
once. -/
structure Name.CountsUp (start : Nat) (scopes : List String) (stop : Nat) : Prop where
  le : start ≤ stop
  numbered : ∀ scope ∈ scopes, Numbered stop scope ∧ ¬ Numbered start scope
  distinct : scopes.Nodup

namespace Name.CountsUp

variable {start mid stop : Nat} {scopes more : List String}

theorem nil (count : Nat) : CountsUp count [] count :=
  ⟨Nat.le_refl count, fun _ hs => absurd hs List.not_mem_nil, List.nodup_nil⟩

/-- A block without a name has used up the next number. -/
theorem single {outer label : String} (hlabel : IsLabel label) (houter : isQualified outer = true)
    (count : Nat) :
    CountsUp count [qualify outer (label ++ toString (count + 1))] (count + 1) := by
  refine ⟨Nat.le_succ count, fun scope hs => ?_, by simp⟩
  rw [List.mem_singleton.1 hs]
  exact ⟨numbered_next hlabel houter count, not_numbered_next hlabel count⟩

/-- Numbers that are counted up in two stretches. -/
theorem trans (h : CountsUp start scopes mid) (h' : CountsUp mid more stop) :
    CountsUp start (scopes ++ more) stop := by
  refine ⟨Nat.le_trans h.le h'.le, fun scope hs => ?_, ?_⟩
  · rcases List.mem_append.1 hs with hs | hs
    · exact ⟨(h.numbered scope hs).1.mono h'.le, (h.numbered scope hs).2⟩
    · exact ⟨(h'.numbered scope hs).1, fun hn => (h'.numbered scope hs).2 (hn.mono h.le)⟩
  · refine List.nodup_append.2 ⟨h.distinct, h'.distinct, fun scope hs other hother heq => ?_⟩
    -- what has a number on the first part of the way has none of the second
    rw [← heq] at hother
    exact (h'.numbered scope hother).2 (h.numbered scope hs).1

end Name.CountsUp

/-- The scopes of the unit, of routines with these names, and of the entry block. -/
def Name.namedScopes (unit : String) (names : List String) : List String :=
  unit :: (names.map (qualify unit) ++ [qualify unit "beginning"])

/-- The name of the entry block is reserved, so no routine has it. -/
theorem Name.nodup_namedScopes {unit : String} {names : List String} (hunit : IsSegment unit)
    (hplain : ∀ name ∈ names, Plain name) (hnames : names.Nodup) :
    (namedScopes unit names).Nodup := by
  have hinj : ∀ name ∈ names, ∀ other, IsSegment other → qualify unit name = qualify unit other →
      name = other := by
    intro name hname other hother heq
    exact ((qualify_inj (hplain name hname).segment hother).1 heq).2
  rw [namedScopes, List.nodup_cons, List.nodup_append]
  refine ⟨fun hmem => ?_, ?_, by simp, fun scope hscope other hother heq => ?_⟩
  · obtain ⟨name, hname⟩ : ∃ name, unit = qualify unit name := by
      rcases List.mem_append.1 hmem with hmem | hmem
      · obtain ⟨name, -, heq⟩ := List.mem_map.1 hmem
        exact ⟨name, heq.symm⟩
      · exact ⟨_, List.mem_singleton.1 hmem⟩
    rw [hname] at hunit
    exact not_isSegment_qualify _ _ hunit
  · rw [List.Nodup, List.pairwise_map]
    refine hnames.imp_of_mem fun {name other} hname hother hne heq => hne ?_
    exact hinj name hname other (hplain other hother).segment heq
  · obtain ⟨name, hname, rfl⟩ := List.mem_map.1 hscope
    rw [List.mem_singleton.1 hother] at heq
    have hfree := (hplain name hname).unreserved
    rw [hinj name hname "beginning" (by decide) heq] at hfree
    exact absurd hfree (by decide)

/-- A routine has its scope right under the unit. -/
theorem Name.namedIn_of_mem_namedScopes (unit : String) {names : List String}
    (hplain : ∀ name ∈ names, Plain name) : ∀ scope ∈ namedScopes unit names,
      NamedIn unit scope := by
  intro scope hscope
  rw [namedScopes, List.mem_cons, List.mem_append] at hscope
  rcases hscope with rfl | hscope | hscope
  · exact Or.inl rfl
  · obtain ⟨name, hname, rfl⟩ := List.mem_map.1 hscope
    exact Or.inr ⟨name, (hplain name hname).segment, rfl⟩
  · exact Or.inr ⟨_, by decide, List.mem_singleton.1 hscope⟩

namespace Grammar

/-- A block without a name uses up a number of its own, and then those of its body. -/
theorem Draft.Skips.countsUp_block {d d₁ d₂ : Draft} {label scope : String} {body : Forest}
    (h : d.Skips d₁) (hqualified : Name.isQualified d.scope = true) (hlabel : Name.IsLabel label)
    (hscope : scope = d₁.nextScope label)
    (hbody : Name.isQualified scope = true → Name.CountsUp (d₁.blockCount + 1)
      (body.constructs.filterMap Construct.numbered?) d₂.blockCount) :
    Name.CountsUp d.blockCount (scope :: body.constructs.filterMap Construct.numbered?)
      d₂.blockCount := by
  have hsame : d₁.scope = d.scope := by rw [h.rest]; rfl
  rw [Draft.nextScope, hsame, h.blockCount] at hscope
  rw [h.blockCount] at hbody
  have hown := Name.CountsUp.single hlabel hqualified d.blockCount
  rw [← hscope] at hown
  refine hown.trans (hbody ?_)
  rw [hscope]
  exact Name.isQualified_qualify _ _

/-- The blocks without names have the numbers that were used up while they were read. -/
theorem Reads.countsUp {role : Role} {d d' : Draft} {f : Forest} (h : Reads role d f d') :
    (role.IsInner → Name.isQualified d.scope = true) →
      Name.CountsUp d.blockCount (f.constructs.filterMap Construct.numbered?) d'.blockCount := by
  induction h with
  | declaration taken =>
    intro _
    rw [← taken.blockCount]
    exact .nil _
  | @simple d d₁ line c taken kind sound =>
    intro _
    have hnone : (Forest.leaf c line).constructs.filterMap Construct.numbered? = [] := by
      cases c <;> first | rfl | exact kind.elim
    rw [hnone, ← taken.blockCount]
    exact .nil _
  | @loop d d₁ d₂ d₃ line scope condition body taken sound scope_eq inside rest ih =>
    intro hinner
    rw [rest.blockCount, Forest.block, Forest.filterMap_constructs]
    show Name.CountsUp d.blockCount _ d₂.blockCount
    have hall := taken.toSkips.countsUp_block (hinner trivial) (Or.inl rfl) scope_eq
      fun hq => ih fun _ => hq
    simpa [Forest.constructs, Construct.numbered?] using hall
  | @conditional d d₁ d₂ d₃ d₄ line scope condition body slots taken sound scope_eq inside after
      rest ihb ihs =>
    intro hinner
    obtain ⟨elseIfs, last, hfill⟩ := slots.exists_fill_eq d₂.tree.size scope condition [] none
    rw [rest.blockCount, hfill, Forest.filterMap_constructs]
    have hbody := taken.toSkips.countsUp_block (hinner trivial) (Or.inr (Or.inl rfl)) scope_eq
      fun hq => ihb fun _ => hq
    -- the branches are no part of the body: they are read in the scope around the conditional
    have hslots := ihs fun _ => by
      rw [Draft.scope_of_blocks (inside.sameBlocks.outer.trans taken.blocks)]
      exact hinner trivial
    simpa [Forest.constructs, Construct.numbered?] using hbody.trans hslots
  | @elseIf d d₁ d₂ d₃ conditional line scope condition tree body slots taken sound scope_eq placed
      inside after ihb ihs =>
    intro hinner
    rw [Forest.filterMap_constructs]
    have hbody := taken.toSkips.countsUp_block (hinner trivial) (Or.inr (Or.inr (Or.inl rfl)))
      scope_eq fun hq => ihb fun _ => hq
    have hslots := ihs fun _ => by
      rw [Draft.scope_of_blocks (inside.sameBlocks.outer.trans taken.blocks)]
      exact hinner trivial
    simpa [Forest.constructs, Construct.numbered?] using hbody.trans hslots
  | @otherwise d d₁ d₂ conditional line scope tree body taken scope_eq placed inside ih =>
    intro hinner
    rw [Forest.block, Forest.filterMap_constructs]
    show Name.CountsUp d.blockCount _ d₂.blockCount
    have hall := taken.toSkips.countsUp_block (hinner trivial) (Or.inr (Or.inr (Or.inr rfl)))
      scope_eq fun hq => ih fun _ => hq
    simpa [Forest.constructs, Construct.numbered?] using hall
  | @routine d d₁ d₂ d₃ line heading routines body taken outermost written distinct parameters
      scope_eq inside rest defined ih =>
    intro _
    rw [Forest.block, Forest.filterMap_constructs]
    show Name.CountsUp d.blockCount _ d₃.blockCount
    rw [rest.blockCount, ← taken.blockCount]
    -- the block of a routine has a name, so it uses up no number of its own
    have hbody : Name.CountsUp d₁.blockCount _ d₂.closed.blockCount := ih fun _ => by
      show Name.isQualified heading.scope = true
      rw [scope_eq]
      exact Name.isQualified_qualify _ _
    simpa [Forest.constructs, Construct.numbered?] using hbody
  | done list =>
    intro _
    exact .nil _
  | @item list role d d₁ d₂ f g admitted first more ihf ihm =>
    intro hinner
    rw [first.scope_attached, Draft.blockCount_attached] at ihm
    rw [Forest.constructs_append, List.filterMap_append]
    exact (ihf fun hr => hinner (admitted.isInner hr)).trans (ihm hinner)

/-- No two blocks of a program have the same scope. -/
theorem ReadsProgram.scopes_distinct {tokens : List Lexeme} {f : Forest} {p : Program}
    (h : ReadsProgram tokens f p) (hplain : Token.AllPlain tokens) :
    (f.constructs.filterMap Construct.scope?).Nodup := by
  cases h with
  | @intro d d₁ d₂ d₃ d₄ line entryLine name scope tree tree' items body taken written placed inside
      begun scope_eq entryPlaced entered rest complete =>
  let f := Forest.cons (.unit name name (some d₂.tree.size)) line items
    (.block (.entry scope) entryLine body) .nil
  let names := (items.declaredRoutines tree.size).map (·.1)
  have hunit : Name.IsSegment name := (written.plain hplain).segment
  have hitems := inside.equips
  -- the blocks with names
  have hplain' : ∀ short ∈ names, Name.Plain short := by
    intro short hshort
    obtain ⟨entry, hentry, rfl⟩ := List.mem_map.1 hshort
    exact hitems.plain (taken.allPlain hplain) entry hentry
  have hnames : names.Nodup := by
    have hempty : d.routines = .empty := taken.routines
    have hentries : d₁.routines.entries = d.routines.entries ++ items.declaredRoutines tree.size :=
      hitems.registered
    have hkeys : d₁.routines.keys = names := by
      rw [Table.keys, hentries, hempty]
      rfl
    rw [← hkeys]
    refine hitems.distinct ?_
    show d.routines.keys.Nodup
    rw [hempty]
    exact List.nodup_nil
  have hnamed : f.constructs.filterMap Construct.named? = Name.namedScopes name names := by
    have hscopes : items.constructs.filterMap Construct.named?
        = (items.declaredRoutines tree.size).map fun entry => Name.qualify name entry.1 :=
      hitems.scopes
    rw [Forest.filterMap_constructs, Forest.block, Forest.filterMap_constructs, hscopes,
      (entered.unnamed (by simp) (by simp)).1, scope_eq, Name.namedScopes, List.map_map]
    rfl
  have hdistinct := Name.nodup_namedScopes hunit hplain' hnames
  have hin := Name.namedIn_of_mem_namedScopes name hplain'
  rw [← hnamed] at hdistinct hin
  -- the blocks without names: those of the items, and then those of the entry block
  have hcounts : Name.CountsUp d.blockCount (f.constructs.filterMap Construct.numbered?)
      d₃.blockCount := by
    have hitems : Name.CountsUp d.blockCount _ d₁.blockCount := inside.countsUp fun hr => hr.elim
    have hbody : Name.CountsUp d₂.blockCount _ d₃.blockCount := entered.countsUp fun _ => by
      show Name.isQualified scope = true
      rw [scope_eq]
      exact Name.isQualified_qualify _ _
    rw [begun.blockCount] at hbody
    rw [Forest.filterMap_constructs, Forest.block, Forest.filterMap_constructs]
    simpa [Forest.constructs, Construct.numbered?] using hitems.trans hbody
  rw [List.Nodup, List.pairwise_filterMap]
  have hall :=
    (List.pairwise_filterMap.1 hdistinct).and (List.pairwise_filterMap.1 hcounts.distinct)
  refine hall.imp_of_mem fun {c c'} hc hc' hne scope hs other hother heq => ?_
  subst heq
  have hnumbered : ∀ c ∈ f.constructs, c.numbered? = some scope → ¬ Name.NamedIn name scope :=
    fun c hc hs => (hcounts.numbered _ (List.mem_filterMap.2 ⟨c, hc, hs⟩)).1.not_namedIn hunit
  rcases Construct.scope?_eq_some_iff.1 hs with hs | hs <;>
    rcases Construct.scope?_eq_some_iff.1 hother with hother | hother
  · exact hne.1 _ hs _ hother rfl
  · exact hnumbered c' hc' hother (hin _ (List.mem_filterMap.2 ⟨c, hc, hs⟩))
  · exact hnumbered c hc hs (hin _ (List.mem_filterMap.2 ⟨c', hc', hother⟩))
  · exact hne.2 _ hs _ hother rfl

/-- The tables of a program list what was read, in its order. -/
theorem ReadsProgram.tables_eq {tokens : List Lexeme} {f : Forest} {p : Program}
    (h : ReadsProgram tokens f p) :
    p.declared.entries = f.constructs.filterMap Construct.declaredVariable? ∧
      p.routines.entries = f.declaredRoutines 0 ∧ p.routines.keys.Nodup := by
  cases h with
  | @intro d d₁ d₂ d₃ d₄ line entryLine name scope tree tree' items body taken written placed inside
      begun scope_eq entryPlaced entered rest complete =>
  have hempty : d.tree = .empty := taken.tree
  have hdeclared : d.declared = .empty := taken.declared
  have hroutines : d.routines = .empty := taken.routines
  have hsize : tree.size = 1 := by
    rw [Tree.setRoot_ok placed, hempty]
    rfl
  -- Routines stand among the items only, so the entry adds none.
  have hentry := (entered.unnamed (by simp) (by simp)).2
  have hitems := inside.equips
  have hentries : d₁.routines.entries = d.routines.entries ++ items.declaredRoutines tree.size :=
    hitems.registered
  have hkept : d₃.routines = d₁.routines :=
    (entered.routines_eq (by simp) (by simp)).trans begun.routines
  refine ⟨?_, ?_, ?_⟩
  · have hbefore : d₁.declared.entries
        = d.declared.entries ++ items.constructs.filterMap Construct.declaredVariable? :=
      inside.variables_eq
    have hafter : d₃.declared.entries
        = d₂.declared.entries ++ body.constructs.filterMap Construct.declaredVariable? :=
      entered.variables_eq
    show d₃.declared.entries = _
    rw [hafter, begun.declared, hbefore, hdeclared, Forest.filterMap_constructs, Forest.block,
      Forest.filterMap_constructs]
    simp [Forest.constructs, Construct.declaredVariable?, Table.empty]
  · show d₃.routines.entries = _
    rw [hkept, hentries, hroutines, hsize]
    simp [Forest.declaredRoutines, Forest.block, Construct.declaredRoutine?, Construct.heading?,
      Table.empty, hentry]
  · show d₃.routines.keys.Nodup
    rw [hkept]
    refine hitems.distinct ?_
    show d.routines.keys.Nodup
    rw [hroutines]
    exact List.nodup_nil

end Grammar

/-! ## Owners -/

/-- The scope of the innermost block is that of the block which was entered. -/
theorem Env.scope_enter {Γ : Env} {c : Construct} {scope : String} (h : c.scope? = some scope)
    (hallows : Γ.Allows c) : (Γ.enter c).scope = scope := by
  cases c with
  | unit | entry => exact hallows.elim
  | routine | loop | conditional | elseIf | otherwise =>
    cases h
    rfl
  | _ => cases h

/-- A declaration at this node has an id in the scope of the block that owns the node. -/
def Tree.OwnedAt (t : Tree) (id : NodeId) : Prop :=
  ∀ d, t.construct? id = some (.declaration d) →
    ∃ owner scope, t.parent? id = some owner ∧
      (t.construct? owner).bind Construct.scope? = some scope ∧ d.id = Name.qualify scope d.name

/-- What stands in the body of a block is owned by the block, and no declaration is a branch. -/
theorem Forest.ownedAt {t : Tree} (f : Forest) {owner : NodeId} {linkage : Linkage} {start : Nat}
    {Γ : Env} (hlays : t.Lays (some owner) linkage start f) (hsound : f.Sound Γ start)
    (hhome : (t.construct? owner).bind Construct.scope? = some Γ.scope ∨
      f.Tops Construct.IsBranch) :
    ∀ id : Nat, start ≤ id → id < start + f.size → t.OwnedAt id := by
  induction f generalizing owner linkage start Γ with
  | nil =>
    intro id hge hlt
    rw [size] at hlt
    omega
  | cons c line body slots rest ihb ihs ihr =>
    intro id hge hlt
    obtain ⟨hseats, hrest, hmore⟩ := hlays.seats hsound
    have hstands := hseats.stands
    rw [size] at hlt
    by_cases hid : id = start
    · subst hid
      intro d hd
      cases hstands.construct?_eq.symm.trans hd
      refine ⟨owner, Γ.scope, hlays.parent?_of_mem_roots List.mem_cons_self, ?_, hseats.allows.1⟩
      exact hhome.resolve_right fun htops => htops.1
    by_cases hb : id < start + 1 + body.size
    · cases hscope : c.scope? with
      | none =>
        rw [hseats.bears.body hscope, size] at hb
        omega
      | some scope =>
        refine ihb hstands.inBody hseats.inside (Or.inl ?_) id (by omega) hb
        rw [hstands.construct?_eq, Option.bind_some, hscope, Env.scope_enter hscope hseats.allows]
    by_cases hs : id < start + 1 + body.size + slots.size
    · exact ihs hstands.inSlots hseats.branches (Or.inr hseats.bears.slots) id (by omega) hs
    · refine ihr hrest hmore (hhome.imp (fun howner => ?_) fun htops => htops.2) id (by omega)
        (by omega)
      rw [Γ.scope_after, howner]

namespace Program

/-- The id of a declaration is made of the scope of the block around it. -/
theorem Means.ownedAt {p : Program} {o : Outline} (h : p.Means o) (id : Nat) :
    p.tree.OwnedAt id := by
  intro d hd
  have hunit := h.lays.parts.1
  have hlt : id < o.entryNode + 1 + o.body.size := by
    have hsize := Tree.lt_size_of_construct? hd
    rw [Tree.size_eq_length, h.nodes, Forest.length_nodes] at hsize
    simpa [Outline.forest, Outline.entryNode, Forest.size, Forest.block, Nat.add_assoc] using hsize
  by_cases hroot : id = 0
  · subst hroot
    cases hunit.construct?_eq.symm.trans hd
  by_cases hitem : id < o.entryNode
  · refine o.items.ownedAt hunit.inBody h.items (Or.inl ?_) id (Nat.one_le_iff_ne_zero.2 hroot)
      hitem d hd
    rw [hunit.construct?_eq]
    rfl
  by_cases hentry : id = o.entryNode
  · subst hentry
    cases h.stands_entry.construct?_eq.symm.trans hd
  · refine o.body.ownedAt h.stands_entry.inBody h.body (Or.inl ?_) id (by omega) hlt d hd
    rw [h.stands_entry.construct?_eq]
    rfl

/-- The ids of a program are unique, and its tables list what its tree declares. -/
structure Mirrors (p : Program) : Prop where
  /-- No two blocks have the same scope. -/
  scopes : (p.tree.nodes.toList.filterMap (·.construct.scope?)).Nodup
  /-- No two declarations have the same id. -/
  ids : (p.tree.nodes.toList.filterMap (·.construct.declared?)).Nodup
  /-- An id is made of the scope of the block that owns the declaration and of the name. -/
  owned : ∀ id, p.tree.OwnedAt id
  /-- There is one entry for each declaration, with its type and the value of a fresh slot. -/
  declared : p.declared.entries = p.tree.declaredVariables
  /-- There is one entry for each routine, with its node and its heading. -/
  routines : p.routines.entries = p.tree.declaredRoutines
  /-- No two routines have the same name. -/
  names : p.routines.keys.Nodup

/-- The ids of an accepted program are unique, and its tables mirror its tree. -/
theorem ofSource_mirrors {source : String} {p : Program} (h : ofSource source = .ok p) :
    p.Mirrors := by
  obtain ⟨tokens, hscan, hread⟩ := ofTokens_of_ofSource h
  obtain ⟨o, hmeans⟩ := ofSource_means h
  obtain ⟨f, hreads⟩ := ofTokens_reads hread
  obtain ⟨hnodes, hlinked, -, -⟩ := hreads.nodes_eq
  obtain ⟨hvariables, hroutines, hnames⟩ := hreads.tables_eq
  have hcollect : ∀ {α : Type} (g : Construct → Option α),
      p.tree.nodes.toList.filterMap (fun n => g n.construct) = f.constructs.filterMap g := by
    intro α g
    rw [hnodes, ← Forest.map_construct_nodes none (.chain none none) 0 f, List.filterMap_map]
    rfl
  have hlays := Tree.lays_of_toList hnodes hlinked
  have hsize : p.tree.size = f.size := by
    rw [Tree.size_eq_length, hnodes, Forest.length_nodes]
  exact
    { scopes := by
        rw [hcollect]
        exact hreads.scopes_distinct (Token.scan_plain hscan)
      ids := by
        rw [hnodes, Forest.filterMap_nodes]
        exact hreads.distinct
      owned := hmeans.ownedAt
      declared := by rw [hvariables, Tree.declaredVariables, hcollect]
      routines := by
        rw [hroutines, Tree.declaredRoutines, List.range_eq_range', hsize, hlays.routines_eq]
      names := hnames }

/-- The text of a program whose user has taken the labels of blocks for names. -/
def labelText : String :=
  "module demo; procedure public while1() variable integer x; end while1;\n" ++
  "beginning variable integer if2; while true repeat variable integer x; end while; end demo."

/-- A program with a routine that is spelled like a numbered block. -/
theorem labelText_mirrors : ∃ p, ofSource labelText = .ok p ∧ p.Mirrors ∧
    p.tree.nodes.toList.filterMap (·.construct.scope?)
      = ["demo", "demo^while1", "demo^beginning", "demo^beginning^while1"] ∧
    p.tree.declaredVariables.map (·.1)
      = ["demo^while1^x", "demo^beginning^if2", "demo^beginning^while1^x"] ∧
    p.tree.declaredRoutines.map (·.1) = ["while1"] := by
  have hlabels : (ofSource labelText).toOption.map (fun p =>
      (p.tree.nodes.toList.filterMap (·.construct.scope?), p.tree.declaredVariables.map (·.1),
        p.tree.declaredRoutines.map (·.1)))
      = some (["demo", "demo^while1", "demo^beginning", "demo^beginning^while1"],
        ["demo^while1^x", "demo^beginning^if2", "demo^beginning^while1^x"], ["while1"]) := by
    decide +kernel
  cases hp : ofSource labelText with
  | error e =>
    rw [hp] at hlabels
    cases hlabels
  | ok p =>
    rw [hp] at hlabels
    obtain ⟨hscopes, hrest⟩ := Prod.mk.inj (Option.some.inj hlabels)
    obtain ⟨hvariables, hroutines⟩ := Prod.mk.inj hrest
    exact ⟨p, rfl, ofSource_mirrors hp, hscopes, hvariables, hroutines⟩

end Program

end Primer
