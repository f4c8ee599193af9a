import Primer.Proofs.Tree.Edits

/-!
# Primer.Proofs.Tree.Retention — what a walk from the root has listed stays listed.

Whatever calls have built a tree, if every node was placed once and none under itself, then the
nodes under its root form a tree, and the bounded walk lists them all, each once
(`Assembly.Sound`).  A call that succeeds either leaves the lists of nodes alone or puts one node
into one of them (`Sound.rearranged`), so the walk afterwards lists what it listed before, in the
same order.  There is one exception: a conditional that has a branch without a condition takes a
further one, and lets go of the first with all that is under it.

The induction over calls needs the whole of `Assembly.Sound`, since a walk may only be kept if it
was one.  That a call keeps the walk is a statement about lists of successors (`Rearranges`): either
nothing was put in, or one free node was, or one took the place of another.  The last is what
attaching a second branch without a condition does.

Main statement: `Assembly.reachable_kept`.
-/

namespace Primer

namespace Tree

/-! ## Walks from the root -/

/-- The bounded walk of a tree goes as far as its bound. -/
theorem visit_eq_take {t : Tree} {ids l : List NodeId} (h : Walk t.successors ids l) (bound : Nat) :
    t.visit bound ids = l.take bound := by
  induction bound generalizing ids l with
  | zero => rfl
  | succ bound ih =>
    cases h with
    | nil => rfl
    | cons under behind => rw [visit, ih (under.append behind), List.take_succ_cons]

/-- A change under one node alone does not change the way to it. -/
theorem find?_visit {t t' : Tree} {top : NodeId}
    (h : ∀ id, id ≠ top → t'.successors id = t.successors id) {p : NodeId → Bool} (bound : Nat)
    {waiting : List NodeId} (hfound : (t.visit bound waiting).find? p = some top) :
    (t'.visit bound waiting).find? p = some top := by
  induction bound generalizing waiting with
  | zero => cases hfound
  | succ bound ih =>
    cases waiting with
    | nil => cases hfound
    | cons id waiting =>
      rw [visit, List.find?_cons] at hfound ⊢
      split at hfound
      · exact hfound
      · rename_i hid
        have hne : id ≠ top := by
          rintro rfl
          rw [List.find?_some hfound] at hid
          cases hid
        rw [h id hne]
        exact ih hfound

/-- Once the unit has its entry block, a further one is refused. -/
theorem setEntry_setEntry {t tree : Tree} {block : NodeId} (h : t.setEntry block = .ok tree)
    (other : NodeId) : tree.setEntry other = .error .entryAlreadySet := by
  obtain ⟨unit, name, scope, hunit, hc, htree⟩ := setEntry_ok h
  have hconstruct := construct?_adopt hc (.unit name scope (some block)) block
  have hsuccessors : ∀ id, id ≠ unit → tree.successors id = t.successors id := by
    intro id hid
    rw [htree, successors_eq, successors_eq, children_adopt, slots_adopt hc, if_neg hid]
  rw [← htree] at hconstruct
  -- the walk comes to the unit before it comes to what is new, and the unit is still one
  have hunits : (fun id => ((tree.construct? id).map Construct.isUnit).getD false)
      = fun id => ((t.construct? id).map Construct.isUnit).getD false := by
    funext id
    rw [hconstruct]
    split
    · rename_i heq
      rw [heq, hc]
      rfl
    · rfl
  have hroot : tree.root = t.root := by rw [htree, root_adopt]
  have hfound : tree.find? Construct.isUnit = some unit := by
    rw [find?, reachable, hroot, size_setEntry h, hunits]
    exact find?_visit hsuccessors _ hunit
  have hat : tree.construct? unit = some (.unit name scope (some block)) := by
    rw [hconstruct, if_pos rfl]
  exact setEntry_of_entry hfound hat other

end Tree

/-- What a call does to the lists of nodes: nothing, or it puts a node into one of them. -/
inductive Rearranges (f g : NodeId → List NodeId) (displaced placed? : Option NodeId) : Prop
  | same (kept : g = f) (none : displaced = none)
  | placed {owner new : NodeId} (new_eq : placed? = some new)
    (places : Places f g owner displaced new) (apart : ¬Under f owner new)

namespace Rearranges

variable {f g : NodeId → List NodeId} {displaced placed? : Option NodeId}

/-- What is in a list after a call is the node that it places or was there before. -/
theorem mem (h : Rearranges f g displaced placed?) {id top : NodeId} (hid : id ∈ g top) :
    id ∈ f top ∨ placed? = some id := by
  cases h with
  | same kept =>
    rw [kept] at hid
    exact .inl hid
  | placed new_eq places =>
    rcases places.mem hid with hin | ⟨-, rfl⟩
    · exact .inl hin
    · exact .inr new_eq

/-- Putting a node that is in no list into one of them makes no node come under itself. -/
theorem forested (h : Rearranges f g displaced placed?) (hf : Forested f)
    (hfree : ∀ new, placed? = some new → ∀ top, new ∉ f top) : Forested g := by
  cases h with
  | same kept =>
    rw [kept]
    exact hf
  | placed new_eq places apart => exact places.forested hf (hfree _ new_eq) apart

/-- As long as no node has to make room for another one, the lists only grow. -/
theorem sublist (h : Rearranges f g displaced placed?) (hnone : displaced = none) (id : NodeId) :
    (f id).Sublist (g id) := by
  cases h with
  | same kept => rw [kept]
  | placed new_eq places =>
    rw [hnone] at places
    exact places.sublist id

end Rearranges

namespace Assembly

variable {s : Assembly} {e : Edit} {tree : Tree}

/-- The nodes under each other form a forest, the root stands outermost in it, only nodes that were
placed are in it, and the links of every chain of children come to an end. -/
structure Sound (s : Assembly) : Prop where
  forested : Forested s.tree.successors
  made : ∀ owner, ∀ id ∈ s.tree.successors owner, id < s.tree.size
  placed : ∀ owner, ∀ id ∈ s.tree.successors owner, id ∈ s.placed
  root : ∀ root, s.tree.root = some root →
    root < s.tree.size ∧ root ∈ s.placed ∧ ∀ owner, root ∉ s.tree.successors owner
  rows : s.tree.Rows s.tree.children

theorem sound_start : start.Sound := by
  have hempty : ∀ owner, start.tree.successors owner = [] := fun _ => rfl
  refine ⟨⟨fun owner => ?_, fun h => ?_, fun id => ?_⟩, fun owner id h => ?_, fun owner id h => ?_,
    fun root h => ?_, ⟨fun _ => rfl, fun _ => trivial⟩⟩
  · rw [hempty]
    exact .nil
  · rw [hempty] at h
    cases h
  · exact ⟨[id], Walk.singleton (hempty id ▸ .nil)⟩
  · rw [hempty] at h
    cases h
  · rw [hempty] at h
    cases h
  · cases h

/-- A node that was not placed is in no list. -/
theorem Sound.free (hs : s.Sound) {new : NodeId} (hnew : new ∉ s.placed) (owner : NodeId) :
    new ∉ s.tree.successors owner :=
  fun h => hnew (hs.placed owner new h)

theorem size_le_of_ok (h : s.tree.edit e = .ok tree) : s.tree.size ≤ tree.size := by
  cases Tree.edited h with
  | allocate c line =>
    rw [Tree.size_allocate]
    exact Nat.le_succ _
  | insertFirst anchor new => exact Nat.le_of_eq (Tree.size_insertFirst _ _ _).symm
  | insertAfter anchor new => exact Nat.le_of_eq (Tree.size_insertAfter _ _ _).symm
  | setRoot id => exact Nat.le_refl _
  | slot => exact Nat.le_of_eq (Tree.size_adopt _ _ _ _).symm

/-- No node is twice among the children of another. -/
theorem Sound.nodup_children (hs : s.Sound) (owner : NodeId) : (s.tree.children owner).Nodup :=
  (hs.forested.once owner).sublist (List.sublist_append_left _ _)

/-- A new first child comes in front of all else that is under the node. -/
theorem places_insertFirst (t : Tree) (anchor new : NodeId) :
    Places t.successors (fun owner => (Edit.insertFirst anchor new).relist t.children owner
      ++ (t.insertFirst anchor new).slots owner) anchor none new := by
  refine ⟨⟨[], t.successors anchor, rfl, ?_⟩, fun id hid => ?_⟩
  · simp [Edit.relist, Tree.slots_insertFirst, Tree.successors_eq]
  · simp [Edit.relist, Tree.slots_insertFirst, Tree.successors_eq, hid]

/-- A new sibling comes into the list that the old one is in. -/
theorem Sound.places_insertAfter (hs : s.Sound) {anchor owner : NodeId}
    (h : anchor ∈ s.tree.children owner) (new : NodeId) :
    Places s.tree.successors (fun owner =>
      (Edit.insertAfter anchor new).relist s.tree.children owner
        ++ (s.tree.insertAfter anchor new).slots owner) owner none new := by
  obtain ⟨before, after, hsplit⟩ := List.append_of_mem h
  have hnodup := hs.nodup_children owner
  rw [hsplit] at hnodup
  have hbefore : anchor ∉ before := fun hmem =>
    (List.nodup_cons.1 (List.nodup_middle.1 hnodup)).1 (List.mem_append_left _ hmem)
  refine ⟨⟨before ++ [anchor], after ++ s.tree.slots owner, ?_, ?_⟩, fun id hid => ?_⟩
  · simp [Tree.successors_eq, hsplit]
  · simp [Edit.relist, hsplit, Tree.slots_insertAfter, spliceAfter_append_cons hbefore]
  · have hout : anchor ∉ s.tree.children id := fun hmem =>
      hid (hs.forested.unique (List.mem_append_left _ hmem) (List.mem_append_left _ h))
    simp only [Edit.relist, spliceAfter_of_not_mem hout, Tree.slots_insertAfter,
      Tree.successors_eq]

/-- What a call does to the lists of children, and to the lists of all that is under a node. -/
theorem Sound.relist (hs : s.Sound) (ha : s.Admits e) (hok : s.tree.edit e = .ok tree) :
    tree.Rows (e.relist s.tree.children) ∧ Rearranges s.tree.successors
      (fun owner => e.relist s.tree.children owner ++ tree.slots owner)
      (s.tree.displaced? e) e.placed? := by
  have hfree : ∀ new, e.placed? = some new → ∀ owner, new ∉ s.tree.children owner :=
    fun new hnew owner h => hs.free (ha.once tree new hok hnew) owner (List.mem_append_left _ h)
  cases Tree.edited hok with
  | allocate c line =>
    refine ⟨hs.rows.allocate c line, .same ?_ rfl⟩
    rw [Tree.slots_allocate _ (List.isEmpty_iff.1 ha.bare)]
    rfl
  | insertFirst anchor new =>
    have hanchor := ha.made anchor List.mem_cons_self
    have hnew := ha.made new (Edit.mem_names_of_placed? rfl)
    exact ⟨hs.rows.insertFirst hanchor hnew (hfree new rfl),
      .placed rfl (places_insertFirst s.tree anchor new) (ha.apart _ new anchor hok rfl rfl)⟩
  | insertAfter anchor new =>
    have hanchor := ha.made anchor List.mem_cons_self
    have hnew := ha.made new (Edit.mem_names_of_placed? rfl)
    have hapart := ha.apart _ new anchor hok rfl rfl
    have hne : new ≠ anchor := by
      rintro rfl
      exact hapart (.refl new)
    refine ⟨hs.rows.insertAfter hanchor hnew hne (hfree new rfl) hs.nodup_children, ?_⟩
    -- the anchor stands in one list of children; where it stands in none, no list changes
    by_cases hin : ∃ owner, anchor ∈ s.tree.children owner
    · obtain ⟨owner, howner⟩ := hin
      exact .placed rfl (hs.places_insertAfter howner new) fun hup =>
        hapart (.of_mem (List.mem_append_left _ howner) hup)
    · refine .same (funext fun owner => ?_) rfl
      have hout : anchor ∉ s.tree.children owner := fun h => hin ⟨owner, h⟩
      simp only [Edit.relist, spliceAfter_of_not_mem hout, Tree.slots_insertAfter,
        Tree.successors_eq]
  | setRoot id => exact ⟨⟨hs.rows.first, hs.rows.next⟩, .same rfl rfl⟩
  | @slot _ owner new c c' before after places host apart stands _ had has =>
    have hlists : e.relist s.tree.children = s.tree.children := by
      cases e <;> first | rfl | cases apart
    rw [hlists]
    refine ⟨hs.rows.adopt owner new c', .placed places
      ⟨⟨s.tree.children owner ++ before, after, ?_, ?_⟩, fun id hid => ?_⟩
      (ha.apart _ new owner hok places host)⟩
    · rw [Tree.successors, stands, Option.map_some, Option.getD_some, had, List.append_assoc]
    · rw [Tree.slots_adopt stands, if_pos rfl, has, List.append_assoc]
    · rw [Tree.slots_adopt stands, if_neg hid]
      rfl

/-- A call that succeeds leaves the lists of nodes alone, or puts one node into one of them. -/
theorem Sound.rearranged (hs : s.Sound) (ha : s.Admits e) (hok : s.tree.edit e = .ok tree) :
    Rearranges s.tree.successors tree.successors (s.tree.displaced? e) e.placed? ∧
      Forested tree.successors ∧ tree.Rows tree.children ∧
      tree.children = e.relist s.tree.children := by
  obtain ⟨hrows, hre⟩ := hs.relist ha hok
  have hforested := hre.forested hs.forested fun new hnew => hs.free (ha.once tree new hok hnew)
  have hlists : tree.children = e.relist s.tree.children := by
    funext owner
    refine hrows.children_eq ((hforested.once owner).sublist (List.sublist_append_left _ _)) ?_
    intro id hid
    rcases hre.mem (List.mem_append_left _ hid) with hin | hnew
    · exact Nat.lt_of_lt_of_le (hs.made owner id hin) (size_le_of_ok hok)
    · exact Nat.lt_of_lt_of_le (ha.made id (Edit.mem_names_of_placed? hnew)) (size_le_of_ok hok)
  rw [← hlists] at hrows hre hforested
  exact ⟨hre, hforested, hrows, hlists⟩

/-- A call leaves the root alone, or it is the one that sets it. -/
theorem root_of_ok (hok : s.tree.edit e = .ok tree) : tree.root = s.tree.root ∨
    ∃ root, e = .setRoot root ∧ s.tree.root = none ∧ tree = { s.tree with root := some root } := by
  cases Tree.edited hok with
  | allocate c line => exact .inl rfl
  | insertFirst anchor new => exact .inl (Tree.root_insertFirst _ _ _)
  | insertAfter anchor new => exact .inl (Tree.root_insertAfter _ _ _)
  | setRoot id absent => exact .inr ⟨id, rfl, absent, rfl⟩
  | slot => exact .inl rfl

/-- Every call that keeps to the rules leaves a sound tree. -/
theorem Sound.step (hs : s.Sound) (ha : s.Admits e) : (s.step e).Sound := by
  cases hok : s.tree.edit e with
  | error fault =>
    rw [Assembly.step, hok]
    exact hs
  | ok tree =>
    obtain ⟨htree, hplaced, -⟩ := step_of_ok hok
    obtain ⟨hre, hforested, hrows, -⟩ := hs.rearranged ha hok
    have hsize := size_le_of_ok hok
    have hnew : ∀ new, e.placed? = some new → new < tree.size := fun new h =>
      Nat.lt_of_lt_of_le (ha.made new (Edit.mem_names_of_placed? h)) hsize
    refine ⟨?_, ?_, ?_, ?_, ?_⟩ <;> rw [htree]
    · exact hforested
    · intro owner id hid
      rcases hre.mem hid with hin | h
      · exact Nat.lt_of_lt_of_le (hs.made owner id hin) hsize
      · exact hnew id h
    · intro owner id hid
      rw [hplaced, List.mem_append, Option.mem_toList]
      rcases hre.mem hid with hin | h
      · exact .inr (hs.placed owner id hin)
      · exact .inl h
    · intro root hroot
      rw [hplaced, List.mem_append, Option.mem_toList]
      -- Only `setRoot` makes a root, and it is not placed anywhere before.
      rcases root_of_ok hok with hkept | ⟨new, rfl, -, rfl⟩
      · obtain ⟨hlt, hmem, hout⟩ := hs.root root (hkept.symm.trans hroot)
        refine ⟨Nat.lt_of_lt_of_le hlt hsize, .inr hmem, fun owner hid => ?_⟩
        rcases hre.mem hid with hin | h
        · exact hout owner hin
        · exact ha.once tree root hok h hmem
      · cases hroot
        rw [Tree.successors_withRoot]
        exact ⟨hnew root rfl, .inl rfl, hs.free (ha.once _ root hok rfl)⟩
    · exact hrows

/-- Trees that calls have built by the rule are sound. -/
theorem sound_run {es : List Edit} (h : Follows Admits start es) : (run es).Sound :=
  h.invariant (fun _ _ hs ha => hs.step ha) sound_start

/-- The bounded walk from a node lists all that is under it, each node once. -/
theorem Sound.visit (hs : s.Sound) {top : NodeId} (htop : top < s.tree.size) :
    Walk s.tree.successors [top] (s.tree.visit s.tree.size [top]) ∧
      (s.tree.visit s.tree.size [top]).Nodup := by
  obtain ⟨l, hl⟩ := hs.forested.walks top
  have hnodup : l.Nodup := hs.forested.nodup hl (List.nodup_singleton top) (by simp)
  have hids : ∀ id ∈ l, id < s.tree.size := by
    intro id hid
    obtain ⟨first, hfirst, hup⟩ := hl.mem_iff.1 hid
    rcases hup.cases_owner with rfl | ⟨owner, howner, -⟩
    · rw [List.mem_singleton.1 hfirst]
      exact htop
    · exact hs.made owner id howner
  rw [Tree.visit_eq_take hl, List.take_of_length_le (Tree.length_le_size hnodup hids)]
  exact ⟨hl, hnodup⟩

/-- The walk from the root lists every node under it, each once. -/
theorem Sound.reachable (hs : s.Sound) :
    Walk s.tree.successors s.tree.root.toList s.tree.reachable ∧ s.tree.reachable.Nodup := by
  rw [Tree.reachable]
  cases hroot : s.tree.root with
  | none =>
    have hvisit := Tree.visit_eq_take (Walk.nil : Walk s.tree.successors [] []) s.tree.size
    rw [List.take_nil] at hvisit
    rw [Option.toList_none, hvisit]
    exact ⟨.nil, .nil⟩
  | some root => exact hs.visit (hs.root root hroot).1

/-! ## Rules that are computed -/

/-- Whether a node is under another is found out by the bounded walk. -/
theorem Sound.under_iff (hs : s.Sound) {id top : NodeId} (htop : top < s.tree.size) :
    Under s.tree.successors id top ↔ id ∈ s.tree.visit s.tree.size [top] := by
  rw [(hs.visit htop).1.mem_iff]
  simp

/-- In a sound tree the rules can be checked by walks. -/
theorem Sound.admits_iff (hs : s.Sound) : s.Admits e ↔ s.admits e = true := by
  have hnames : (e.names.all fun id => id < s.tree.size) = true ↔
      ∀ id ∈ e.names, id < s.tree.size := by simp
  rw [admits, Bool.and_eq_true, Bool.and_eq_true, hnames]
  constructor
  · intro ha
    refine ⟨⟨ha.made, ha.bare⟩, ?_⟩
    split
    · rename_i tree new hok hnew
      have hlt := ha.made new (Edit.mem_names_of_placed? hnew)
      have hout := ha.once tree new hok hnew
      have hapart := ha.apart tree new
      cases hhost : s.tree.host? e with
      | none => simpa using hout
      | some host =>
        have hup := hapart host hok hnew hhost
        rw [hs.under_iff hlt] at hup
        simpa using ⟨hout, hup⟩
    · rfl
  · rintro ⟨⟨hmade, hbare⟩, h⟩
    refine ⟨hmade, hbare, fun tree new hok hnew => ?_, fun tree new host hok hnew hhost => ?_⟩
    · simp only [hok, hnew, Bool.and_eq_true] at h
      simpa using h.1
    · rw [hs.under_iff (hmade new (Edit.mem_names_of_placed? hnew))]
      simp only [hok, hnew, hhost, Bool.and_eq_true] at h
      simpa using h.2

/-- The rule for a list of calls can be checked. -/
theorem follows_admits {es : List Edit} :
    Follows Admits start es ↔ checks admits start es = true :=
  follows_iff (fun _ _ hs => hs.admits_iff) (fun _ _ hs ha => hs.step ha) sound_start

/-! ## Calls that succeed -/

/-- What a walk from the root lists is still listed after a call that succeeds, in the same order
and once, unless the call gives a conditional a second branch without a condition: then what is
under the first one is lost, and nothing else.  A unit that has its entry block keeps it, and a
second one is refused. -/
theorem reachable_kept {es : List Edit} {e : Edit} {tree : Tree} (hes : Follows Admits start es)
    (he : (run es).Admits e) (hok : (run es).tree.edit e = .ok tree) :
    tree.reachable.Nodup ∧
      ((run es).tree.displaced? e = none → (run es).tree.reachable.Sublist tree.reachable) ∧
      (∀ old, (run es).tree.displaced? e = some old →
        (∀ id ∈ (run es).tree.reachable,
          id ∈ tree.reachable ↔ ¬Under (run es).tree.successors id old) ∧
        ((run es).tree.reachable.filter fun id => id ∈ tree.reachable).Sublist tree.reachable) ∧
      (∀ unit name scope entry,
        (run es).tree.construct? unit = some (.unit name scope (some entry)) →
        tree.construct? unit = some (.unit name scope (some entry)) ∧
          (tree.find? Construct.isUnit = some unit → ∀ block,
            tree.edit (.setEntry block) = .error .entryAlreadySet)) ∧
      ∀ block other, e = .setEntry block →
        tree.edit (.setEntry other) = .error .entryAlreadySet := by
  have hs := sound_run hes
  have hs' := hs.step he
  obtain ⟨hre, hforested, -⟩ := hs.rearranged he hok
  obtain ⟨hwalk, -⟩ := hs.reachable
  obtain ⟨hwalk', hnodup'⟩ := hs'.reachable
  rw [(step_of_ok hok).1] at hwalk' hnodup'
  refine ⟨hnodup', fun hnone => ?_, fun old hold => ?_, fun unit name scope entry hunit => ?_, ?_⟩
  · have hroots : (run es).tree.root.toList.Sublist tree.root.toList := by
      rcases root_of_ok hok with hkept | ⟨root, -, habsent, -⟩
      · rw [hkept]
      · rw [habsent]
        exact List.nil_sublist _
    exact hwalk.sublist hwalk' (hre.sublist hnone) hroots
  · obtain ⟨-, hnone⟩ | ⟨hnew, places, -⟩ := hre
    · cases hold.symm.trans hnone
    -- the branch that was replaced hung in the tree, and the walk leaves out what is under it
    · have hfree := hs.free (he.once tree _ hok hnew)
      rw [hold] at places
      cases hroot : (run es).tree.root with
      | none =>
        rw [hroot] at hwalk
        have hnil : (run es).tree.reachable = [] := hwalk.unique .nil
        simp [hnil]
      | some root =>
        obtain ⟨-, hmem, hout⟩ := hs.root root hroot
        have hne := ne_of_mem_of_not_mem hmem (he.once tree _ hok hnew)
        have hroot' : tree.root = some root := by
          rcases root_of_ok hok with hkept | ⟨_, -, habsent, -⟩
          · exact hkept.trans hroot
          · cases hroot.symm.trans habsent
        rw [hroot] at hwalk
        rw [hroot'] at hwalk'
        exact places.kept hs.forested hforested hfree hout hne hwalk hwalk'
  · have hkept := (Tree.edited hok).construct?_eq hunit
    exact ⟨hkept, fun hfound => Tree.setEntry_of_entry hfound hkept⟩
  · rintro block other rfl
    exact Tree.setEntry_setEntry hok other

/-- A unit with an entry block, in which a conditional has a branch without a condition. -/
def sampleCalls : List Edit :=
  [.allocate (.unit "m" "m" none) 1, .setRoot 0, .allocate (.entry "m^beginning") 2,
    .setEntry 1, .allocate (.conditional "m^beginning^if1" (.literal 3 (.boolean true)) [] none) 3,
    .insertFirst 1 2, .allocate (.otherwise "m^beginning^if1^else1") 4, .attachBranch 2 3,
    .allocate (.otherwise "m^beginning^if1^else2") 5]

/-- A second branch without a condition: the walk loses the first. -/
theorem sampleCalls_displaced : ∃ tree, (run sampleCalls).tree.edit (.attachBranch 2 4) = .ok tree ∧
    tree.reachable.Nodup ∧ 3 ∈ (run sampleCalls).tree.reachable ∧ 3 ∉ tree.reachable := by
  have hes : Follows Admits start sampleCalls := follows_admits.2 (by decide +kernel)
  have he : (run sampleCalls).Admits (.attachBranch 2 4) :=
    (sound_run hes).admits_iff.2 (by decide +kernel)
  obtain ⟨tree, hok⟩ :=
    Except.exists_eq_ok (x := (run sampleCalls).tree.edit (.attachBranch 2 4)) (by decide +kernel)
  obtain ⟨hnodup, -, hdisplaced, -⟩ := reachable_kept hes he hok
  have hbefore : 3 ∈ (run sampleCalls).tree.reachable := by decide +kernel
  have hlost := (hdisplaced 3 (by decide +kernel)).1 3 hbefore
  exact ⟨tree, hok, hnodup, hbefore, fun hafter => hlost.1 hafter (.refl 3)⟩

end Assembly

end Primer
