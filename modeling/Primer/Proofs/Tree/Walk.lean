import Primer.Tree
import Mathlib.Data.List.Nodup
import Mathlib.Logic.Relation

/-!
# Primer.Proofs.Tree.Walk — walks from the top down, whatever the links are.

Which nodes are directly under a node is here any function from nodes to lists of nodes.  `Walk`
lists nodes with all that is under them, each before what is under it; a walk is there exactly if it
ends, so no bound is needed.  `Forested` says that no node is under itself and that every node is
directly under at most one other, once.  Putting a new node into one of the lists keeps both
(`Forested.place`), and so does taking nodes out (`Forested.sublist`).

A walk grows with the lists (`Walk.sublist`): what was listed before is listed in the same order
after.

Nothing here is about trees of links: the functions of successors may be those of any tree, before
and after a change.  `Under` is the relation that they generate.  The last part is about a change
that puts a node in the place of another (`Places`), which is the only one that takes something from
a walk.
-/

namespace Primer

/-- A node is another one or lies under it. -/
def Under (f : NodeId → List NodeId) : NodeId → NodeId → Prop :=
  Relation.ReflTransGen fun id owner => id ∈ f owner

/-- Lists nodes and all that is under them, each node before what is under it. -/
inductive Walk (f : NodeId → List NodeId) : List NodeId → List NodeId → Prop
  | nil : Walk f [] []
  | cons {id : NodeId} {rest inner outer : List NodeId} (under : Walk f (f id) inner)
      (behind : Walk f rest outer) : Walk f (id :: rest) (id :: (inner ++ outer))

/-- Every node is directly under at most one other, once, and none is under itself. -/
structure Forested (f : NodeId → List NodeId) : Prop where
  once : ∀ owner, (f owner).Nodup
  unique : ∀ {owner other id}, id ∈ f owner → id ∈ f other → owner = other
  walks : ∀ id, ∃ l, Walk f [id] l

variable {f g : NodeId → List NodeId} {ids others l l' : List NodeId}

namespace Under

theorem refl (id : NodeId) : Under f id id := Relation.ReflTransGen.refl

theorem of_mem {id owner top : NodeId} (h : id ∈ f owner) (htop : Under f owner top) :
    Under f id top :=
  Relation.ReflTransGen.head h htop

/-- From a node up to the first that is directly under the other one. -/
theorem cases_top {id top : NodeId} (h : Under f id top) :
    id = top ∨ ∃ child ∈ f top, Under f id child := by
  rcases Relation.ReflTransGen.cases_tail h with heq | ⟨child, hchild, hmem⟩
  · exact .inl heq.symm
  · exact .inr ⟨child, hmem, hchild⟩

/-- From a node to the one it is directly under. -/
theorem cases_owner {id top : NodeId} (h : Under f id top) :
    id = top ∨ ∃ owner, id ∈ f owner ∧ Under f owner top :=
  Relation.ReflTransGen.cases_head h

/-- What is under a node stays there if the lists grow. -/
theorem sublist {id top : NodeId} (h : Under f id top) (hfg : ∀ id, (f id).Sublist (g id)) :
    Under g id top := by
  induction h with
  | refl => exact .refl id
  | @tail child top _ hmem ih => exact Relation.ReflTransGen.tail ih ((hfg top).subset hmem)

/-- Two nodes above the same one are above each other. -/
theorem comparable (hf : Forested f) {id top other : NodeId} (h : Under f id top)
    (h' : Under f id other) : Under f top other ∨ Under f other top :=
  Relation.ReflTransGen.total_of_right_unique (fun _ _ _ => hf.unique) h h'

end Under

/-! ## Walks -/

namespace Walk

theorem append (h : Walk f ids l) (h' : Walk f others l') : Walk f (ids ++ others) (l ++ l') := by
  induction h with
  | nil => exact h'
  | cons under _ _ ih =>
    rw [List.cons_append, List.cons_append, List.append_assoc]
    exact cons under ih

/-- The walk over two lists is one over the first and then one over the second. -/
theorem exists_of_append (h : Walk f (ids ++ others) l) :
    ∃ l₁ l₂, l = l₁ ++ l₂ ∧ Walk f ids l₁ ∧ Walk f others l₂ := by
  induction ids generalizing l with
  | nil => exact ⟨[], l, rfl, nil, h⟩
  | cons id ids ih =>
    cases h with
    | cons under behind =>
      obtain ⟨l₁, l₂, rfl, h₁, h₂⟩ := ih behind
      exact ⟨_, l₂, by simp, cons under h₁, h₂⟩

/-- A walk from one node starts with the node. -/
theorem singleton {id : NodeId} (h : Walk f (f id) l) : Walk f [id] (id :: l) := by
  have hone := cons h nil
  rwa [List.append_nil] at hone

/-- The walk from a node goes through the nodes directly under it. -/
theorem exists_of_singleton {id : NodeId} (h : Walk f [id] l) :
    ∃ inner, l = id :: inner ∧ Walk f (f id) inner := by
  cases h with
  | cons under behind =>
    cases behind
    exact ⟨_, by simp, under⟩

/-- What a walk lists: the nodes that it starts with, and all under them. -/
theorem mem_iff (h : Walk f ids l) {x : NodeId} : x ∈ l ↔ ∃ id ∈ ids, Under f x id := by
  induction h with
  | nil => simp
  | @cons id rest inner outer _ _ ihi iho =>
    have hid : x = id ∨ x ∈ inner ↔ Under f x id := by
      rw [ihi]
      constructor
      · rintro (rfl | ⟨child, hchild, hx⟩)
        · exact .refl x
        · exact Relation.ReflTransGen.tail hx hchild
      · exact Under.cases_top
    simp only [List.mem_cons, List.mem_append, ← or_assoc, hid, iho, or_and_right, exists_or,
      exists_eq_left]

/-- A walk grows with the lists of nodes and with those it starts with. -/
theorem sublist (h : Walk f ids l) (h' : Walk g others l') (hfg : ∀ id, (f id).Sublist (g id))
    (hids : ids.Sublist others) : l.Sublist l' := by
  induction h' generalizing ids l with
  | nil =>
    obtain rfl := List.sublist_nil.1 hids
    cases h
    exact .slnil
  | @cons id rest inner outer _ _ ihi iho =>
    rcases List.sublist_cons_iff.1 hids with hrest | ⟨ids', rfl, hrest⟩
    · have hskip := (iho h hrest).trans (List.sublist_append_right inner outer)
      exact hskip.trans (List.sublist_cons_self id _)
    · cases h with
      | cons under behind =>
        exact ((ihi under (hfg id)).append (iho behind hrest)).cons_cons id

/-- There is only one walk. -/
theorem unique (h : Walk f ids l) (h' : Walk f ids l') : l = l' :=
  (h.sublist h' (fun _ => .refl _) (.refl _)).antisymm
    (h'.sublist h (fun _ => .refl _) (.refl _))

/-- A walk looks only at the nodes that it lists. -/
theorem congr (h : Walk f ids l) (hfg : ∀ id ∈ l, g id = f id) : Walk g ids l := by
  induction h with
  | nil => exact nil
  | @cons id rest inner outer _ _ ihi iho =>
    refine cons ?_ (iho fun x hx => hfg x (by simp [hx]))
    rw [hfg id List.mem_cons_self]
    exact ihi fun x hx => hfg x (by simp [hx])

/-- With fewer nodes in the lists there is still a walk. -/
theorem exists_of_sublist (h : Walk f ids l) (hgf : ∀ id, (g id).Sublist (f id))
    (hsub : others.Sublist ids) : ∃ l', Walk g others l' := by
  induction h generalizing others with
  | nil =>
    obtain rfl := List.sublist_nil.1 hsub
    exact ⟨[], nil⟩
  | @cons id rest _ _ _ _ ihi iho =>
    rcases List.sublist_cons_iff.1 hsub with hrest | ⟨others', rfl, hrest⟩
    · exact iho hrest
    · obtain ⟨inner, hinner⟩ := ihi (hgf id)
      obtain ⟨outer, houter⟩ := iho hrest
      exact ⟨_, cons hinner houter⟩

/-- A walk lists as many nodes as there are under those it starts with, so one from higher up lists
no fewer. -/
theorem length_le {id top : NodeId} (h : Under f id top) (hid : Walk f [id] l)
    (htop : Walk f [top] l') : l.length ≤ l'.length := by
  induction h generalizing l' with
  | refl => exact Nat.le_of_eq (congrArg List.length (hid.unique htop))
  | @tail child top _ hmem ih =>
    obtain ⟨inner, rfl, hinner⟩ := htop.exists_of_singleton
    obtain ⟨before, after, hsplit⟩ := List.append_of_mem hmem
    rw [hsplit] at hinner
    obtain ⟨l₁, l₂, rfl, -, hrest⟩ := hinner.exists_of_append
    change Walk f ([child] ++ after) l₂ at hrest
    obtain ⟨l₃, l₄, rfl, hchild, -⟩ := hrest.exists_of_append
    have hle := ih hchild
    simp only [List.length_cons, List.length_append]
    omega

end Walk

namespace Forested

/-- What is directly under a node is not above it. -/
theorem not_under (hf : Forested f) {child id : NodeId} (h : child ∈ f id) :
    ¬Under f id child := by
  intro hup
  obtain ⟨l, hl⟩ := hf.walks child
  obtain ⟨l', hl'⟩ := hf.walks id
  obtain ⟨inner, rfl, hinner⟩ := hl'.exists_of_singleton
  have hle := hl'.length_le hup hl
  have hsub : l.Sublist inner :=
    hl.sublist hinner (fun _ => .refl _) (List.singleton_sublist.2 h)
  have hge := hsub.length_le
  simp only [List.length_cons] at hle
  omega

/-- Nodes directly under the same one are not under each other. -/
theorem siblings (hf : Forested f) {id a b : NodeId} (ha : a ∈ f id) (hb : b ∈ f id)
    (hne : a ≠ b) : ¬Under f a b := by
  intro hup
  rcases hup.cases_owner with rfl | ⟨owner, howner, hup'⟩
  · exact hne rfl
  · rw [hf.unique howner ha] at hup'
    exact hf.not_under hb hup'

/-- A walk lists no node twice if it starts with nodes that are not under each other. -/
theorem nodup (hf : Forested f) (h : Walk f ids l) (hids : ids.Nodup)
    (happart : ∀ a ∈ ids, ∀ b ∈ ids, a ≠ b → ¬Under f a b) : l.Nodup := by
  induction h with
  | nil => exact .nil
  | @cons id rest inner outer under behind ihi iho =>
    have hinner := ihi (hf.once id) fun a ha b hb hne => hf.siblings ha hb hne
    have houter := iho hids.of_cons fun a ha b hb hne =>
      happart a (.tail _ ha) b (.tail _ hb) hne
    -- what is listed behind is under a node that is neither above nor under this one
    have hbehind : ∀ x ∈ outer, ¬Under f x id := by
      intro x hx hup
      obtain ⟨r, hr, hup'⟩ := behind.mem_iff.1 hx
      have hne : id ≠ r := by
        rintro rfl
        exact (List.nodup_cons.1 hids).1 hr
      rcases hup.comparable hf hup' with hcmp | hcmp
      · exact happart id List.mem_cons_self r (.tail _ hr) hne hcmp
      · exact happart r (.tail _ hr) id List.mem_cons_self hne.symm hcmp
    rw [List.nodup_cons, List.mem_append, List.nodup_append']
    refine ⟨?_, hinner, houter, fun x hx hx' => ?_⟩
    · rintro (hid | hid)
      · obtain ⟨child, hchild, hup⟩ := under.mem_iff.1 hid
        exact hf.not_under hchild hup
      · exact hbehind id hid (.refl id)
    · obtain ⟨child, hchild, hup⟩ := under.mem_iff.1 hx
      exact hbehind x hx' (Relation.ReflTransGen.tail hup hchild)

theorem sublist (hf : Forested f) (hgf : ∀ id, (g id).Sublist (f id)) : Forested g where
  once owner := (hf.once owner).sublist (hgf owner)
  unique h h' := hf.unique ((hgf _).subset h) ((hgf _).subset h')
  walks id := by
    obtain ⟨l, hl⟩ := hf.walks id
    exact hl.exists_of_sublist hgf (.refl _)

end Forested

/-! ## A new node in one of the lists -/

/-- A new node is put into the list of one node, in the place of another one if that has to make
room for it; all other lists stay as they are. -/
structure Places (f g : NodeId → List NodeId) (owner : NodeId) (displaced : Option NodeId)
    (new : NodeId) : Prop where
  inserted : ∃ before after,
    f owner = before ++ (displaced.toList ++ after) ∧ g owner = before ++ new :: after
  others : ∀ id, id ≠ owner → g id = f id

namespace Places

variable {owner new old root : NodeId} {displaced : Option NodeId}

/-- Taking nodes out of lists leaves a forest. -/
theorem sublist (h : Places f g owner none new) (id : NodeId) : (f id).Sublist (g id) := by
  by_cases hid : id = owner
  · subst hid
    obtain ⟨before, after, hf, hg⟩ := h.inserted
    rw [hf, hg]
    exact (List.sublist_cons_self new after).append_left before
  · rw [h.others id hid]

/-- First the displaced node is taken out, and then the new one is put in. -/
theorem exists_pruned (h : Places f g owner displaced new) :
    ∃ p, (∀ id, (p id).Sublist (f id)) ∧ Places p g owner none new ∧
      ∀ id top, id ∈ f top → id ∈ p top ∨ displaced = some id := by
  obtain ⟨before, after, hf, hg⟩ := h.inserted
  refine ⟨Function.update f owner (before ++ after), fun id => ?_,
    ⟨⟨before, after, ?_, hg⟩, ?_⟩, ?_⟩
  · by_cases hid : id = owner
    · subst hid
      rw [Function.update_self, hf]
      exact (List.sublist_append_right displaced.toList after).append_left before
    · rw [Function.update_of_ne hid]
  · exact Function.update_self ..
  · intro id hid
    rw [h.others id hid, Function.update_of_ne hid]
  · intro id top hid
    by_cases htop : top = owner
    · subst htop
      rw [hf, List.mem_append, List.mem_append, Option.mem_toList] at hid
      rw [Function.update_self, List.mem_append]
      tauto
    · rw [Function.update_of_ne htop]
      exact .inl hid

/-- What is in a list after is the new node or was there before. -/
theorem mem (h : Places f g owner displaced new) {id top : NodeId} (hid : id ∈ g top) :
    id ∈ f top ∨ (top = owner ∧ id = new) := by
  by_cases htop : top = owner
  · subst htop
    obtain ⟨before, after, hf, hg⟩ := h.inserted
    rw [hg, List.mem_append, List.mem_cons] at hid
    rw [hf, List.mem_append, List.mem_append]
    tauto
  · rw [h.others top htop] at hid
    exact .inl hid

/-- Where a node comes in that is not above, every walk still ends. -/
theorem walks (h : Places f g owner none new) (hf : Forested f) (happart : ¬Under f owner new)
    {ids l : List NodeId} (hl : Walk f ids l) : ∃ l', Walk g ids l' := by
  have hnew : ∃ l, Walk g [new] l := by
    obtain ⟨l, hl⟩ := hf.walks new
    refine ⟨l, hl.congr fun x hx => h.others x ?_⟩
    rintro rfl
    obtain ⟨top, htop, hup⟩ := hl.mem_iff.1 hx
    rw [List.mem_singleton.1 htop] at hup
    exact happart hup
  induction hl with
  | nil => exact ⟨[], .nil⟩
  | @cons id _ _ _ _ _ ihi iho =>
    obtain ⟨inner, hinner⟩ := ihi
    obtain ⟨outer, houter⟩ := iho
    by_cases hid : id = owner
    · subst hid
      -- the walk over its old list, with that from the new node in between
      obtain ⟨before, after, hfid, hgid⟩ := h.inserted
      rw [hfid] at hinner
      obtain ⟨l₁, l₂, -, h₁, h₂⟩ := hinner.exists_of_append
      obtain ⟨l₃, h₃⟩ := hnew
      have hunder : Walk g (g id) (l₁ ++ (l₃ ++ l₂)) := by
        rw [hgid]
        exact h₁.append (h₃.append h₂)
      exact ⟨_, .cons hunder houter⟩
    · rw [← h.others id hid] at hinner
      exact ⟨_, .cons hinner houter⟩

/-- A new node under which its owner is not can be put anywhere. -/
theorem forested (h : Places f g owner displaced new) (hf : Forested f)
    (hfree : ∀ top, new ∉ f top) (happart : ¬Under f owner new) : Forested g := by
  obtain ⟨p, hpf, hpg, -⟩ := h.exists_pruned
  have hp : Forested p := hf.sublist hpf
  have hfree' : ∀ top, new ∉ p top := fun top hnew => hfree top ((hpf top).subset hnew)
  have happart' : ¬Under p owner new := fun hup =>
    happart (hup.sublist hpf)
  refine ⟨fun top => ?_, fun {top other id} htop hother => ?_, fun id => ?_⟩
  · by_cases htop : top = owner
    · subst htop
      obtain ⟨before, after, hpid, hgid⟩ := hpg.inserted
      have hnew := hfree' top
      have honce := hp.once top
      rw [hpid] at hnew honce
      rw [hgid]
      exact List.nodup_middle.2 (List.nodup_cons.2 ⟨hnew, honce⟩)
    · rw [hpg.others top htop]
      exact hp.once top
  · rcases hpg.mem htop with hin | ⟨rfl, rfl⟩ <;> rcases hpg.mem hother with hin' | ⟨rfl, heq⟩
    · exact hp.unique hin hin'
    · exact absurd (heq ▸ hin) (hfree' _)
    · exact absurd hin' (hfree' _)
    · rfl
  · obtain ⟨l, hl⟩ := hp.walks id
    exact hpg.walks hp happart' hl

/-- The displaced node is in no list any more. -/
theorem displaced_not_mem (h : Places f g owner (some old) new) (hf : Forested f)
    (hfree : ∀ top, new ∉ f top) (top : NodeId) : old ∉ g top := by
  intro htop
  obtain ⟨before, after, hfo, hgo⟩ := h.inserted
  have hold : old ∈ f owner := by simp [hfo]
  by_cases heq : top = owner
  · subst heq
    have honce := hf.once top
    rw [hfo] at honce
    have hout := (List.nodup_cons.1 (List.nodup_middle.1 honce)).1
    have hne : old ≠ new := ne_of_mem_of_not_mem hold (hfree top)
    rw [hgo, List.mem_append, List.mem_cons] at htop
    rw [List.mem_append] at hout
    tauto
  · rw [h.others top heq] at htop
    exact heq (hf.unique htop hold)

/-- What was under the displaced node still is. -/
theorem under_displaced (h : Places f g owner (some old) new) (hf : Forested f) {id : NodeId}
    (hid : Under f id old) : Under g id old := by
  have hold : old ∈ f owner := by
    obtain ⟨before, after, hfo, -⟩ := h.inserted
    simp [hfo]
  induction hid using Relation.ReflTransGen.head_induction_on with
  | refl => exact .refl old
  | @head x y hxy hy ih =>
    have hne : y ≠ owner := by
      rintro rfl
      exact hf.not_under hold hy
    rw [← h.others y hne] at hxy
    exact .of_mem hxy ih

/-- What is not under the displaced node stays where it is when that is taken out. -/
theorem under_pruned {p : NodeId → List NodeId} (hp : ∀ id top, id ∈ f top → id ∈ p top ∨ old = id)
    {id : NodeId} (hid : Under f id root) (hout : ¬Under f id old) : Under p id root := by
  induction hid using Relation.ReflTransGen.head_induction_on with
  | refl => exact .refl root
  | @head x y hxy _ ih =>
    have hup := ih fun hy => hout (.of_mem hxy hy)
    rcases hp x y hxy with hin | rfl
    · exact .of_mem hin hup
    · exact absurd (.refl old) hout

/-- What is under the displaced node is no longer under the root. -/
theorem not_under_of_under_displaced (h : Places f g owner (some old) new) (hf : Forested f)
    (hg : Forested g) (hfree : ∀ top, new ∉ f top) (hroot : ∀ top, root ∉ f top)
    (hne : root ≠ new) {id : NodeId} (hid : Under f id old) : ¬Under g id root := by
  intro hkept
  have hdiffer : old ≠ root := by
    obtain ⟨before, after, hfo, -⟩ := h.inserted
    rintro rfl
    exact hroot owner (by simp [hfo])
  -- one of the two would be under the other, but neither is in a list any more
  rcases hkept.comparable hg (h.under_displaced hf hid) with hcmp | hcmp
  · rcases hcmp.cases_owner with heq | ⟨top, htop, -⟩
    · exact hdiffer heq.symm
    · rcases h.mem htop with hin | ⟨-, heq⟩
      · exact hroot top hin
      · exact hne heq
  · rcases hcmp.cases_owner with heq | ⟨top, htop, -⟩
    · exact hdiffer heq
    · exact h.displaced_not_mem hf hfree top htop

end Places

/-- A part of a list without repetitions is what a filter for its members leaves. -/
theorem filter_mem_of_sublist (h : l'.Sublist l) (hnodup : l.Nodup) :
    l.filter (fun id => id ∈ l') = l' := by
  induction h with
  | slnil => rfl
  | @cons l' l id hsub ih =>
    obtain ⟨hid, hnodup⟩ := List.nodup_cons.1 hnodup
    rw [List.filter_cons_of_neg (by simpa using fun h => hid (hsub.subset h)), ih hnodup]
  | @cons_cons l' l id hsub ih =>
    obtain ⟨hid, hnodup⟩ := List.nodup_cons.1 hnodup
    rw [List.filter_cons_of_pos (by simp)]
    congr 1
    refine (List.filter_congr fun x hx => ?_).trans (ih hnodup)
    simp [ne_of_mem_of_not_mem hx hid]

/-- Of what a walk from the root lists, exactly what is under a displaced node is lost, and what is
left stays in its order. -/
theorem Places.kept {owner new old root : NodeId} (h : Places f g owner (some old) new)
    (hf : Forested f) (hg : Forested g) (hfree : ∀ top, new ∉ f top) (hroot : ∀ top, root ∉ f top)
    (hne : root ≠ new) (hl : Walk f [root] l) (hl' : Walk g [root] l') :
    (∀ id ∈ l, id ∈ l' ↔ ¬Under f id old) ∧ (l.filter fun id => id ∈ l').Sublist l' := by
  obtain ⟨p, hpf, hpg, hpruned⟩ := h.exists_pruned
  obtain ⟨k, hk⟩ := (hf.sublist hpf).walks root
  have hkl : k.Sublist l := hk.sublist hl hpf (.refl _)
  have hkl' : k.Sublist l' := hk.sublist hl' hpg.sublist (.refl _)
  have hkeeps : ∀ id ∈ l, ¬Under f id old → id ∈ k := by
    intro id hid hout
    have hup : Under f id root := by simpa using hl.mem_iff.1 hid
    have hup' := under_pruned (fun id top hmem => (hpruned id top hmem).imp_right Option.some.inj)
      hup hout
    exact hk.mem_iff.2 ⟨root, List.mem_singleton_self root, hup'⟩
  have hloses : ∀ id ∈ l', ¬Under f id old := by
    intro id hid hold
    have hup : Under g id root := by simpa using hl'.mem_iff.1 hid
    exact h.not_under_of_under_displaced hf hg hfree hroot hne hold hup
  refine ⟨fun id hid => ⟨hloses id, fun hout => hkl'.subset (hkeeps id hid hout)⟩, ?_⟩
  have hsame : ∀ id ∈ l, decide (id ∈ l') = decide (id ∈ k) := by
    intro id hid
    exact decide_eq_decide.2 ⟨fun h => hkeeps id hid (hloses id h), fun h => hkl'.subset h⟩
  have hnodup : l.Nodup := hf.nodup hl (List.nodup_singleton root) (by simp)
  rw [List.filter_congr hsame, filter_mem_of_sublist hkl hnodup]
  exact hkl'

end Primer
