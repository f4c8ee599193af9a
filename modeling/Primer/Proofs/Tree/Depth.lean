import Primer.Proofs.Scope.Env
import Primer.Proofs.Tree.Order
import Mathlib.Logic.Relation

/-!
# Primer.Proofs.Tree.Depth — what lies under a node, and how deep.

The positions under a node are those right behind it, as many as its body and its slots take
(`Stands.beneath_iff`).  That is a statement about parents, while the walk from the root goes by
successors; both agree (`Descends`).

The level of a node is counted from parent to parent.  A further branch of a conditional stands
where the conditional stands and counts no step; that branches are found in the slots of
conditionals and nowhere else is a statement about reading (`Reads.carried`).

Parents are not read off the nodes, of which only the first of a row knows its parent, but found by
walking back; on a layout `Lays.exists_owner` says what is found.  So a statement about the nodes
under a node becomes one about an interval of positions, and from there one about forests.

Main statements: `Stands.beneath_iff` and `Descends.level_eq`.
-/

namespace Primer

namespace Tree

/-- A node lies under another one, going from parent to parent. -/
def Beneath (t : Tree) : NodeId → NodeId → Prop :=
  Relation.TransGen fun id owner => t.parent? id = some owner

/-- Parents and successors agree, and what a node owns stands behind it. -/
structure Descends (t : Tree) : Prop where
  owned : ∀ {owner id}, t.parent? id = some owner → id ∈ t.successors owner
  parent : ∀ {owner id}, id ∈ t.successors owner → t.parent? id = some owner
  behind : ∀ {owner id : Nat}, id ∈ t.successors owner → owner < id ∧ id < t.size

/-! ## Owners in a layout -/

section

variable {t : Tree} {c : Construct} {line : Nat} {body slots : Forest} {n x id : Nat}

/-- What is right below a node has it for a parent. -/
theorem Stands.parent?_of_mem_successors (h : t.Stands n c line body slots)
    (hid : id ∈ t.successors n) : t.parent? id = some n := by
  rw [h.successors_eq, List.mem_append] at hid
  rcases hid with hid | hid
  · exact h.inBody.parent?_of_mem_roots hid
  · exact h.inSlots.parent?_of_mem_roots hid

/-- Every position of a layout is owned by a position before it, or by what owns the layout. -/
theorem Lays.exists_owner {f : Forest} {linkage : Forest.Linkage} {start owner : Nat}
    (h : t.Lays (some owner) linkage start f)
    (howner : ∀ id ∈ f.roots start, id ∈ t.successors owner) (hge : start ≤ x)
    (hlt : x < start + f.size) :
    ∃ o, (o = owner ∨ start ≤ o ∧ o < x) ∧ x ∈ t.successors o ∧ t.parent? x = some o := by
  induction f generalizing owner linkage start with
  | nil =>
    rw [Forest.size] at hlt
    omega
  | cons c line body slots rest ihb ihs ihr =>
    obtain ⟨hstands, hrest⟩ := h.parts
    rw [Forest.size] at hlt
    rw [Forest.roots, List.forall_mem_cons] at howner
    have hunder (id : Nat) (hid : id ∈ body.roots (start + 1) ∨
        id ∈ slots.roots (start + 1 + body.size)) : id ∈ t.successors start := by
      rwa [hstands.successors_eq, List.mem_append]
    by_cases hx : x = start
    · subst hx
      exact ⟨owner, Or.inl rfl, howner.1, parent?_of_node? h.node rfl⟩
    -- what is under the construct is owned by it or from within
    by_cases hb : x < start + 1 + body.size
    · obtain ⟨o, ho, hmem⟩ := ihb hstands.inBody (fun id hid => hunder id (Or.inl hid))
        (by omega) hb
      exact ⟨o, Or.inr (by omega), hmem⟩
    by_cases hs : x < start + 1 + body.size + slots.size
    · obtain ⟨o, ho, hmem⟩ := ihs hstands.inSlots (fun id hid => hunder id (Or.inr hid))
        (by omega) hs
      exact ⟨o, Or.inr (by omega), hmem⟩
    · obtain ⟨o, ho, hmem⟩ := ihr hrest howner.2 (by omega) (by omega)
      exact ⟨o, by omega, hmem⟩

/-- What a position of a layout owns stands behind it in the layout. -/
theorem Lays.mem_successors {f : Forest} {owner : Option NodeId} {linkage : Forest.Linkage}
    {start : Nat} (h : t.Lays owner linkage start f) (hge : start ≤ x)
    (hlt : x < start + f.size) (hid : id ∈ t.successors x) : x < id ∧ id < start + f.size := by
  induction f generalizing owner linkage start with
  | nil =>
    rw [Forest.size] at hlt
    omega
  | cons c line body slots rest ihb ihs ihr =>
    obtain ⟨hstands, hrest⟩ := h.parts
    rw [Forest.size] at hlt ⊢
    by_cases hx : x = start
    · subst hx
      rw [hstands.successors_eq, List.mem_append] at hid
      rcases hid with hid | hid <;> have hrange := Forest.mem_roots hid <;> omega
    by_cases hb : x < start + 1 + body.size
    · have hrange := ihb hstands.inBody (by omega) hb
      omega
    by_cases hs : x < start + 1 + body.size + slots.size
    · have hrange := ihs hstands.inSlots (by omega) hs
      omega
    · have hrange := ihr hrest (by omega) (by omega)
      omega

end

/-- The parent of a position under a node is that node, or a position under it as well. -/
theorem Stands.exists_owner {t : Tree} {n x : Nat} {c : Construct} {line : Nat}
    {body slots : Forest} (h : t.Stands n c line body slots) (hge : n < x)
    (hlt : x < n + 1 + body.size + slots.size) :
    ∃ o, n ≤ o ∧ o < x ∧ x ∈ t.successors o ∧ t.parent? x = some o := by
  have hunder (id : Nat) (hid : id ∈ body.roots (n + 1) ∨ id ∈ slots.roots (n + 1 + body.size)) :
      id ∈ t.successors n := by
    rwa [h.successors_eq, List.mem_append]
  by_cases hb : x < n + 1 + body.size
  · obtain ⟨o, ho, hmem⟩ := h.inBody.exists_owner (fun id hid => hunder id (Or.inl hid)) hge hb
    exact ⟨o, by omega, by omega, hmem⟩
  · have hs : n + 1 + body.size ≤ x := by omega
    obtain ⟨o, ho, hmem⟩ := h.inSlots.exists_owner (fun id hid => hunder id (Or.inr hid)) hs hlt
    exact ⟨o, by omega, by omega, hmem⟩

/-- What is right below a node in a stretch of the layout is in that stretch. -/
theorem Stands.mem_successors {t : Tree} {n x id : Nat} {c : Construct} {line : Nat}
    {body slots : Forest} (h : t.Stands n c line body slots) (hge : n ≤ x)
    (hlt : x < n + 1 + body.size + slots.size) (hid : id ∈ t.successors x) :
    x < id ∧ id < n + 1 + body.size + slots.size := by
  rcases Nat.eq_or_lt_of_le hge with rfl | hgt
  · rw [h.successors_eq, List.mem_append] at hid
    rcases hid with hid | hid <;> have hrange := Forest.mem_roots hid <;> omega
  by_cases hb : x < n + 1 + body.size
  · have hrange := h.inBody.mem_successors hgt hb hid
    omega
  · exact h.inSlots.mem_successors (by omega) hlt hid

/-! ## Parents -/

/-- A node that stands alone and knows no parent has none. -/
theorem parent?_eq_none {t : Tree} {id : Nat}
    (h : ∀ n, t.node? id = some n → n.parent = none ∧ n.previous = none) : t.parent? id = none := by
  unfold parent?
  cases t.size with
  | zero => rfl
  | succ bound =>
    rw [parentWithin]
    cases hn : t.node? id with
    | none => rfl
    | some n =>
      obtain ⟨hparent, hprevious⟩ := h n hn
      simp only [hparent, hprevious, Option.bind_none]

theorem lt_size_of_mem_successors {t : Tree} {owner id : Nat} (h : id ∈ t.successors owner) :
    owner < t.size := by
  refine Nat.lt_of_not_le fun hge => ?_
  have hnone : t.node? owner = none := Array.getElem?_eq_none_iff.2 hge
  simp [successors, children, construct?, hnone, chain_none] at h

/-- In a tree that is the layout of one construct with all that belongs to it, parents and
successors agree. -/
theorem descends_of_lays {t : Tree} {c : Construct} {line : Nat} {body slots : Forest}
    (h : t.Lays none (.chain none none) 0 (.cons c line body slots .nil))
    (hsize : t.size = 0 + 1 + body.size + slots.size) : t.Descends := by
  have hstands := h.parts.1
  have hmem {owner id : Nat} (hid : id ∈ t.successors owner) :
      t.parent? id = some owner ∧ owner < id ∧ id < t.size := by
    have howner := lt_size_of_mem_successors hid
    have hrange : owner < 0 + (Forest.cons c line body slots .nil).size := by
      rw [Forest.size, Forest.size]
      omega
    obtain ⟨_, _, _, _, hs⟩ := h.exists_stands (Nat.zero_le owner) hrange
    rw [hsize]
    exact ⟨hs.parent?_of_mem_successors hid, hstands.mem_successors (Nat.zero_le _) (by omega) hid⟩
  refine ⟨fun {owner id} hparent => ?_, fun hid => (hmem hid).1, fun hid => (hmem hid).2⟩
  -- what has a parent is a node, and not the first
  have hlt : id < t.size := by
    refine Nat.lt_of_not_le fun hge => ?_
    have hnone : t.node? id = none := Array.getElem?_eq_none_iff.2 hge
    rw [parent?_eq_none fun n hn => by rw [hnone] at hn; cases hn] at hparent
    cases hparent
  have hpos : id ≠ 0 := by
    rintro rfl
    rw [parent?_eq_none fun n hn => by cases hn.symm.trans h.node; exact ⟨rfl, rfl⟩] at hparent
    cases hparent
  obtain ⟨o, -, -, ho, hparent'⟩ := hstands.exists_owner (Nat.pos_of_ne_zero hpos) (hsize ▸ hlt)
  rw [hparent] at hparent'
  cases hparent'
  exact ho

/-- What lies under a node are the positions of its body and its slots. -/
theorem Stands.beneath_iff {t : Tree} {n x : Nat} {c : Construct} {line : Nat} {body slots : Forest}
    (h : t.Stands n c line body slots) (ht : t.Descends) :
    t.Beneath x n ↔ n < x ∧ x < n + 1 + body.size + slots.size := by
  constructor
  · intro hbeneath
    induction hbeneath using Relation.TransGen.head_induction_on with
    | single hparent => exact h.mem_successors (Nat.le_refl n) (by omega) (ht.owned hparent)
    | head hparent _ ih =>
      have hrange := h.mem_successors (Nat.le_of_lt ih.1) ih.2 (ht.owned hparent)
      omega
  · rintro ⟨hge, hlt⟩
    -- the parent is the node or a position under it that stands further in front
    induction x using Nat.strongRecOn with
    | _ x ih =>
      obtain ⟨o, hfrom, hto, -, hparent⟩ := h.exists_owner hge hlt
      rcases Nat.eq_or_lt_of_le hfrom with rfl | hgt
      · exact .single hparent
      · exact .head hparent (ih o hto hgt (by omega))

/-! ## Levels -/

/-- The step from a node to its parent: none from a branch to its conditional, one otherwise. -/
def step (t : Tree) (id : NodeId) : Nat :=
  match t.construct? id with
  | some (.elseIf ..) | some (.otherwise _) => 0
  | _ => 1

/-- The number of steps up from a node, from parent to parent, for a bounded number of nodes. -/
def levelWithin (t : Tree) : Nat → NodeId → Nat
  | 0, _ => 0
  | bound + 1, id =>
    match t.parent? id with
    | none => 0
    | some owner => t.levelWithin bound owner + t.step id

/-- How deep a node stands. -/
def level (t : Tree) (id : NodeId) : Nat := t.levelWithin t.size id

namespace Descends

variable {t : Tree}

/-- Every parent stands further in front, so a bound beyond the node is never reached. -/
theorem levelWithin_eq (h : t.Descends) {id bound more : Nat} (hbound : id < bound)
    (hmore : id < more) : t.levelWithin bound id = t.levelWithin more id := by
  induction id using Nat.strongRecOn generalizing bound more with
  | _ id ih =>
    obtain ⟨b, rfl⟩ : ∃ b, bound = b + 1 := ⟨bound - 1, by omega⟩
    obtain ⟨m, rfl⟩ : ∃ m, more = m + 1 := ⟨more - 1, by omega⟩
    rw [levelWithin, levelWithin]
    cases hparent : t.parent? id with
    | none => rfl
    | some owner =>
      have hlt := (h.behind (h.owned hparent)).1
      have hsame : t.levelWithin b owner = t.levelWithin m owner :=
        ih owner hlt (Nat.lt_of_lt_of_le hlt (Nat.le_of_lt_succ hbound))
          (Nat.lt_of_lt_of_le hlt (Nat.le_of_lt_succ hmore))
      simp only [hsame]

/-- A node stands one step deeper than its parent. -/
theorem level_eq (h : t.Descends) {id owner : Nat} (hparent : t.parent? id = some owner) :
    t.level id = t.level owner + t.step id := by
  obtain ⟨hlt, hsize⟩ := h.behind (h.owned hparent)
  obtain ⟨more, hmore⟩ : ∃ more, t.size = more + 1 := ⟨t.size - 1, by omega⟩
  have howner := h.levelWithin_eq (show owner < more by omega) (show owner < more + 1 by omega)
  rw [level, level, hmore, levelWithin, hparent, ← howner]

end Descends

/-- A node without a parent stands at level zero. -/
theorem level_eq_zero {t : Tree} {id : NodeId} (h : t.parent? id = none) : t.level id = 0 := by
  unfold level
  cases t.size with
  | zero => rfl
  | succ bound => rw [levelWithin, h]

theorem step_of_branch {t : Tree} {id : NodeId} {c : Construct} (hc : t.construct? id = some c)
    (hbranch : c.IsBranch) : t.step id = 0 := by
  unfold step
  rw [hc]
  cases c <;> first | rfl | exact hbranch.elim

theorem step_of_not_branch {t : Tree} {id : NodeId} {c : Construct} (hc : t.construct? id = some c)
    (hbranch : ¬ c.IsBranch) : t.step id = 1 := by
  unfold step
  rw [hc]
  cases c <;> first | rfl | exact (hbranch trivial).elim

end Tree

/-! ## Where branches stand -/

/-- Only blocks have a body, and branches stand in the slots of conditionals and nowhere else. -/
structure Construct.Carries (c : Construct) (body slots : Forest) : Prop where
  block : c.scope? = none → body = .nil
  body : body.Tops (¬ ·.IsBranch)
  slots : slots.Tops fun branch => branch.IsBranch ↔ Tree.isConditional c = true

/-- A block without slots. -/
theorem Construct.Carries.of_block {c : Construct} {body : Forest} (h : c.scope? ≠ none)
    (hbody : body.Tops fun branch => branch.IsBranch ↔ False) : c.Carries body .nil where
  block hnone := absurd hnone h
  body := hbody.imp fun _ hbranch => hbranch.1
  slots := trivial

namespace Forest

/-- Every construct carries what it may. -/
def Carried : Forest → Prop
  | nil => True
  | cons c _ body slots rest =>
    c.Carries body slots ∧ body.Carried ∧ slots.Carried ∧ rest.Carried

/-- Of two forests in a row, each has its branches in the slots of conditionals. -/
theorem carried_append (f g : Forest) : (f.append g).Carried ↔ f.Carried ∧ g.Carried := by
  induction f with
  | nil => simp [append, Carried]
  | cons c line body slots rest _ _ ih => simp only [append, Carried, ih, and_assoc]

/-- A property of the topmost constructs, of two forests in a row. -/
theorem tops_append {P : Construct → Prop} (f g : Forest) :
    (f.append g).Tops P ↔ f.Tops P ∧ g.Tops P := by
  induction f with
  | nil => simp [append, Tops]
  | cons c line body slots rest _ _ ih => simp only [append, Tops, ih, and_assoc]

end Forest

namespace Tree

variable {t : Tree} {owner : Option NodeId} {linkage : Forest.Linkage} {start : Nat} {f : Forest}

/-- What has a property among the outermost constructs of a layout stands in the tree. -/
theorem Lays.exists_stands_of_mem_roots {P : Construct → Prop} (h : t.Lays owner linkage start f)
    (htops : f.Tops P) {id : Nat} (hid : id ∈ f.roots start) :
    ∃ c line body slots, P c ∧ t.Stands id c line body slots := by
  induction f generalizing owner linkage start with
  | nil => cases hid
  | cons c line body slots rest _ _ ih =>
    obtain ⟨hstands, hrest⟩ := h.parts
    rw [Forest.roots, List.mem_cons] at hid
    rcases hid with rfl | hid
    · exact ⟨c, line, body, slots, htops.1, hstands⟩
    · exact ih hrest htops.2 hid

/-- At every position of a layout a construct stands that carries what it may. -/
theorem Lays.exists_carries (h : t.Lays owner linkage start f) (hcarried : f.Carried) {id : Nat}
    (hge : start ≤ id) (hlt : id < start + f.size) :
    ∃ c line body slots, t.Stands id c line body slots ∧ c.Carries body slots := by
  induction f generalizing owner linkage start with
  | nil =>
    rw [Forest.size] at hlt
    omega
  | cons c line body slots rest ihb ihs ihr =>
    obtain ⟨hstands, hrest⟩ := h.parts
    obtain ⟨hcarries, hcbody, hcslots, hcrest⟩ := hcarried
    rw [Forest.size] at hlt
    by_cases hid : id = start
    · subst hid
      exact ⟨_, _, _, _, hstands, hcarries⟩
    by_cases hb : id < start + 1 + body.size
    · exact ihb hstands.inBody hcbody (by omega) hb
    by_cases hs : id < start + 1 + body.size + slots.size
    · exact ihs hstands.inSlots hcslots (by omega) hs
    · exact ihr hrest hcrest (by omega) (by omega)

/-- A branch belongs to a conditional, as one of its slots. -/
theorem Stands.conditional_of_branch {n id : Nat} {c branch : Construct} {line : Nat}
    {body slots : Forest} (h : t.Stands n c line body slots) (hcarries : c.Carries body slots)
    (hid : id ∈ t.successors n) (hbranch : t.construct? id = some branch)
    (hkind : branch.IsBranch) : ∃ scope condition elseIfs last,
      c = .conditional scope condition elseIfs last ∧ id ∈ elseIfs ++ last.toList := by
  rw [h.successors_eq, List.mem_append] at hid
  rcases hid with hid | hid
  · obtain ⟨_, _, _, _, hnot, hs⟩ := h.inBody.exists_stands_of_mem_roots hcarries.body hid
    cases hbranch.symm.trans hs.construct?_eq
    exact absurd hkind hnot
  · obtain ⟨_, _, _, _, hiff, hs⟩ := h.inSlots.exists_stands_of_mem_roots hcarries.slots hid
    cases hbranch.symm.trans hs.construct?_eq
    have hconditional := hiff.1 hkind
    rw [← h.slots_eq] at hid
    cases c with
    | conditional scope condition elseIfs last =>
      exact ⟨scope, condition, elseIfs, last, rfl, hid⟩
    | _ => cases hconditional

end Tree

namespace Grammar

/-- What is read are the further branches of a conditional. -/
def Role.IsBranches : Role → Prop
  | .branches _ => True
  | .declaration | .statement | .routine | .body | .items => False

/-- A list of branches is of its own: nothing in it is a statement of a block, and the other way
round. -/
theorem Role.Admits.not_branches {list role : Role} (h : list.Admits role) :
    ¬ list.IsBranches ∧ ¬ role.IsBranches := by
  cases list <;> cases role <;> simp_all [Role.Admits, Role.IsBranches]

/-- Branches are read as branches and nothing else is. -/
theorem Reads.carried {role : Role} {d d' : Draft} {f : Forest} (h : Reads role d f d') :
    f.Carried ∧ f.Tops fun c => c.IsBranch ↔ role.IsBranches := by
  induction h with
  | declaration =>
    exact ⟨⟨⟨fun _ => rfl, trivial, trivial⟩, trivial, trivial, trivial⟩, Iff.rfl, trivial⟩
  | @simple _ _ _ c _ kind =>
    refine ⟨⟨⟨fun _ => rfl, trivial, trivial⟩, trivial, trivial, trivial⟩, ?_, trivial⟩
    cases c <;> first | exact Iff.rfl | exact kind.elim
  | loop _ _ _ _ _ ih =>
    exact ⟨⟨.of_block (Option.some_ne_none _) ih.2, ih.1, trivial, trivial⟩, Iff.rfl, trivial⟩
  | @conditional _ d₁ d₂ _ _ _ scope condition _ slots _ _ _ _ _ _ ihb ihs =>
    obtain ⟨elseIfs, last, hfill⟩ := slots.exists_fill_eq d₂.tree.size scope condition [] none
    rw [hfill]
    have hcarries : (Construct.conditional scope condition elseIfs last).Carries _ slots :=
      ⟨fun hnone => absurd hnone (Option.some_ne_none _), ihb.2.imp fun _ hbranch => hbranch.1,
        ihs.2.imp fun _ hbranch => ⟨fun _ => rfl, fun _ => hbranch.2 trivial⟩⟩
    exact ⟨⟨hcarries, ihb.1, ihs.1, trivial⟩, Iff.rfl, trivial⟩
  | elseIf _ _ _ _ _ _ ihb ihs =>
    exact ⟨⟨.of_block (Option.some_ne_none _) ihb.2, ihb.1, trivial, ihs.1⟩, Iff.rfl, ihs.2⟩
  | otherwise _ _ _ _ ih =>
    exact ⟨⟨.of_block (Option.some_ne_none _) ih.2, ih.1, trivial, trivial⟩, Iff.rfl, trivial⟩
  | routine _ _ _ _ _ _ _ _ _ ih =>
    exact ⟨⟨.of_block (Option.some_ne_none _) ih.2, ih.1, trivial, trivial⟩, Iff.rfl, trivial⟩
  | done _ => exact ⟨trivial, trivial⟩
  | item admitted _ _ ihf ihm =>
    obtain ⟨hlist, hrole⟩ := admitted.not_branches
    have hfirst := ihf.2.imp fun c hc => hc.trans (iff_of_false hrole hlist)
    exact ⟨(Forest.carried_append _ _).2 ⟨ihf.1, ihm.1⟩,
      (Forest.tops_append _ _).2 ⟨hfirst, ihm.2⟩⟩

/-- In an accepted program, branches stand in the slots of conditionals and nowhere else. -/
theorem ReadsProgram.carried {tokens : List Lexeme} {f : Forest} {p : Program}
    (h : ReadsProgram tokens f p) : f.Carried := by
  cases h with
  | intro taken written placed inside begun scope_eq entryPlaced entered =>
    obtain ⟨hitems, htops⟩ := inside.carried
    obtain ⟨hbody, htops'⟩ := entered.carried
    refine ⟨⟨fun hnone => absurd hnone (Option.some_ne_none _),
      htops.imp fun _ hbranch => hbranch.1, ⟨?_, trivial⟩⟩, hitems,
      ⟨.of_block (Option.some_ne_none _) htops', hbody, trivial, trivial⟩, trivial⟩
    exact iff_of_false id Bool.false_ne_true

end Grammar

end Primer
