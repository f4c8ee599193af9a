import Primer.Proofs.Grammar.Reading

/-!
# Primer.Proofs.Tree.Frame — what reading does not change in a tree.

Of the nodes that are there already, reading looks at two things only: whether a node is a routine,
and what it declares.  Placing a node changes links and slots, so neither changes
(`Tree.Keeps`).  Main statements: `Reads.keeps`, `Reads.size_eq` and `Reads.suffix`.

A property of the constructs that an operation does not touch is kept by `Tree.Same view`, where
`view` picks what is looked at of a construct.  It is proved once for every operation that places a
node; `Tree.Keeps`, in which nodes may also be added, follows from it, and an induction over the
rules of reading carries it from one draft to a later one.
-/

namespace Primer

/-- The heading of a routine. -/
def Construct.heading? : Construct → Option Heading
  | routine heading => some heading
  | _ => none

/-- What a declaration declares. -/
def Construct.declaration? : Construct → Option Declaration
  | declaration d => some d
  | _ => none

/-- The id that a construct declares is that of its declaration. -/
theorem Construct.declared?_eq (c : Construct) : c.declared? = c.declaration?.map (·.id) := by
  cases c <;> rfl

namespace Tree

/-- The nodes of one tree are there in another one, with the same headings and declarations. -/
structure Keeps (t t' : Tree) : Prop where
  size : t.size ≤ t'.size
  heading : ∀ id : Nat, id < t.size →
    (t'.construct? id).bind Construct.heading? = (t.construct? id).bind Construct.heading?
  declaration : ∀ id : Nat, id < t.size →
    (t'.construct? id).bind Construct.declaration? = (t.construct? id).bind Construct.declaration?

/-- A node that was there declares afterwards what it declared before. -/
theorem Keeps.declared {t t' : Tree} (h : t.Keeps t') (id : Nat) (hid : id < t.size) :
    (t'.construct? id).bind Construct.declared? = (t.construct? id).bind Construct.declared? := by
  have hmap : ∀ c : Option Construct,
      c.bind Construct.declared? = (c.bind Construct.declaration?).map (·.id) := by
    rintro (_ | c)
    · rfl
    · exact c.declared?_eq
  rw [hmap, hmap, h.declaration id hid]

theorem Keeps.refl (t : Tree) : t.Keeps t :=
  ⟨Nat.le_refl _, fun _ _ => rfl, fun _ _ => rfl⟩

theorem Keeps.trans {t t' t'' : Tree} (h : t.Keeps t') (h' : t'.Keeps t'') : t.Keeps t'' where
  size := Nat.le_trans h.size h'.size
  heading id hid := (h'.heading id (Nat.lt_of_lt_of_le hid h.size)).trans (h.heading id hid)
  declaration id hid :=
    (h'.declaration id (Nat.lt_of_lt_of_le hid h.size)).trans (h.declaration id hid)

/-- A new node stands behind those that are there. -/
theorem keeps_allocate (t : Tree) (c : Construct) (line : Nat) :
    t.Keeps (t.allocate c line).2 := by
  refine ⟨by simp [allocate, size], fun id hid => ?_, fun id hid => ?_⟩
  · rw [construct?, construct?, node?_allocate_of_lt t c line hid]
  · rw [construct?, construct?, node?_allocate_of_lt t c line hid]

theorem size_allocate (t : Tree) (c : Construct) (line : Nat) :
    (t.allocate c line).2.size = t.size + 1 := by
  simp [allocate, size]

theorem construct?_allocate (t : Tree) (c : Construct) (line : Nat) :
    (t.allocate c line).2.construct? t.size = some c := by
  rw [construct?, show t.size = (t.allocate c line).1 from rfl, node?_allocate_self]
  rfl

/-- Behind the last node there is no construct. -/
theorem construct?_of_size_le {t : Tree} {id : Nat} (h : t.size ≤ id) :
    t.construct? id = none := by
  rw [construct?, node?, Array.getElem?_eq_none h]
  rfl

theorem size_insertFirst (t : Tree) (anchor new : NodeId) :
    (t.insertFirst anchor new).size = t.size := by
  unfold insertFirst
  cases (t.node? anchor).bind (·.firstChild) <;> simp

theorem size_insertAfter (t : Tree) (anchor new : NodeId) :
    (t.insertAfter anchor new).size = t.size := by
  unfold insertAfter
  cases (t.node? anchor).bind (·.next) <;> simp

/-! ### Placed nodes -/

/-- The same constructs stand in both trees, as far as `view` shows. -/
def Same {β : Type} (view : Construct → β) (t t' : Tree) : Prop :=
  ∀ id, (t'.construct? id).map view = (t.construct? id).map view

namespace Same

variable {β : Type} {view : Construct → β} {t t' tree : Tree}

theorem refl (view : Construct → β) (t : Tree) : Same view t t := fun _ => rfl

/-- A further change of one node that is none for the view. -/
theorem modify (h : Same view t t') {id : NodeId} {f : Node → Node}
    (hf : ∀ n, t'.node? id = some n → view (f n).construct = view n.construct) :
    Same view t (t'.modify id f) := by
  intro other
  rw [← h other]
  by_cases ho : other = id
  · subst ho
    rw [construct?, construct?, node?_modify_self]
    cases hn : t'.node? other with
    | none => rfl
    | some n => exact congrArg some (hf n hn)
  · rw [construct?, construct?, node?_modify_of_ne t' ho]

/-- A further change of links. -/
theorem links (h : Same view t t') {id : NodeId} {f : Node → Node}
    (hf : ∀ n, (f n).construct = n.construct) : Same view t (t'.modify id f) :=
  h.modify fun n _ => by rw [hf]

/-- A further change of one construct. -/
theorem replace (h : Same view t t') {id : NodeId} {c c' : Construct}
    (hc : t'.construct? id = some c) (hview : view c' = view c) :
    Same view t (t'.modify id fun n => { n with construct := c' }) := by
  refine h.modify fun n hn => ?_
  have hat : n.construct = c := by simpa [construct?, hn] using hc
  rw [hat, ← hview]

theorem insertFirst (view : Construct → β) (t : Tree) (anchor new : NodeId) :
    Same view t (t.insertFirst anchor new) := by
  unfold Tree.insertFirst
  dsimp only
  refine links (links ?_ ?_) ?_
  · split
    · refine (refl view t).links ?_
      exact fun _ => rfl
    · exact refl view t
  · exact fun _ => rfl
  · exact fun _ => rfl

theorem insertAfter (view : Construct → β) (t : Tree) (anchor new : NodeId) :
    Same view t (t.insertAfter anchor new) := by
  unfold Tree.insertAfter
  dsimp only
  refine links (links ?_ ?_) ?_
  · split
    · refine (refl view t).links ?_
      exact fun _ => rfl
    · exact refl view t
  · exact fun _ => rfl
  · exact fun _ => rfl

/-- A conditional gets a branch, where the view shows no slots. -/
theorem attachBranch {conditional branch : NodeId}
    (h : t.attachBranch conditional branch = .ok tree)
    (hview : ∀ scope condition elseIfs last elseIfs' last',
      view (.conditional scope condition elseIfs' last')
        = view (.conditional scope condition elseIfs last)) : Same view t tree := by
  unfold Tree.attachBranch at h
  split at h
  · rename_i hc
    cases h
    refine links ((refl view t).replace hc (hview ..)) ?_
    exact fun _ => rfl
  · rename_i hc
    cases h
    refine links ((refl view t).replace hc (hview ..)) ?_
    exact fun _ => rfl
  · cases h

/-- The unit gets its entry block, where the view shows no slots. -/
theorem setEntry {block : NodeId} (h : t.setEntry block = .ok tree)
    (hview : ∀ name scope entry entry', view (.unit name scope entry')
      = view (.unit name scope entry)) : Same view t tree := by
  unfold Tree.setEntry at h
  split at h
  · cases h
  · split at h
    · rename_i hc
      cases h
      refine links ((refl view t).replace hc (hview ..)) ?_
      exact fun _ => rfl
    · cases h
    · cases h

/-- What reading looks at is the same. -/
theorem keeps (h : Same (fun c => (c.heading?, c.declaration?)) t t') (hsize : t'.size = t.size) :
    t.Keeps t' := by
  refine ⟨Nat.le_of_eq hsize.symm, fun id _ => ?_, fun id _ => ?_⟩
  all_goals
    have hid := h id
    cases hc : t.construct? id <;> cases hc' : t'.construct? id <;> simp_all

end Same

/-- A branch that is attached was a node before. -/
theorem size_attachBranch {t tree : Tree} {conditional branch : NodeId}
    (h : t.attachBranch conditional branch = .ok tree) : tree.size = t.size := by
  unfold attachBranch at h
  split at h
  · cases h
    simp [attachBranch.place]
  · cases h
    simp [attachBranch.place]
  · cases h

theorem size_setEntry {t tree : Tree} {block : NodeId} (h : t.setEntry block = .ok tree) :
    tree.size = t.size := by
  unfold setEntry at h
  split at h
  · cases h
  · split at h <;> cases h
    simp

/-- A conditional that gets a branch stays a conditional. -/
theorem keeps_attachBranch {t tree : Tree} {conditional branch : NodeId}
    (h : t.attachBranch conditional branch = .ok tree) : t.Keeps tree ∧ tree.size = t.size :=
  ⟨(Same.attachBranch h fun _ _ _ _ _ _ => rfl).keeps (size_attachBranch h), size_attachBranch h⟩

/-- A root that is set keeps all nodes. -/
theorem keeps_setRoot {t tree : Tree} {id : NodeId} (h : t.setRoot id = .ok tree) :
    t.Keeps tree := by
  unfold setRoot at h
  split at h
  · cases h
  · cases h
    exact ⟨Nat.le_refl _, fun _ _ => rfl, fun _ _ => rfl⟩

/-- The unit that gets its entry block stays the unit. -/
theorem keeps_setEntry {t tree : Tree} {block : NodeId} (h : t.setEntry block = .ok tree) :
    t.Keeps tree ∧ tree.size = t.size :=
  ⟨(Same.setEntry h fun _ _ _ _ => rfl).keeps (size_setEntry h), size_setEntry h⟩

end Tree

namespace Grammar

/-! ## While statements are read -/

/-- Attaching a node to the open block changes no construct. -/
theorem Draft.same_attached {β : Type} (view : Construct → β) (d : Draft) (node : NodeId) :
    Tree.Same view d.tree (d.attached node).tree := by
  unfold attached
  split
  · exact .refl _ _
  · dsimp only
    split
    · exact .insertAfter _ _ _ _
    · exact .insertFirst _ _ _ _

theorem Draft.size_attached (d : Draft) (node : NodeId) :
    (d.attached node).tree.size = d.tree.size := by
  unfold attached
  split
  · rfl
  · dsimp only
    split
    · exact Tree.size_insertAfter _ _ _
    · exact Tree.size_insertFirst _ _ _

/-- Attaching a node keeps what is looked at, and makes no node. -/
theorem Draft.attached_tree (d : Draft) (node : NodeId) :
    d.tree.Keeps (d.attached node).tree ∧ (d.attached node).tree.size = d.tree.size :=
  ⟨(d.same_attached _ node).keeps (d.size_attached node), d.size_attached node⟩

theorem Draft.Skips.keeps {d d' : Draft} (h : d.Skips d') : d.tree.Keeps d'.tree :=
  h.tree ▸ .refl _

/-- A construct was made and its body read. -/
theorem Draft.size_entered {d d₁ d₂ : Draft} {c : Construct} {line size : Nat}
    (htree : d₁.tree = d.tree) (h : d₂.tree.size = (d₁.tree.allocate c line).2.size + size) :
    d₂.tree.size = d.tree.size + 1 + size := by
  rw [h, Tree.size_allocate, htree]

/-- A branch was made and put into its slot, and its body read. -/
theorem Draft.size_placed {d d₁ d₂ : Draft} {tree : Tree} {c : Construct} {line size : Nat}
    {conditional branch : NodeId} (htree : d₁.tree = d.tree)
    (hplaced : (d₁.tree.allocate c line).2.attachBranch conditional branch = .ok tree)
    (h : d₂.tree.size = tree.size + size) : d₂.tree.size = d.tree.size + 1 + size := by
  rw [h, (Tree.keeps_attachBranch hplaced).2, Tree.size_allocate, htree]

/-- Reading makes one node for each construct. -/
theorem Reads.size_eq {role : Role} {d d' : Draft} {f : Forest} (h : Reads role d f d') :
    d'.tree.size = d.tree.size + f.size := by
  induction h with
  | @declaration _ d₁ line v taken =>
    have hmade := d₁.tree.size_allocate (.declaration v) line
    exact hmade.trans (congrArg (·.size + 1) taken.tree)
  | @simple _ d₁ line c taken =>
    have hmade := d₁.tree.size_allocate c line
    exact hmade.trans (congrArg (·.size + 1) taken.tree)
  | loop taken _ _ _ rest ih =>
    have hbody := Draft.size_entered taken.tree ih
    have hrest := congrArg Tree.size rest.tree
    exact hrest.trans (hbody.trans (Nat.add_assoc _ _ _))
  | conditional taken _ _ _ _ rest ihb ihs =>
    have hbody := Draft.size_entered taken.tree ihb
    have hrest := congrArg Tree.size rest.tree
    -- The conditional, its body and then its branches: one node after the other.
    have hslots := ihs.trans (congrArg (· + _) hbody)
    refine hrest.trans (hslots.trans ?_)
    simp only [Forest.size]
    omega
  | elseIf taken _ _ placed _ _ ihb ihs =>
    have hbody := Draft.size_placed taken.tree placed ihb
    refine (ihs.trans (congrArg (· + _) hbody)).trans ?_
    simp only [Forest.size]
    omega
  | otherwise taken _ placed _ ih =>
    have hbody := Draft.size_placed taken.tree placed ih
    exact hbody.trans (Nat.add_assoc _ _ _)
  | routine taken _ _ _ _ _ _ rest _ ih =>
    have hbody := Draft.size_entered taken.tree ih
    have hrest := congrArg Tree.size rest.tree
    exact hrest.trans (hbody.trans (Nat.add_assoc _ _ _))
  | done _ => rfl
  | item _ _ _ ihf ihm =>
    rw [ihm, (Draft.attached_tree _ _).2, ihf, Forest.size_append, Nat.add_assoc]

/-- The nodes that are there already stay what they are. -/
theorem Reads.keeps {role : Role} {d d' : Draft} {f : Forest} (h : Reads role d f d') :
    d.tree.Keeps d'.tree := by
  induction h with
  | declaration taken => exact taken.keeps.trans (Tree.keeps_allocate _ _ _)
  | simple taken => exact taken.keeps.trans (Tree.keeps_allocate _ _ _)
  | loop taken _ _ _ rest ih =>
    exact taken.keeps.trans ((Tree.keeps_allocate _ _ _).trans (ih.trans rest.keeps))
  | conditional taken _ _ _ _ rest ihb ihs =>
    have hbody := (Tree.keeps_allocate _ _ _).trans ihb
    exact taken.keeps.trans (hbody.trans (ihs.trans rest.keeps))
  | elseIf taken _ _ placed _ _ ihb ihs =>
    have hplaced := (Tree.keeps_allocate _ _ _).trans (Tree.keeps_attachBranch placed).1
    exact taken.keeps.trans (hplaced.trans (ihb.trans ihs))
  | otherwise taken _ placed _ ih =>
    have hplaced := (Tree.keeps_allocate _ _ _).trans (Tree.keeps_attachBranch placed).1
    exact taken.keeps.trans (hplaced.trans ih)
  | routine taken _ _ _ _ _ _ rest _ ih =>
    have hbody := (Tree.keeps_allocate _ _ _).trans ih
    exact taken.keeps.trans (hbody.trans rest.keeps)
  | done _ => exact .refl _
  | item _ _ _ ihf ihm => exact ihf.trans ((Draft.attached_tree _ _).1.trans ihm)

/-- The tokens that are left are the last ones. -/
theorem Reads.suffix {role : Role} {d d' : Draft} {f : Forest} (h : Reads role d f d') :
    d'.tokens <:+ d.tokens := by
  induction h with
  | declaration taken => exact taken.suffix
  | simple taken => exact taken.suffix
  | loop taken _ _ _ rest ih => exact rest.suffix.trans (ih.trans taken.suffix)
  | conditional taken _ _ _ _ rest ihb ihs =>
    exact rest.suffix.trans (ihs.trans (ihb.trans taken.suffix))
  | elseIf taken _ _ _ _ _ ihb ihs => exact ihs.trans (ihb.trans taken.suffix)
  | otherwise taken _ _ _ ih => exact ih.trans taken.suffix
  | routine taken _ _ _ _ _ _ rest _ ih => exact rest.suffix.trans (ih.trans taken.suffix)
  | done _ => exact List.suffix_rfl
  | item _ _ _ ihf ihm =>
    rw [Draft.tokens_attached] at ihm
    exact ihm.trans ihf

end Grammar

end Primer
