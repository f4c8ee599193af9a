import Primer.Proofs.Scope.Soundness
import Primer.Proofs.Tree.Order

/-!
# Primer.Proofs.Scope.Routines — where the constructs and the routines of a program stand.

`Tree.Seats` is what is known of one construct of an accepted program: where it stands with its
parts, and that all of it fits the environment there.  A routine is one of the items of the unit,
and its body sees the items before it (`Outline.Declares`).  So every call in a program means a
routine that was complete before the call, or the one that the call is in, and what that routine
sees of the unit is declared where the call is (`Outline.Serves`).

`Outline.Declares` gives a position to every routine that is complete; what a call needs is that the
unit has declared, at the call, what it had declared at the routine.  Names of the unit are only
ever added, so this goes from a point to every later one (`Serves.mono`), and into blocks and
bodies.
-/

namespace Primer

/-! ## Constructs in their places -/

/-- A construct stands at a node, and fits the environment there with all that is under it. -/
structure Tree.Seats (t : Tree) (Γ : Env) (id : Nat) (c : Construct) (line : Nat)
    (body slots : Forest) : Prop where
  stands : t.Stands id c line body slots
  sound : c.Sound Γ.names
  allows : Γ.Allows c
  bears : c.Bears body slots
  inside : body.Sound (Γ.enter c) (id + 1)
  branches : slots.Sound Γ (id + 1 + body.size)

namespace Tree.Lays

variable {t : Tree} {owner : Option NodeId} {linkage : Forest.Linkage} {start : Nat}

/-- The first construct of a layout, and the rest of it. -/
theorem seats {Γ : Env} {c : Construct} {line : Nat} {body slots rest : Forest}
    (h : t.Lays owner linkage start (.cons c line body slots rest))
    (hsound : (Forest.cons c line body slots rest).Sound Γ start) :
    t.Seats Γ start c line body slots ∧
      t.Lays owner (linkage.after start) (start + 1 + body.size + slots.size) rest ∧
      rest.Sound (Γ.after start c) (start + 1 + body.size + slots.size) := by
  obtain ⟨hstands, hrest⟩ := h.parts
  obtain ⟨⟨hc, hallows, hbears⟩, hinside, hbranches, hmore⟩ := hsound
  exact ⟨⟨hstands, hc, hallows, hbears, hinside, hbranches⟩, hrest, hmore⟩

/-- The second of two forests stands behind the first. -/
theorem of_append {f g : Forest} (h : t.Lays owner linkage start (f.append g)) :
    ∃ linkage', t.Lays owner linkage' (start + f.size) g := by
  induction f generalizing linkage start with
  | nil => exact ⟨linkage, h⟩
  | cons c line body slots rest _ _ ih =>
    have hstart : start + (Forest.cons c line body slots rest).size
        = start + 1 + body.size + slots.size + rest.size := by
      rw [Forest.size]
      omega
    rw [hstart]
    exact ih h.parts.2

end Tree.Lays

namespace Program.Means

variable {p : Program} {o : Outline}

/-- The tree of an accepted program is laid out. -/
theorem lays (h : p.Means o) : p.tree.Lays none (.chain none none) 0 o.forest :=
  Tree.lays_of_toList h.nodes h.linked

/-- The entry block stands behind all items. -/
theorem stands_entry (h : p.Means o) :
    p.tree.Stands o.entryNode (.entry o.entryScope) o.entryLine o.body .nil := by
  have hentry := h.lays.parts.1.inSlots.parts.1
  rw [Nat.zero_add] at hentry
  exact hentry

/-- The children of the unit are its items. -/
theorem children_unit (h : p.Means o) : p.tree.children 0 = o.items.roots 1 :=
  h.lays.parts.1.children_eq

end Program.Means

/-! ## What is known behind a forest -/

namespace Env

/-- Behind constructs the point is in the same routine. -/
theorem heading_afterAll (Γ : Env) (start : Nat) (f : Forest) :
    (Γ.afterAll start f).heading = Γ.heading := by
  induction f generalizing Γ start with
  | nil => rfl
  | cons c line body slots rest _ _ ih =>
    refine (ih _ _).trans ?_
    cases c with
    | declaration d => exact Γ.heading_declare d.name
    | _ => rfl

theorem unit_names_declare (Γ : Env) (name : String) :
    Γ.unit.names ⊆ (Γ.declare name).unit.names := by
  unfold declare
  split
  · exact List.subset_append_left _ _
  · exact List.Subset.refl _

/-- The unit never loses a name. -/
theorem unit_names_afterAll (Γ : Env) (start : Nat) (f : Forest) :
    Γ.unit.names ⊆ (Γ.afterAll start f).unit.names := by
  induction f generalizing Γ start with
  | nil => exact List.Subset.refl _
  | cons c line body slots rest _ _ ih =>
    refine List.Subset.trans ?_ (ih _ _)
    cases c with
    | declaration d => exact Γ.unit_names_declare d.name
    | _ => exact List.Subset.refl _

/-- A routine that is known behind a forest was known before it or is one of its constructs. -/
theorem mem_routines_afterAll {Γ : Env} {start : Nat} {f : Forest} {r : Routine}
    (h : r ∈ (Γ.afterAll start f).routines) :
    r ∈ Γ.routines ∨ ∃ (before : Forest) (line : Nat) (body slots after : Forest),
      f = before.append (.cons (.routine r.heading) line body slots after) ∧
        r.node = start + before.size := by
  induction f generalizing Γ start with
  | nil => exact Or.inl h
  | cons c line body slots rest _ _ ih =>
    rcases ih h with hmem | ⟨before, line', body', slots', after, rfl, hnode⟩
    · cases c with
      | routine heading =>
        rcases List.mem_cons.1 hmem with rfl | hmem
        · exact Or.inr ⟨.nil, line, body, slots, rest, rfl, rfl⟩
        · exact Or.inl hmem
      | declaration d =>
        have hsame : (Γ.declare d.name).routines = Γ.routines := Γ.routines_declare d.name
        exact Or.inl (hsame ▸ hmem)
      | _ => exact Or.inl hmem
    · refine Or.inr ⟨.cons c line body slots before, line', body', slots', after, rfl, ?_⟩
      rw [hnode, Forest.size]
      simp only [Nat.add_assoc]

end Env

/-- A routine keeps its name to itself. -/
theorem Forest.Sound.routine?_afterAll {Γ : Env} {start : Nat} {f : Forest} (h : f.Sound Γ start)
    {name : String} {r : Routine} (hr : Γ.routine? name = some r) :
    (Γ.afterAll start f).routine? name = some r := by
  induction f generalizing Γ start with
  | nil => exact hr
  | cons c line body slots rest _ _ ih =>
    obtain ⟨⟨-, hallows, -⟩, -, -, hrest⟩ := h
    refine ih hrest ?_
    cases c with
    | routine heading =>
      -- a routine is only declared under a name that is free
      have hother : heading.name ≠ name := by
        rintro rfl
        have hfree : Γ.routine? heading.name = none := hallows.2.2.1
        rw [hfree] at hr
        cases hr
      show (⟨start, heading⟩ :: Γ.routines).find? _ = some r
      rw [List.find?_cons_of_neg (by simpa using hother)]
      exact hr
    | declaration d =>
      show (Γ.declare d.name).routine? name = some r
      rw [Env.routine?, Γ.routines_declare]
      exact hr
    | _ => exact hr

/-! ## The routines of a program -/

namespace Outline

/-- The routine is one of the items, and these surround it. -/
def Declares (o : Outline) (r : Routine) (Γ : Env) : Prop :=
  ∃ (before : Forest) (line : Nat) (body slots after : Forest),
    o.items = before.append (.cons (.routine r.heading) line body slots after) ∧
      r.node = 1 + before.size ∧ Γ = o.start.afterAll 1 before

/-- Every call at the point means a routine of the program whose surroundings the point knows. -/
structure Serves (o : Outline) (Γ : Env) : Prop where
  outer : Γ.inner = [] → Γ.heading = none
  scope : Γ.unit.scope = o.name
  callable : ∀ name heading, Γ.callable? name = some heading →
    ∃ r Γ', o.Declares r Γ' ∧ r.heading = heading ∧ heading.name = name ∧
      Γ'.unit.names ⊆ Γ.unit.names

namespace Serves

variable {o : Outline} {Γ Γ' : Env}

/-- The calls of a point are those of another one if the routines are. -/
theorem mono (h : o.Serves Γ) (houter : Γ'.inner = [] → Γ'.heading = none)
    (hscope : Γ'.unit.scope = Γ.unit.scope) (hnames : Γ.unit.names ⊆ Γ'.unit.names)
    (hcallable : Γ'.callable? = Γ.callable?) : o.Serves Γ' := by
  refine ⟨houter, hscope.trans h.scope, fun name heading hc => ?_⟩
  rw [hcallable] at hc
  obtain ⟨r, Γ₀, hdeclares, hheading, hname, hsub⟩ := h.callable name heading hc
  exact ⟨r, Γ₀, hdeclares, hheading, hname, List.Subset.trans hsub hnames⟩

/-- What serves a point serves the blocks in it. -/
theorem push (h : o.Serves Γ) (scope : String) :
    o.Serves { Γ with inner := ⟨scope, []⟩ :: Γ.inner } :=
  h.mono (fun hnil => by cases hnil) rfl (List.Subset.refl _) rfl

/-- What serves a point serves it behind a declaration. -/
theorem declare (h : o.Serves Γ) (name : String) : o.Serves (Γ.declare name) := by
  refine h.mono (fun hnil => ?_) (Γ.unit_scope_declare name) (Γ.unit_names_declare name) ?_
  · rw [Env.inner_declare] at hnil
    rw [Γ.heading_declare]
    refine h.outer ?_
    cases hinner : Γ.inner with
    | nil => rfl
    | cons l outer =>
      rw [hinner] at hnil
      cases hnil
  · funext other
    unfold Env.callable? Env.routine?
    rw [Γ.routines_declare, Γ.heading_declare]

/-- Going on in a block inside the unit. -/
theorem after (h : o.Serves Γ) {id : NodeId} {c : Construct} (hallows : Γ.Allows c)
    (hinner : Γ.inner ≠ []) : o.Serves (Γ.after id c) := by
  cases c with
  | declaration d => exact h.declare d.name
  | routine heading => exact absurd hallows.1 hinner
  | _ => exact h

end Serves

variable {o : Outline}

/-- One more item has been passed. -/
theorem move_item {before body slots rest : Forest}
    {c : Construct} {line : Nat}
    (h : o.items = before.append (.cons c line body slots rest)) :
    o.items = (before.append (.cons c line body slots .nil)).append rest ∧
      1 + (before.append (.cons c line body slots .nil)).size
        = 1 + before.size + 1 + body.size + slots.size ∧
      o.start.afterAll 1 (before.append (.cons c line body slots .nil))
        = (o.start.afterAll 1 before).after (1 + before.size) c := by
  refine ⟨?_, ?_, ?_⟩
  · rw [Forest.append_assoc]
    exact h
  · simp only [Forest.size_append, Forest.size]
    omega
  · rw [Env.afterAll_append]
    rfl

/-- Behind some of the items, every call means one of them. -/
theorem serves_afterAll {before after : Forest} (h : o.items = before.append after) :
    o.Serves (o.start.afterAll 1 before) := by
  refine ⟨fun _ => Env.heading_afterAll _ _ _, Env.unit_scope_afterAll _ _ _,
    fun name heading hc => ?_⟩
  unfold Env.callable? at hc
  split at hc
  · rename_i r hr
    cases hc
    have hname : r.heading.name = name := by simpa using List.find?_some hr
    rcases Env.mem_routines_afterAll (List.mem_of_find?_eq_some hr) with hmem | hitem
    · cases hmem
    · obtain ⟨earlier, line, body, slots, later, rfl, hnode⟩ := hitem
      rw [Forest.append_assoc] at h
      refine ⟨r, _, ⟨earlier, line, body, slots, _, h, hnode, rfl⟩, rfl, hname, ?_⟩
      rw [Env.afterAll_append]
      exact Env.unit_names_afterAll _ _ _
  · rw [Env.heading_afterAll] at hc
    cases hc

/-- In the body of a routine, every call means a routine before it or the routine itself. -/
theorem Declares.serves {r : Routine} {Γ : Env} (h : o.Declares r Γ) :
    o.Serves (Γ.enter (.routine r.heading)) := by
  have h' := h
  obtain ⟨before, line, body, slots, after, hitems, hnode, rfl⟩ := h'
  have hserves := serves_afterAll hitems
  refine ⟨fun hnil => (by cases hnil), hserves.scope, fun name heading hc => ?_⟩
  unfold Env.callable? at hc
  split at hc
  · rename_i r' hr'
    cases hc
    -- it was complete before this routine
    refine hserves.callable name r'.heading ?_
    have hsame : (o.start.afterAll 1 before).routine? name = some r' := hr'
    rw [Env.callable?, hsame]
  · obtain ⟨heq, hname⟩ := Option.filter_eq_some_iff.1 hc
    cases heq
    exact ⟨r, _, h, rfl, eq_of_beq hname, List.Subset.refl _⟩

end Outline

/-- A routine of a program is found under its name, and stands where its body fits. -/
theorem Program.Means.seats_routine {p : Program} {o : Outline} (h : p.Means o) {r : Routine}
    {Γ : Env} (hr : o.Declares r Γ) :
    p.routines.get? r.heading.name = some r ∧
      ∃ line body slots, p.tree.Seats Γ r.node (.routine r.heading) line body slots := by
  obtain ⟨before, line, body, slots, after, hitems, hnode, rfl⟩ := hr
  have hlays := h.lays.parts.1.inBody
  have hsound := h.items
  have hready : o.ready = o.start.afterAll 1 o.items := rfl
  rw [hitems] at hlays hsound hready
  rw [Forest.sound_append] at hsound
  obtain ⟨linkage, hrest⟩ := hlays.of_append
  obtain ⟨hseats, -, hmore⟩ := Tree.Lays.seats hrest hsound.2
  have hstart : 0 + 1 + before.size = r.node := by rw [hnode, Nat.zero_add]
  rw [hstart] at hseats
  refine ⟨?_, line, body, slots, hseats⟩
  rw [h.routines, hready, Env.afterAll_append]
  refine hmore.routine?_afterAll ?_
  show (⟨1 + before.size, r.heading⟩ :: _).find? _ = some r
  rw [List.find?_cons_of_pos (by simp), ← hnode]

end Primer
