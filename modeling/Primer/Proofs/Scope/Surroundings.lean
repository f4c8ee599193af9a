import Primer.Proofs.Scope.Routines

/-!
# Primer.Proofs.Scope.Surroundings — the routine around a node, and the calls in it.

`Tree.ancestors` climbs from a node to the root.  In an accepted program there is at most one
routine on the way, and it is the one whose heading the environment of the node has; the complete
routines of that environment stand before it.  So what the judgement `Forest.Sound` says of
headings and of calls can be read off the finished tree.

`Env.Placed` ties an environment to the nodes above a point: its heading is that of the routine
among them, if there is one, and every routine that is complete in it stands at an earlier position.
It is kept by going on and by going inside, so it holds at every node of a layout.  A call finds the
heading that it fits either there or above, and that is the whole of what calls can reach.

Main statements: `Program.Means.exists_placed` and `Env.Placed.of_call`.
-/

namespace Primer

/-! ## Calls -/

namespace Expr

mutual

/-- The routines that an expression calls. -/
def calls : Expr → List String
  | literal .. | ident .. => []
  | element _ _ indices => callsList indices
  | call _ name arguments => name :: callsArguments arguments
  | unary _ _ operand => calls operand
  | binary _ _ left right => calls left ++ calls right

/-- The routines that a list of expressions calls. -/
def callsList : List Expr → List String
  | [] => []
  | e :: rest => calls e ++ callsList rest

/-- The routines that the values among arguments call. -/
def callsArguments : List Argument → List String
  | [] => []
  | argument :: rest => callsArgument argument ++ callsArguments rest

/-- The routines that an argument calls. -/
def callsArgument : Argument → List String
  | .value e => calls e
  | .reference .. => []

end

end Expr

namespace Construct

/-- The routines that a construct calls, as a statement and in its expressions, apart from its body
and its slots. -/
def calls : Construct → List String
  | declaration ⟨_, _, _, .computed e⟩ => e.calls
  | assignment _ indices value => Expr.callsList indices ++ value.calls
  | loop _ condition | conditional _ condition _ _ | elseIf _ condition => condition.calls
  | call name arguments => name :: Expr.callsArguments arguments
  | input _ indices => Expr.callsList indices
  | output value | result (some value) => value.calls
  | unit .. | entry _ | routine _ | declaration ⟨_, _, _, .fixed _⟩ | otherwise _
  | result none => []

end Construct

namespace Expr

mutual

/-- Every routine that a sound expression calls may be called. -/
theorem callable_of_call {v : Names} {name : String} :
    ∀ e : Expr, Sound v e → name ∈ calls e → ∃ heading, v.callable name = some heading
  | literal .., _, h => by cases h
  | ident .., _, h => by cases h
  | element _ _ indices, hsound, h => callable_of_call_list indices hsound.2.2 h
  | call _ _ arguments, ⟨heading, hcallable, hfit⟩, h => by
    rw [calls, List.mem_cons] at h
    rcases h with rfl | h
    · exact ⟨heading, hcallable⟩
    · exact callable_of_call_arguments heading.parameters arguments hfit h
  | unary _ _ operand, hsound, h => callable_of_call operand hsound h
  | binary _ _ left right, hsound, h => by
    rw [calls, List.mem_append] at h
    rcases h with h | h
    · exact callable_of_call left hsound.1 h
    · exact callable_of_call right hsound.2 h

/-- A routine that is called among indices may be called. -/
theorem callable_of_call_list {v : Names} {name : String} :
    ∀ es : List Expr, SoundList v es → name ∈ callsList es →
      ∃ heading, v.callable name = some heading
  | [], _, h => by cases h
  | e :: rest, hsound, h => by
    rw [callsList, List.mem_append] at h
    rcases h with h | h
    · exact callable_of_call e hsound.1 h
    · exact callable_of_call_list rest hsound.2 h

theorem callable_of_call_arguments {v : Names} {name : String} :
    ∀ (parameters : List Parameter) (arguments : List Argument), Fit v parameters arguments →
      name ∈ callsArguments arguments → ∃ heading, v.callable name = some heading
  | _, [], _, h => by cases h
  | _, argument :: rest, ⟨parameter, more, _, hfit, hrest⟩, h => by
    rw [callsArguments, List.mem_append] at h
    rcases h with h | h
    · exact callable_of_call_argument parameter.mode argument hfit h
    · exact callable_of_call_arguments more rest hrest h

theorem callable_of_call_argument {v : Names} {name : String} (mode : PassMode) :
    ∀ argument : Argument, FitArgument v mode argument → name ∈ callsArgument argument →
      ∃ heading, v.callable name = some heading
  | .value e, hfit, h => callable_of_call e hfit.2 h
  | .reference .., _, h => by cases h

end

end Expr

/-- Every routine that a sound construct calls may be called. -/
theorem Construct.callable_of_call {v : Names} {c : Construct} (hsound : c.Sound v) {name : String}
    (h : name ∈ c.calls) : ∃ heading, v.callable name = some heading := by
  cases c with
  | declaration d =>
    obtain ⟨type, declared, id, initializer⟩ := d
    cases initializer with
    | computed e => exact e.callable_of_call hsound.2.2 h
    | fixed value => cases h
  | assignment target indices value =>
    rw [calls, List.mem_append] at h
    rcases h with h | h
    · exact Expr.callable_of_call_list indices hsound.2.1 h
    · exact value.callable_of_call hsound.2.2 h
  | loop _ condition | conditional _ condition _ _ | elseIf _ condition =>
    exact condition.callable_of_call hsound h
  | call _ arguments =>
    obtain ⟨heading, hcallable, hfit⟩ := hsound
    rw [calls, List.mem_cons] at h
    rcases h with rfl | h
    · exact ⟨heading, hcallable⟩
    · exact Expr.callable_of_call_arguments heading.parameters arguments hfit h
  | input target indices => exact Expr.callable_of_call_list indices hsound.2 h
  | output value => exact value.callable_of_call hsound h
  | result value =>
    cases value with
    | none => cases h
    | some value => exact value.callable_of_call hsound.2 h
  | unit | entry | routine | otherwise => cases h

/-! ## Climbing to the root -/

namespace Tree

/-- The nodes around a node, innermost first, for a bounded number of them. -/
def ancestorsWithin (t : Tree) : Nat → NodeId → List NodeId
  | 0, _ => []
  | bound + 1, id =>
    match t.parent? id with
    | none => []
    | some owner => owner :: t.ancestorsWithin bound owner

/-- The nodes around a node, innermost first. -/
def ancestors (t : Tree) (id : NodeId) : List NodeId := t.ancestorsWithin t.size id

/-- The name is called somewhere under the node. -/
def CallsUnder (t : Tree) (id : NodeId) (name : String) : Prop :=
  ∃ k c, id ∈ t.ancestors k ∧ t.construct? k = some c ∧ name ∈ c.calls

/-- The headings of the routines among these nodes. -/
def headings (t : Tree) (ids : List NodeId) : List Heading :=
  ids.filterMap fun id => (t.construct? id).bind Construct.heading?

/-- A climb that is long enough for the node passes these nodes. -/
def Climbs (t : Tree) (id : Nat) (above : List NodeId) : Prop :=
  ∀ bound, id < bound → t.ancestorsWithin bound id = above

variable {t : Tree} {id owner : Nat} {above : List NodeId}

/-- The way up from a node is its parent and the way from there. -/
theorem Climbs.step (h : t.Climbs owner above) (hparent : t.parent? id = some owner)
    (hlt : owner < id) : t.Climbs id (owner :: above) := by
  intro bound hbound
  obtain ⟨more, rfl⟩ : ∃ more, bound = more + 1 := ⟨bound - 1, by omega⟩
  rw [ancestorsWithin, hparent]
  show owner :: t.ancestorsWithin more owner = _
  rw [h more (by omega)]

/-- A node without an owner has nothing around it. -/
theorem climbs_root {n : Node} (hn : t.node? id = some n) (hparent : n.parent = none)
    (hprevious : n.previous = none) : t.Climbs id [] := by
  have hnone : t.parent? id = none := by
    rw [parent?]
    cases t.size with
    | zero => rfl
    | succ size => simp [parentWithin, hn, hparent, hprevious]
  intro bound hbound
  obtain ⟨more, rfl⟩ : ∃ more, bound = more + 1 := ⟨bound - 1, by omega⟩
  rw [ancestorsWithin, hnone]

/-- The walk to the root is the way up. -/
theorem Climbs.ancestors_eq (h : t.Climbs id above) (hlt : id < t.size) : t.ancestors id = above :=
  h t.size hlt

/-- The routines on the way, node by node. -/
theorem headings_cons {c : Construct} (hc : t.construct? id = some c) (ids : List NodeId) :
    t.headings (id :: ids) = c.heading?.toList ++ t.headings ids := by
  rw [headings, List.filterMap_cons, hc, Option.bind_some]
  cases c.heading? <;> rfl

/-- A heading on the way is that of a routine on the way. -/
theorem mem_headings {ids : List NodeId} {heading : Heading} :
    heading ∈ t.headings ids ↔ ∃ id ∈ ids, t.construct? id = some (.routine heading) := by
  rw [headings, List.mem_filterMap]
  refine exists_congr fun id => and_congr_right fun _ => ?_
  cases t.construct? id with
  | none => simp
  | some c => cases c <;> simp [Construct.heading?]

end Tree

/-! ## Environments in a tree -/

/-- The environment of a position, seen in the tree: the routine around the position is the only one
above it, and the complete routines stand before that one. -/
structure Env.Placed (Γ : Env) (t : Tree) (start : Nat) (above : List NodeId) : Prop where
  headings : t.headings above = Γ.heading.toList
  routines : ∀ r ∈ Γ.routines, t.construct? r.node = some (.routine r.heading) ∧ r.node < start ∧
    ∀ id ∈ above, ∀ heading, t.construct? id = some (.routine heading) → r.node < id

namespace Env.Placed

variable {Γ : Env} {t : Tree} {start : Nat} {above : List NodeId} {c : Construct}

/-- What stands earlier stands earlier than anything behind. -/
theorem mono (h : Γ.Placed t start above) {next : Nat} (hle : start ≤ next) :
    Γ.Placed t next above :=
  ⟨h.headings, fun r hr =>
    have ⟨hnode, hlt, habove⟩ := h.routines r hr
    ⟨hnode, Nat.lt_of_lt_of_le hlt hle, habove⟩⟩

/-- One construct has been passed. -/
theorem after (h : Γ.Placed t start above) (hc : t.construct? start = some c)
    (houter : c.heading? ≠ none → t.headings above = []) {next : Nat} (hlt : start < next) :
    (Γ.after start c).Placed t next above := by
  have hle := Nat.le_of_lt hlt
  cases c with
  | routine heading =>
    refine ⟨h.headings, fun r hr => ?_⟩
    rcases List.mem_cons.1 hr with rfl | hr
    · refine ⟨hc, hlt, fun id hid other hother => ?_⟩
      have hmem := Tree.mem_headings.2 ⟨id, hid, hother⟩
      rw [houter (by simp [Construct.heading?])] at hmem
      cases hmem
    · exact (h.mono hle).routines r hr
  | declaration d =>
    refine ⟨?_, fun r hr => (h.mono hle).routines r ?_⟩
    · rw [h.headings]
      exact congrArg Option.toList (Γ.heading_declare d.name).symm
    · exact Γ.routines_declare d.name ▸ hr
  | _ => exact h.mono hle

/-- The first constructs of a layout have been passed, outside all routines. -/
theorem afterAll {f g : Forest} {owner : Option NodeId} {linkage : Forest.Linkage}
    (h : Γ.Placed t start above) (hlays : t.Lays owner linkage start (f.append g))
    (houter : t.headings above = []) : (Γ.afterAll start f).Placed t (start + f.size) above := by
  induction f generalizing Γ linkage start with
  | nil => exact h
  | cons c line body slots rest _ _ ih =>
    obtain ⟨hstands, hrest⟩ := hlays.parts
    have hnext := h.after hstands.construct?_eq (fun _ => houter)
      (show start < start + 1 + body.size + slots.size by omega)
    exact (ih hnext hrest).mono (by rw [Forest.size]; omega)

/-- What is under a construct that is no routine has the same routine around it. -/
theorem below (h : Γ.Placed t start above) (hc : t.construct? start = some c)
    (hheading : c.heading? = none) : Γ.Placed t (start + 1) (start :: above) := by
  refine ⟨?_, fun r hr => ?_⟩
  · rw [Tree.headings_cons hc, hheading]
    exact h.headings
  · obtain ⟨hnode, hlt, habove⟩ := h.routines r hr
    refine ⟨hnode, Nat.lt_succ_of_lt hlt, fun id hid => ?_⟩
    rcases List.mem_cons.1 hid with rfl | hid
    · exact fun _ _ => hlt
    · exact habove id hid

/-- The body of a construct is entered. -/
theorem enter (h : Γ.Placed t start above) (hc : t.construct? start = some c)
    (hallows : Γ.Allows c) : (Γ.enter c).Placed t (start + 1) (start :: above) := by
  cases c with
  | routine heading =>
    have hnone : Γ.heading = none := hallows.2.1
    refine ⟨?_, fun r hr => ?_⟩
    · rw [Tree.headings_cons hc, h.headings, hnone]
      rfl
    · obtain ⟨hnode, hlt, habove⟩ := h.routines r hr
      refine ⟨hnode, Nat.lt_succ_of_lt hlt, fun id hid => ?_⟩
      rcases List.mem_cons.1 hid with rfl | hid
      · exact fun _ _ => hlt
      · exact habove id hid
  | loop | conditional | elseIf | otherwise =>
    have hbelow := h.below hc rfl
    exact ⟨hbelow.headings, hbelow.routines⟩
  | unit | entry => exact hallows.elim
  | _ => exact h.below hc rfl

/-- Every call in the body of a routine names a routine of the tree that stands before it, or the
routine itself. -/
theorem of_call (h : Γ.Placed t start above) {name : String} {heading : Heading}
    (hcall : Γ.callable? name = some heading) {id : NodeId} {around : Heading} (hid : id ∈ above)
    (haround : t.construct? id = some (.routine around)) :
    ∃ id' heading', id' ≤ id ∧ t.construct? id' = some (.routine heading') ∧
      heading'.name = name := by
  unfold callable? at hcall
  split at hcall
  · rename_i r hr
    obtain ⟨hnode, -, habove⟩ := h.routines r (List.mem_of_find?_eq_some hr)
    have hname : r.heading.name = name := by simpa using List.find?_some hr
    exact ⟨r.node, r.heading, Nat.le_of_lt (habove id hid around haround), hnode, hname⟩
  · obtain ⟨heq, hname⟩ := Option.filter_eq_some_iff.1 hcall
    have hmem := Tree.mem_headings.2 ⟨id, hid, haround⟩
    rw [h.headings, heq] at hmem
    cases List.mem_singleton.1 hmem
    exact ⟨id, heading, Nat.le_refl _, haround, eq_of_beq hname⟩

end Env.Placed

/-! ## Every node of a layout -/

theorem Forest.All.imp {P Q : Construct → Prop} {f : Forest} (h : f.All P)
    (himp : ∀ c, P c → Q c) : f.All Q := by
  induction f with
  | nil => trivial
  | cons c line body slots rest ihb ihs ihr =>
    exact ⟨himp c h.1, ihb h.2.1, ihs h.2.2.1, ihr h.2.2.2⟩

theorem Forest.All.and {P Q : Construct → Prop} {f : Forest} (h : f.All P) (h' : f.All Q) :
    f.All fun c => P c ∧ Q c := by
  induction f with
  | nil => trivial
  | cons c line body slots rest ihb ihs ihr =>
    exact ⟨⟨h.1, h'.1⟩, ihb h.2.1 h'.2.1, ihs h.2.2.1 h'.2.2.1, ihr h.2.2.2 h'.2.2.2⟩

/-- A property of all nodes of a layout is one of all its constructs. -/
theorem Tree.Lays.all {t : Tree} {P : Construct → Prop} {owner : Option NodeId}
    {linkage : Forest.Linkage} {start : Nat} {f : Forest} (h : t.Lays owner linkage start f)
    (hP : ∀ id c, start ≤ id → id < start + f.size → t.construct? id = some c → P c) : f.All P := by
  induction f generalizing owner linkage start with
  | nil => trivial
  | cons c line body slots rest ihb ihs ihr =>
    obtain ⟨hstands, hrest⟩ := h.parts
    rw [Forest.size] at hP
    exact ⟨hP start c (Nat.le_refl _) (by omega) hstands.construct?_eq,
      ihb hstands.inBody fun id c hge hlt => hP id c (by omega) (by omega),
      ihs hstands.inSlots fun id c hge hlt => hP id c (by omega) (by omega),
      ihr hrest fun id c hge hlt => hP id c (by omega) (by omega)⟩

/-- Inside a block no routine is declared, so all constructs have the same routines and the same
heading around them. -/
theorem Forest.Sound.all_inside {P : Construct → Prop} {f : Forest} {start : Nat} {Γ : Env}
    (h : f.Sound Γ start) (hinner : Γ.inner ≠ [])
    (hP : ∀ (Γ' : Env) (c : Construct), Γ'.routines = Γ.routines → Γ'.heading = Γ.heading →
      c.Sound Γ'.names → P c) : f.All P := by
  induction f generalizing Γ start with
  | nil => trivial
  | cons c line body slots rest ihb ihs ihr =>
    obtain ⟨⟨hc, hallows, -⟩, hbody, hslots, hrest⟩ := h
    have hroutine : c.heading? = none := by
      cases c with
      | routine heading => exact absurd hallows.1 hinner
      | _ => rfl
    have henter : (Γ.enter c).inner ≠ [] ∧ (Γ.enter c).routines = Γ.routines ∧
        (Γ.enter c).heading = Γ.heading := by
      cases c with
      | routine => cases hroutine
      | entry | loop | conditional | elseIf | otherwise => exact ⟨List.cons_ne_nil _ _, rfl, rfl⟩
      | _ => exact ⟨hinner, rfl, rfl⟩
    have hafter : (Γ.after start c).routines = Γ.routines ∧
        (Γ.after start c).heading = Γ.heading := by
      cases c with
      | routine => cases hroutine
      | declaration d => exact ⟨Γ.routines_declare d.name, Γ.heading_declare d.name⟩
      | _ => exact ⟨rfl, rfl⟩
    refine ⟨hP Γ c rfl rfl hc, ihb hbody henter.1 ?_, ihs hslots hinner hP,
      ihr hrest (Env.inner_after_ne_nil hinner start c) ?_⟩
    · rw [henter.2.1, henter.2.2]
      exact hP
    · rw [hafter.1, hafter.2]
      exact hP

/-- The node is seated at a point whose environment the tree shows, with these nodes around it. -/
def Tree.Holds (t : Tree) (id : Nat) (above : List NodeId) : Prop :=
  ∃ Γ c line body slots, t.Seats Γ id c line body slots ∧ t.Climbs id above ∧ Γ.Placed t id above

/-- Every node of a layout is seated at such a point, and what is around the layout is around it. -/
theorem Forest.Sound.holds {t : Tree} {f : Forest} {owner : Nat} {linkage : Forest.Linkage}
    {start : Nat} {Γ : Env} {above : List NodeId} (hsound : f.Sound Γ start)
    (hlays : t.Lays (some owner) linkage start f) (howner : owner < start)
    (hclimbs : t.Climbs owner above) (hplaced : Γ.Placed t start (owner :: above)) {id : Nat}
    (hge : start ≤ id) (hlt : id < start + f.size) :
    ∃ inner, t.Holds id (inner ++ owner :: above) := by
  induction f generalizing owner linkage start Γ above with
  | nil =>
    rw [size] at hlt
    omega
  | cons c line body slots rest ihb ihs ihr =>
    obtain ⟨hseats, hrest, hmore⟩ := hlays.seats hsound
    have hc := hseats.stands.construct?_eq
    have hparent := hlays.parent?_of_mem_roots List.mem_cons_self
    have hstart : t.Climbs start (owner :: above) := hclimbs.step hparent howner
    rw [size] at hlt
    by_cases hid : id = start
    · subst hid
      exact ⟨[], Γ, c, line, body, slots, hseats, hstart, hplaced⟩
    by_cases hb : id < start + 1 + body.size
    · obtain ⟨inner, hholds⟩ := ihb hseats.inside hseats.stands.inBody (Nat.lt_succ_self _) hstart
        (hplaced.enter hc hseats.allows) (by omega) hb
      exact ⟨inner ++ [start], by rwa [List.append_assoc]⟩
    by_cases hs : id < start + 1 + body.size + slots.size
    · -- what hangs in slots sees what the construct itself sees, and that is no routine
      have hnone : c.heading? = none := by
        have hslots := hseats.stands.slots_eq
        cases hslot : slots with
        | nil =>
          have hzero : slots.size = 0 := congrArg size hslot
          omega
        | cons => cases c <;> first | rfl | (rw [hslot] at hslots; cases hslots)
      have hbelow := (hplaced.below hc hnone).mono (Nat.le_add_right (start + 1) body.size)
      obtain ⟨inner, hholds⟩ := ihs hseats.branches hseats.stands.inSlots (by omega) hstart hbelow
        (by omega) hs
      exact ⟨inner ++ [start], by rwa [List.append_assoc]⟩
    · refine ihr hmore hrest (by omega) hclimbs (hplaced.after hc (fun hheading => ?_) (by omega))
        (by omega) (by omega)
      have hallows := hseats.allows
      rw [hplaced.headings]
      cases c with
      | routine heading => rw [hallows.2.1]; rfl
      | _ => exact absurd rfl hheading

/-- What is under a construct has it among the nodes around it. -/
theorem Tree.Seats.holds {t : Tree} {Γ : Env} {id : Nat} {c : Construct} {line : Nat}
    {body slots : Forest} {above : List NodeId} (h : t.Seats Γ id c line body slots)
    (hclimbs : t.Climbs id above) (hplaced : Γ.Placed t id above) {k : Nat} (hge : id < k)
    (hlt : k < id + 1 + body.size) : ∃ inner, t.Holds k (inner ++ id :: above) :=
  h.inside.holds h.stands.inBody (Nat.lt_succ_self _) hclimbs
    (hplaced.enter h.stands.construct?_eq h.allows) hge hlt

namespace Program.Means

variable {p : Program} {o : Outline}

theorem climbs_unit (h : p.Means o) : p.tree.Climbs 0 [] :=
  Tree.climbs_root h.lays.node rfl rfl

theorem climbs_entry (h : p.Means o) : p.tree.Climbs o.entryNode [0] := by
  have hmem : o.entryNode ∈ (Forest.block (.entry o.entryScope) o.entryLine o.body).roots
      (0 + 1 + o.items.size) := by
    rw [Nat.zero_add]
    exact List.mem_cons_self
  refine h.climbs_unit.step (h.lays.parts.1.inSlots.parent?_of_mem_roots hmem) ?_
  exact Nat.lt_of_lt_of_le Nat.zero_lt_one (Nat.le_add_right _ _)

/-- Before the first item there is no routine. -/
theorem placed_start (h : p.Means o) : o.start.Placed p.tree 1 [0] := by
  refine ⟨?_, fun r hr => by cases hr⟩
  rw [Tree.headings_cons h.lays.parts.1.construct?_eq]
  rfl

/-- The unit is no routine. -/
theorem headings_unit (h : p.Means o) : p.tree.headings [0] = [] :=
  h.placed_start.headings

/-- A routine stands directly under the unit, behind the routines that it may call. -/
theorem placed_routine (h : p.Means o) {r : Routine} {Γ : Env} (hr : o.Declares r Γ) :
    p.tree.Climbs r.node [0] ∧ Γ.Placed p.tree r.node [0] := by
  obtain ⟨before, line, body, slots, after, hitems, hnode, rfl⟩ := hr
  have hlays := h.lays.parts.1.inBody
  rw [hitems, Nat.zero_add] at hlays
  have hplaced := h.placed_start.afterAll hlays h.headings_unit
  obtain ⟨linkage, hrest⟩ := hlays.of_append
  rw [← hnode] at hrest hplaced
  have hpos : 0 < r.node := by
    rw [hnode]
    exact Nat.lt_of_lt_of_le Nat.zero_lt_one (Nat.le_add_right _ _)
  exact ⟨h.climbs_unit.step (hrest.parent?_of_mem_roots List.mem_cons_self) hpos, hplaced⟩

/-- The routine of a name is one of the items. -/
theorem exists_item (h : p.Means o) {name : String} {r : Routine}
    (hget : p.routines.get? name = some r) :
    ∃ (before : Forest) (line : Nat) (body slots after : Forest),
      o.items = before.append (.cons (.routine r.heading) line body slots after) ∧
        r.node = 1 + before.size ∧
        p.tree.Seats (o.start.afterAll 1 before) r.node (.routine r.heading) line body slots := by
  have hmem : r ∈ o.ready.routines := by
    rw [h.routines name] at hget
    exact List.mem_of_find?_eq_some hget
  rcases Env.mem_routines_afterAll hmem with hmem |
    ⟨before, line, body, slots, after, hitems, hnode⟩
  · cases hmem
  have hlays := h.lays.parts.1.inBody
  have hsound := h.items
  rw [hitems, Nat.zero_add] at hlays
  rw [hitems, Forest.sound_append] at hsound
  obtain ⟨linkage, hrest⟩ := hlays.of_append
  obtain ⟨hseats, -⟩ := Tree.Lays.seats hrest hsound.2
  exact ⟨before, line, body, slots, after, hitems, hnode, hnode ▸ hseats⟩

/-- Every construct of an accepted program but the unit and its entry block is seated at a point
whose environment the tree shows. -/
theorem exists_placed (h : p.Means o) {id : Nat} {c : Construct}
    (hc : p.tree.construct? id = some c) : c.isUnit = true ∨ (∃ scope, c = .entry scope) ∨
      ∃ Γ line body slots, p.tree.Seats Γ id c line body slots ∧
        Γ.Placed p.tree id (p.tree.ancestors id) := by
  have hlt : id < p.tree.size := Tree.lt_size_of_construct? hc
  have hsize : p.tree.size = 1 + o.items.size + (1 + o.body.size) := by
    rw [Tree.size_eq_length, h.nodes, Forest.length_nodes]
    simp [Outline.forest, Forest.size, Forest.block, Nat.add_assoc]
  have hholds : ∀ {above : List NodeId}, p.tree.Holds id above → ∃ Γ line body slots,
      p.tree.Seats Γ id c line body slots ∧ Γ.Placed p.tree id (p.tree.ancestors id) := by
    rintro above ⟨Γ, c', line, body, slots, hseats, hclimbs, hplaced⟩
    cases hseats.stands.construct?_eq.symm.trans hc
    rw [hclimbs.ancestors_eq hlt]
    exact ⟨Γ, line, body, slots, hseats, hplaced⟩
  -- The nodes in order: the unit, its items, the entry, and what stands in the entry.
  by_cases hroot : id = 0
  · subst hroot
    cases h.lays.parts.1.construct?_eq.symm.trans hc
    exact Or.inl rfl
  by_cases hitem : id < 1 + o.items.size
  · obtain ⟨inner, hinner⟩ := h.items.holds h.lays.parts.1.inBody Nat.zero_lt_one h.climbs_unit
      h.placed_start (by omega) hitem
    exact Or.inr (Or.inr (hholds hinner))
  by_cases hentry : id = o.entryNode
  · subst hentry
    cases h.stands_entry.construct?_eq.symm.trans hc
    exact Or.inr (Or.inl ⟨_, rfl⟩)
  · have hlays := h.lays.parts.1.inBody
    rw [← o.items.append_nil] at hlays
    have hready := h.placed_start.afterAll hlays h.headings_unit
    have hbelow := hready.below h.stands_entry.construct?_eq rfl
    have hge : o.entryNode + 1 ≤ id := by
      rw [Outline.entryNode] at hentry ⊢
      omega
    obtain ⟨inner, hinner⟩ := h.body.holds h.stands_entry.inBody (Nat.lt_succ_self _)
      h.climbs_entry ⟨hbelow.headings, hbelow.routines⟩ hge (by rw [Outline.entryNode]; omega)
    exact Or.inr (Or.inr (hholds hinner))

/-- Every call in the body of a routine names a routine that stands before it, or the routine
itself. -/
theorem exists_of_callsUnder (h : p.Means o) {id : NodeId} {around : Heading}
    (haround : p.tree.construct? id = some (.routine around)) {name : String}
    (hcalls : p.tree.CallsUnder id name) : ∃ id' heading, id' ≤ id ∧
      p.tree.construct? id' = some (.routine heading) ∧ heading.name = name := by
  obtain ⟨k, c, hid, hc, hname⟩ := hcalls
  rcases h.exists_placed hc with hunit | ⟨scope, rfl⟩ | ⟨Γ, line, body, slots, hseats, hplaced⟩
  · cases c with
    | unit => cases hname
    | _ => cases hunit
  · cases hname
  · obtain ⟨heading, hheading⟩ := Construct.callable_of_call hseats.sound hname
    exact hplaced.of_call hheading hid haround

/-- What is called in the body of a routine is called under the routine, and may be called there. -/
theorem all_calls (h : p.Means o) {r : Routine} {Γ : Env} (hr : o.Declares r Γ) {line : Nat}
    {body slots : Forest} (hseats : p.tree.Seats Γ r.node (.routine r.heading) line body slots) :
    body.All fun c => ∀ name ∈ c.calls, p.tree.CallsUnder r.node name ∧
      ∃ heading, (Γ.enter (.routine r.heading)).callable? name = some heading := by
  obtain ⟨hclimbs, hplaced⟩ := h.placed_routine hr
  have hunder : body.All fun c => ∀ name ∈ c.calls, p.tree.CallsUnder r.node name := by
    refine hseats.stands.inBody.all fun k c hge hlt hc name hname => ⟨k, c, ?_, hc, hname⟩
    obtain ⟨inner, -, -, -, -, -, -, habove, -⟩ := hseats.holds hclimbs hplaced hge hlt
    rw [habove.ancestors_eq (Tree.lt_size_of_construct? hc)]
    exact List.mem_append_right _ List.mem_cons_self
  have hcallable : body.All fun c => ∀ name ∈ c.calls,
      ∃ heading, (Γ.enter (.routine r.heading)).callable? name = some heading := by
    refine hseats.inside.all_inside (List.cons_ne_nil _ _)
      fun Γ' c hroutines hheading hsound name hname => ?_
    obtain ⟨heading, hfound⟩ := Construct.callable_of_call hsound hname
    refine ⟨heading, ?_⟩
    rw [← hfound]
    show _ = Γ'.callable? name
    unfold Env.callable? Env.routine?
    rw [hroutines, hheading]
  exact (hunder.and hcallable).imp fun c hc name hname => ⟨hc.1 name hname, hc.2 name hname⟩

end Program.Means

end Primer
