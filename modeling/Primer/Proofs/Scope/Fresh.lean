import Primer.Proofs.Scope.Lexical

/-!
# Primer.Proofs.Scope.Fresh — what a block declares, nothing around it declares.

A declaration is only read if its id is new to the table of the draft, so no id is declared twice in
an accepted program.  Hence no name that is known where a block starts means a variable that is
declared inside the block.

Which ids a forest declares is a list in the order of the text (`Forest.ids`), and the entries of
the table that reading adds are this list.  Since no entry is added twice, the list has no
duplicates.  The ids that a point shows are among those declared before it, so they are not declared
again inside a block that starts there; this is what `Program.Opens` says of a block, and the rest
of the module finds it for each block of the tree.

Main statements: `Program.Means.distinct` and `Program.Means.exists_opens`, by which every block of
an accepted program starts at such a point.
-/

namespace Primer

/-! ## The ids that are declared -/

/-- The ids that are declared in a forest, in the order of the text. -/
def Forest.ids : Forest → List String
  | nil => []
  | cons c _ body slots rest => c.declared?.toList ++ (body.ids ++ (slots.ids ++ rest.ids))

/-- The ids of two forests in a row. -/
theorem Forest.ids_append (f g : Forest) : (f.append g).ids = f.ids ++ g.ids := by
  induction f with
  | nil => rfl
  | cons c line body slots rest _ _ ih => simp only [append, ids, ih, List.append_assoc]

/-- The ids that are declared are those of the nodes. -/
theorem Forest.filterMap_nodes (owner : Option NodeId) (linkage : Linkage) (start : Nat)
    (f : Forest) :
    (f.nodes owner linkage start).filterMap (·.construct.declared?) = f.ids := by
  induction f generalizing owner linkage start with
  | nil => rfl
  | cons c line body slots rest ihb ihs ihr =>
    rw [nodes, List.filterMap_cons, List.filterMap_append, List.filterMap_append, ihb, ihs, ihr,
      ids]
    cases c.declared? <;> rfl

namespace Grammar

/-- On the way from one draft to another these ids were registered, each of them for the first
time. -/
structure Draft.Registers (d : Draft) (ids : List String) (d' : Draft) : Prop where
  new : ∀ id ∈ ids, d.declared.contains id = false
  distinct : ids.Nodup
  registered : ∀ id,
    d'.declared.contains id = true ↔ d.declared.contains id = true ∨ id ∈ ids

namespace Draft.Registers

variable {d d₁ d₂ d₃ : Draft} {ids more : List String}

theorem of_eq (h : d₁.declared = d.declared) : d.Registers [] d₁ :=
  ⟨fun _ hid => absurd hid List.not_mem_nil, List.nodup_nil, fun id => by simp [h]⟩

/-- Only the tables count. -/
theorem between (h : d₁.Registers ids d₂) (hfirst : d₁.declared = d.declared)
    (hlast : d₃.declared = d₂.declared) : d.Registers ids d₃ := by
  refine ⟨fun id hid => ?_, h.distinct, fun id => ?_⟩
  · rw [← hfirst]
    exact h.new id hid
  · rw [← hfirst, hlast]
    exact h.registered id

/-- What two steps register, one after the other. -/
theorem trans (h : d.Registers ids d₁) (h' : d₁.Registers more d₂) :
    d.Registers (ids ++ more) d₂ := by
  -- what was registered on the first part of the way is not new on the second
  have hnew : ∀ id ∈ more, ¬ (d.declared.contains id = true ∨ id ∈ ids) := by
    intro id hid hold
    rw [← h.registered, h'.new id hid] at hold
    cases hold
  refine ⟨fun id hid => ?_, ?_, fun id => ?_⟩
  · rcases List.mem_append.1 hid with hid | hid
    · exact h.new id hid
    · exact Bool.eq_false_iff.2 fun hold => hnew id hid (Or.inl hold)
  · refine List.nodup_append.2 ⟨h.distinct, h'.distinct, fun id hid other hother heq => ?_⟩
    exact hnew other hother (Or.inr (heq ▸ hid))
  · rw [h'.registered, h.registered, List.mem_append, or_assoc]

end Draft.Registers

/-- Every id that is declared in what is read was new when it was read. -/
theorem Reads.registers {role : Role} {d d' : Draft} {f : Forest} (h : Reads role d f d') :
    d.Registers f.ids d' := by
  induction h with
  | @declaration d d₁ line v taken written sound id_eq new =>
    refine ⟨fun id hid => ?_, List.nodup_cons.2 ⟨List.not_mem_nil, List.nodup_nil⟩, fun id => ?_⟩
    · rw [List.mem_singleton.1 hid]
      exact new
    · show (d₁.declared.insert v.id v.fresh).contains id = true ↔ _
      rw [Table.contains_insert, taken.declared, Bool.or_eq_true, beq_iff_eq, or_comm]
      exact or_congr_right List.mem_singleton.symm
  | @simple d d₁ line c taken kind sound =>
    have hnone : (Forest.leaf c line).ids = [] := by
      cases c <;> first | rfl | exact kind.elim
    rw [hnone]
    exact .of_eq taken.declared
  | @loop d d₁ d₂ d₃ line scope condition body taken sound scope_eq inside rest ih =>
    have hids : (Forest.block (.loop scope condition) line body).ids = body.ids :=
      List.append_nil _
    rw [hids]
    exact ih.between taken.declared rest.declared
  | @conditional d d₁ d₂ d₃ d₄ line scope condition body slots taken sound scope_eq inside after
      rest ihb ihs =>
    -- The slots name their branches only when these are read; the ids do not depend on them.
    obtain ⟨elseIfs, last, hfill⟩ := slots.exists_fill_eq d₂.tree.size scope condition [] none
    rw [hfill]
    have hslots := ihs.between (d := d₂) rfl rest.declared
    simpa [Forest.ids, Construct.declared?] using
      (ihb.between taken.declared rfl).trans hslots
  | @elseIf d d₁ d₂ d₃ conditional line scope condition tree body slots taken sound scope_eq placed
      inside after ihb ihs =>
    have hslots := ihs.between (d := d₂) rfl rfl
    exact (ihb.between taken.declared rfl).trans hslots
  | @otherwise d d₁ d₂ conditional line scope tree body taken scope_eq placed inside ih =>
    have hids : (Forest.block (.otherwise scope) line body).ids = body.ids := List.append_nil _
    rw [hids]
    exact ih.between taken.declared rfl
  | @routine d d₁ d₂ d₃ line heading routines body taken outermost written distinct parameters
      scope_eq inside rest defined ih =>
    have hids : (Forest.block (.routine heading) line body).ids = body.ids := List.append_nil _
    rw [hids]
    exact ih.between taken.declared rest.declared
  | done list => exact .of_eq rfl
  | @item list role d d₁ d₂ f g admitted first more ihf ihm =>
    rw [Forest.ids_append]
    exact ihf.trans (ihm.between (d₁.declared_attached _) rfl)

/-- No id is declared twice in a program. -/
theorem ReadsProgram.distinct {tokens : List Lexeme} {f : Forest} {p : Program}
    (h : ReadsProgram tokens f p) : f.ids.Nodup := by
  cases h with
  | @intro d d₁ d₂ d₃ d₄ line entryLine name scope tree tree' items body taken written placed inside
      begun scope_eq entryPlaced entered rest complete =>
    have hall := inside.registers.trans (entered.registers.between begun.declared rfl)
    simpa [Forest.ids, Forest.block, Construct.declared?] using hall.distinct

end Grammar

/-- No id is declared twice in an accepted program. -/
theorem Program.Means.distinct {source : String} {p : Program} {o : Outline} (h : p.Means o)
    (hsource : ofSource source = .ok p) : o.forest.ids.Nodup := by
  obtain ⟨tokens, -, hread⟩ := ofTokens_of_ofSource hsource
  obtain ⟨f, hreads⟩ := ofTokens_reads hread
  -- the outline and what was read are laid out as the same nodes
  have hids : o.forest.ids = f.ids := by
    rw [← Forest.filterMap_nodes none (.chain none none) 0 o.forest, ← h.nodes,
      hreads.nodes_eq.1, Forest.filterMap_nodes]
  rw [hids]
  exact hreads.distinct

/-! ## Ids that are new to a point -/

namespace Env

variable {Γ : Env}

/-- A name that is known at the point means this variable, in the block that declares it. -/
def Shows (Γ : Env) (id : String) : Prop :=
  ∃ l ∈ Γ.levels, ∃ name ∈ l.names, Name.qualify l.scope name = id

theorem shows_declare {name id : String} (h : (Γ.declare name).Shows id) :
    Γ.Shows id ∨ id = Name.qualify Γ.scope name := by
  obtain ⟨l, hl, other, hother, rfl⟩ := h
  rw [levels_declare] at hl
  have hscope := Γ.scope_eq
  unfold Shows
  cases hlevels : Γ.levels with
  | nil => exact absurd hlevels Γ.levels_ne_nil
  | cons first outer =>
    rw [hlevels] at hl hscope
    rcases List.mem_cons.1 hl with rfl | hl
    · rcases List.mem_append.1 hother with hother | hother
      · exact Or.inl ⟨first, List.mem_cons_self, other, hother, rfl⟩
      · rw [List.mem_singleton.1 hother]
        exact Or.inr (congrArg (Name.qualify · name) (Option.some.inj hscope))
    · exact Or.inl ⟨l, List.mem_cons_of_mem _ hl, other, hother, rfl⟩

/-- A construct shows what it declares, and no other new id. -/
theorem shows_after {c : Construct} {start : NodeId} {id : String} (hallows : Γ.Allows c)
    (h : (Γ.after start c).Shows id) : Γ.Shows id ∨ c.declared? = some id := by
  cases c with
  | declaration d =>
    rcases shows_declare h with h | h
    · exact Or.inl h
    · exact Or.inr (congrArg some (hallows.1.trans h.symm))
  | _ => exact Or.inl h

/-- What is shown behind a forest was shown before it or is declared in it. -/
theorem shows_afterAll {f : Forest} {start : Nat} {id : String} (hsound : f.Sound Γ start)
    (h : (Γ.afterAll start f).Shows id) : Γ.Shows id ∨ id ∈ f.ids := by
  induction f generalizing Γ start with
  | nil => exact Or.inl h
  | cons c line body slots rest _ _ ih =>
    obtain ⟨⟨-, hallows, -⟩, -, -, hrest⟩ := hsound
    rcases ih hrest h with hmore | hmore
    · exact (shows_after hallows hmore).imp_right fun hown => by simp [Forest.ids, hown]
    · exact Or.inr (by simp [Forest.ids, hmore])

/-- A block starts without names of its own. -/
theorem shows_enter {c : Construct} {id : String} (h : (Γ.enter c).Shows id) : Γ.Shows id := by
  obtain ⟨l, hl, name, hname, rfl⟩ := h
  have hold (scope : String) (hcons : l ∈ (⟨scope, []⟩ :: Γ.levels : List Level)) :
      l ∈ Γ.levels := by
    rcases List.mem_cons.1 hcons with rfl | hl
    · cases hname
    · exact hl
  refine ⟨l, ?_, name, hname, rfl⟩
  cases c with
  | entry scope | loop scope | conditional scope | elseIf scope | otherwise scope =>
    exact hold scope hl
  | routine heading =>
    -- of the blocks around a routine only the unit is left
    rcases List.mem_cons.1 hl with rfl | hl
    · cases hname
    · exact List.mem_append_right _ hl
  | _ => exact hl

end Env

/-- The ids that are declared in the forest are new to the point, and differ from each other. -/
structure Forest.New (Γ : Env) (f : Forest) : Prop where
  unseen : ∀ id ∈ f.ids, ¬ Γ.Shows id
  distinct : f.ids.Nodup

/-- New to a point are the parts of a forest, each where it stands. -/
theorem Forest.New.parts {Γ : Env} {c : Construct} {line : Nat} {body slots rest : Forest}
    (h : (cons c line body slots rest).New Γ) (hallows : Γ.Allows c) (start : NodeId) :
    body.New (Γ.enter c) ∧ slots.New Γ ∧ rest.New (Γ.after start c) := by
  have hunseen := h.unseen
  have hdistinct := h.distinct
  simp only [ids, List.mem_append] at hunseen
  simp only [ids, List.nodup_append, List.mem_append] at hdistinct
  obtain ⟨-, ⟨hbody, ⟨hslots, hrest, -⟩, -⟩, hown⟩ := hdistinct
  refine ⟨⟨fun id hid hshows => ?_, hbody⟩, ⟨fun id hid => ?_, hslots⟩,
    ⟨fun id hid hshows => ?_, hrest⟩⟩
  · exact hunseen id (Or.inr (Or.inl hid)) (Env.shows_enter hshows)
  · exact hunseen id (Or.inr (Or.inr (Or.inl hid)))
  · rcases Env.shows_after hallows hshows with hold | hdeclared
    · exact hunseen id (Or.inr (Or.inr (Or.inr hid))) hold
    · exact hown id (by simp [hdeclared]) id (Or.inr (Or.inr hid)) rfl

/-! ## What is inside a block -/

namespace Tree

/-- The node is in the body or in the slots of another one, at any depth. -/
inductive Inside (t : Tree) (block : NodeId) : NodeId → Prop
  | direct {id : NodeId} (h : id ∈ t.successors block) : Inside t block id
  | deeper {owner id : NodeId} (outer : Inside t block owner) (h : id ∈ t.successors owner) :
      Inside t block id

/-- A declaration inside the block declares this id. -/
def DeclaresInside (t : Tree) (block : NodeId) (x : String) : Prop :=
  ∃ id, t.Inside block id ∧ (t.construct? id).bind Construct.declared? = some x

variable {t : Tree}

/-- What is directly under a node of a layout is in the layout. -/
theorem Lays.mem_of_successors {owner : Option NodeId} {linkage : Forest.Linkage} {start : Nat}
    {f : Forest} (h : t.Lays owner linkage start f) {node id : Nat} (hge : start ≤ node)
    (hlt : node < start + f.size) (hid : id ∈ t.successors node) :
    start ≤ id ∧ id < start + f.size := by
  have hnode : node ∈ List.range' start f.size := List.mem_range'_1.2 ⟨hge, hlt⟩
  have hmem : id ∈ (List.range' start f.size).flatMap t.successors ++ f.roots start :=
    List.mem_append_left _ (List.mem_flatMap.2 ⟨node, hnode, hid⟩)
  exact List.mem_range'_1.1 (h.perm_successors.mem_iff.1 hmem)

/-- What a node of a layout declares is declared in the forest. -/
theorem Lays.mem_ids {owner : Option NodeId} {linkage : Forest.Linkage} {start : Nat} {f : Forest}
    (h : t.Lays owner linkage start f) {id : Nat} (hge : start ≤ id) (hlt : id < start + f.size)
    {x : String} (hx : (t.construct? id).bind Construct.declared? = some x) : x ∈ f.ids := by
  have hlength : id - start < (f.nodes owner linkage start).length := by
    rw [Forest.length_nodes]
    omega
  have hn := List.getElem?_eq_getElem hlength
  have hnode := h.shows _ _ hn
  rw [show start + (id - start) = id by omega] at hnode
  rw [construct?, hnode] at hx
  rw [← Forest.filterMap_nodes owner linkage start f]
  exact List.mem_filterMap.2 ⟨_, List.mem_of_getElem? hn, hx⟩

/-- Going down from a block, one stays in its body or in its slots. -/
theorem Stands.of_inside {block : Nat} {c : Construct} {line : Nat} {body slots : Forest}
    (h : t.Stands block c line body slots) {id : Nat} (hid : t.Inside block id) :
    (block + 1 ≤ id ∧ id < block + 1 + body.size) ∨
      (block + 1 + body.size ≤ id ∧ id < block + 1 + body.size + slots.size) := by
  induction hid with
  | direct hid =>
    rw [h.successors_eq, List.mem_append] at hid
    exact hid.imp Forest.mem_roots Forest.mem_roots
  | deeper _ hid ih =>
    exact ih.imp (fun hover => h.inBody.mem_of_successors hover.1 hover.2 hid)
      fun hover => h.inSlots.mem_of_successors hover.1 hover.2 hid

/-- What a block declares inside is declared in its body or in its slots. -/
theorem Stands.mem_ids {block : Nat} {c : Construct} {line : Nat} {body slots : Forest}
    (h : t.Stands block c line body slots) {x : String} (hx : t.DeclaresInside block x) :
    x ∈ body.ids ∨ x ∈ slots.ids := by
  obtain ⟨id, hinside, hdeclared⟩ := hx
  exact (h.of_inside hinside).imp (fun hid => h.inBody.mem_ids hid.1 hid.2 hdeclared)
    fun hid => h.inSlots.mem_ids hid.1 hid.2 hdeclared

end Tree

/-! ## Where blocks start -/

/-- The body of a block that is no routine serves what its surroundings serve. -/
theorem Outline.Serves.enter {o : Outline} {Γ : Env} (h : o.Serves Γ) (c : Construct)
    (hnot : c.heading? = none) : o.Serves (Γ.enter c) := by
  cases c with
  | entry scope | loop scope | conditional scope | elseIf scope | otherwise scope =>
    exact h.push scope
  | routine heading => cases hnot
  | _ => exact h

namespace Program

variable {p : Program} {o : Outline}

/-- The statements of a block start at this point: every call there means a routine that is known,
and no name there means a variable that is declared inside the block. -/
structure Opens (p : Program) (o : Outline) (block : Nat) (Γ : Env) : Prop where
  stands : ∃ c line body slots, p.tree.Stands block c line body slots ∧ body.Sound Γ (block + 1)
  serves : o.Serves Γ
  inner : Γ.inner ≠ []
  new : ∀ x, p.tree.DeclaresInside block x → ¬ Γ.Shows x

/-- Each of these nodes that has a body opens it somewhere. -/
def OpensAll (p : Program) (o : Outline) (start stop : Nat) : Prop :=
  ∀ id c, start ≤ id → id < stop → p.tree.construct? id = some c → c.scope? ≠ none →
    ∃ Γ, p.Opens o id Γ

theorem OpensAll.append {start middle stop : Nat} (h : p.OpensAll o start middle)
    (h' : p.OpensAll o middle stop) : p.OpensAll o start stop := by
  intro id c hge hlt
  by_cases hid : id < middle
  · exact h id c hge hid
  · exact h' id c (Nat.le_of_not_lt hid) hlt

theorem OpensAll.empty (start : Nat) : p.OpensAll o start start :=
  fun _ _ hge hlt => absurd hlt (Nat.not_lt.2 hge)

/-- A block that stands where it fits starts with the names around it. -/
theorem Opens.of_seats {Γ : Env} {id : Nat} {c : Construct} {line : Nat} {body slots : Forest}
    (h : p.tree.Seats Γ id c line body slots) (hscope : c.scope? ≠ none)
    (hserves : o.Serves (Γ.enter c)) (hbody : body.New (Γ.enter c)) (hslots : slots.New Γ) :
    p.Opens o id (Γ.enter c) := by
  refine ⟨⟨c, line, body, slots, h.stands, h.inside⟩, hserves, ?_, fun x hx hshows => ?_⟩
  · have hallows := h.allows
    cases c with
    | unit | entry => exact hallows.elim
    | loop | conditional | elseIf | otherwise | routine => exact List.cons_ne_nil _ _
    | _ => exact absurd rfl hscope
  · rcases h.stands.mem_ids hx with hx | hx
    · exact hbody.unseen x hx hshows
    · exact hslots.unseen x hx (Env.shows_enter hshows)

/-- All blocks of a forest open somewhere, wherever in a block or in slots the forest stands. -/
def OpensIn (p : Program) (o : Outline) (f : Forest) : Prop :=
  ∀ {Γ : Env} {owner : Option NodeId} {linkage : Forest.Linkage} {start : Nat},
    p.tree.Lays owner linkage start f → f.Sound Γ start → f.New Γ → o.Serves Γ →
    (Γ.inner ≠ [] ∨ f.Tops Construct.IsBranch) → p.OpensAll o start (start + f.size)

/-- One construct with all that is under it. -/
theorem opensAll_under {Γ : Env} {start : Nat} {c : Construct} {line : Nat} {body slots : Forest}
    (hbody : p.OpensIn o body) (hslots : p.OpensIn o slots)
    (hseats : p.tree.Seats Γ start c line body slots) (hserves : o.Serves Γ)
    (henter : c.scope? ≠ none → o.Serves (Γ.enter c)) (hnew : body.New (Γ.enter c))
    (hnew' : slots.New Γ) : p.OpensAll o start (start + 1 + body.size + slots.size) := by
  have hslots' := hslots hseats.stands.inSlots hseats.branches hnew' hserves
    (Or.inr hseats.bears.slots)
  by_cases hscope : c.scope? = none
  -- a construct without a scope has no body
  · rw [hseats.bears.body hscope] at hslots' ⊢
    refine OpensAll.append (fun id c' hge hlt hc' hscope' => ?_) hslots'
    obtain rfl : id = start := by
      rw [Forest.size] at hlt
      omega
    cases hseats.stands.construct?_eq.symm.trans hc'
    exact absurd hscope hscope'
  · have hopens := Opens.of_seats hseats hscope (henter hscope) hnew hnew'
    have hbody' := hbody hseats.stands.inBody hseats.inside hnew (henter hscope)
      (Or.inl hopens.inner)
    refine OpensAll.append (OpensAll.append (fun id _ hge hlt _ _ => ?_) hbody') hslots'
    obtain rfl : id = start := by omega
    exact ⟨_, hopens⟩

/-- Whatever stands in a forest starts at a point that does not know what it declares. -/
theorem opensIn (f : Forest) : p.OpensIn o f := by
  induction f with
  | nil => exact fun _ _ _ _ _ => .empty _
  | cons c line body slots rest ihb ihs ihr =>
    intro Γ owner linkage start hlays hsound hnew hserves hwhere
    obtain ⟨hseats, hrest, hmore⟩ := hlays.seats hsound
    obtain ⟨hbody, hslots, hnext⟩ := hnew.parts hseats.allows start
    have hnot : c.heading? = none := by
      have hallows := hseats.allows
      cases c with
      | routine heading => exact hwhere.elim (absurd hallows.1) fun htops => htops.1.elim
      | _ => rfl
    have hunder := opensAll_under ihb ihs hseats hserves (fun _ => hserves.enter c hnot) hbody
      hslots
    -- the next construct is in the same block, or hangs in the same slots
    have hserves' : o.Serves (Γ.after start c) := by
      rcases hwhere with hinner | htops
      · exact hserves.after hseats.allows hinner
      · rw [htops.1.after_eq]
        exact hserves
    have hwhere' := hwhere.imp (Env.inner_after_ne_nil · start c) fun htops => htops.2
    have hall := hunder.append (ihr hrest hmore hnext hserves' hwhere')
    rwa [show start + 1 + body.size + slots.size + rest.size
      = start + (Forest.cons c line body slots rest).size by rw [Forest.size]; omega] at hall

/-- The items from some point on.  The induction is on these items, with those before them as the
surroundings. -/
theorem opensAll_items {before after : Forest} (h : o.items = before.append after)
    {linkage : Forest.Linkage} (hlays : p.tree.Lays (some 0) linkage (1 + before.size) after)
    (hsound : after.Sound (o.start.afterAll 1 before) (1 + before.size))
    (hnew : after.New (o.start.afterAll 1 before)) :
    p.OpensAll o (1 + before.size) (1 + before.size + after.size) := by
  induction after generalizing before linkage with
  | nil => exact .empty _
  | cons c line body slots rest _ _ ih =>
    obtain ⟨hseats, hrest, hmore⟩ := hlays.seats hsound
    obtain ⟨hbody, hslots, hnext⟩ := hnew.parts hseats.allows (1 + before.size)
    obtain ⟨hitems, hsize, hafter⟩ := Outline.move_item h
    have hserves := Outline.serves_afterAll h
    have henter : o.Serves ((o.start.afterAll 1 before).enter c) := by
      cases c with
      | routine heading =>
        have hdeclares : o.Declares ⟨1 + before.size, heading⟩ (o.start.afterAll 1 before) :=
          ⟨before, line, body, slots, rest, h, rfl, rfl⟩
        exact hdeclares.serves
      | _ => exact hserves.enter _ rfl
    have hunder := opensAll_under (opensIn body) (opensIn slots) hseats hserves (fun _ => henter)
      hbody hslots
    rw [← hafter] at hmore hnext
    rw [← hsize] at hrest hmore hunder
    have hall := hunder.append (ih hitems hrest hmore hnext)
    rwa [show 1 + (before.append (.cons c line body slots .nil)).size + rest.size
      = 1 + before.size + (Forest.cons c line body slots rest).size by
        simp only [Forest.size_append, Forest.size]; omega] at hall

/-- The items are new to the start of the unit, and the entry block is new behind them. -/
theorem Means.new_parts (h : p.Means o) (hdistinct : o.forest.ids.Nodup) :
    o.items.New o.start ∧ o.body.New (o.ready.enter (.entry o.entryScope)) := by
  have hids : o.forest.ids = o.items.ids ++ o.body.ids := by
    simp [Outline.forest, Forest.block, Forest.ids, Construct.declared?]
  rw [hids, List.nodup_append] at hdistinct
  obtain ⟨hitems, hbody, hother⟩ := hdistinct
  have hstart (id : String) : ¬ o.start.Shows id := by
    rintro ⟨l, hl, name, hname, -⟩
    rw [List.mem_singleton.1 hl] at hname
    cases hname
  refine ⟨⟨fun id _ => hstart id, hitems⟩, fun id hid hshows => ?_, hbody⟩
  rcases Env.shows_afterAll h.items (Env.shows_enter hshows) with hold | hold
  · exact hstart id hold
  · exact hother id hold id hid rfl

/-- Every block of an accepted program but the unit starts at a point, and what is declared inside
it has no name there. -/
theorem Means.exists_opens (h : p.Means o) (hdistinct : o.forest.ids.Nodup) {id : Nat}
    {c : Construct} (hc : p.tree.construct? id = some c) (hscope : c.scope? ≠ none)
    (hunit : c.isUnit = false) : ∃ Γ, p.Opens o id Γ := by
  obtain ⟨hitems, hbody⟩ := h.new_parts hdistinct
  have hserves : o.Serves (o.ready.enter (.entry o.entryScope)) :=
    (Outline.serves_afterAll o.items.append_nil.symm).enter _ rfl
  have hlt : id < o.entryNode + 1 + o.body.size := by
    have hsize := Tree.lt_size_of_construct? hc
    rw [Tree.size_eq_length, h.nodes, Forest.length_nodes] at hsize
    simpa [Outline.forest, Outline.entryNode, Forest.size, Forest.block, Nat.add_assoc] using hsize
  by_cases hroot : id = 0
  · subst hroot
    cases h.lays.parts.1.construct?_eq.symm.trans hc
    cases hunit
  by_cases hitem : id < o.entryNode
  · exact opensAll_items (show o.items = Forest.nil.append o.items from rfl)
      h.lays.parts.1.inBody h.items hitems id c (Nat.one_le_iff_ne_zero.2 hroot) hitem hc hscope
  by_cases hentry : id = o.entryNode
  · subst hentry
    refine ⟨_, ⟨_, _, _, _, h.stands_entry, h.body⟩, hserves, List.cons_ne_nil _ _,
      fun x hx => hbody.unseen x ?_⟩
    exact (h.stands_entry.mem_ids hx).resolve_right List.not_mem_nil
  · exact opensIn o.body h.stands_entry.inBody h.body hbody hserves
      (Or.inl (List.cons_ne_nil _ _)) id c (by omega) hlt hc hscope

end Program

end Primer
