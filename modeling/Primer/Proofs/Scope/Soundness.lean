import Primer.Proofs.Grammar.Readers
import Primer.Proofs.Scope.Agreement
import Primer.Proofs.Tree.Layout

/-!
# Primer.Proofs.Scope.Soundness — every accepted program fits its environments.

Reading keeps a draft and an environment in agreement, one rule after the other, and what is read is
sound in that environment.  Of the tables and of the tree nothing is left in the result: it is a
statement about the forest that the program was read as.  Main statement: `Program.ofSource_means`.

The induction is on the rules of reading.  A rule for a statement without a body has nothing to show
but that its expressions fit, which the readers of expressions have promised.  A rule with a body
opens a block in the draft and a level in the environment, and closes both; for routines the heading
comes with it, and the body may call the routine itself, which is complete in the table only behind
it (`Draft.equipped`).
-/

namespace Primer.Grammar

/-- What is read stands inside a block that is not the unit itself. -/
def Role.IsInner : Role → Prop
  | .statement | .body | .branches _ => True
  | .declaration | .routine | .items => False

/-- What is read inside a list of the inner kind is of that kind. -/
theorem Role.Admits.isInner {list role : Role} (h : list.Admits role) (hinner : role.IsInner) :
    list.IsInner := by
  cases list <;> cases role <;> trivial

/-- Only among the items of the unit there are routines. -/
theorem Role.Admits.ne_routine {list role : Role} (h : list.Admits role) (hlist : list ≠ .items) :
    role ≠ .routine ∧ role ≠ .items := by
  constructor
  · rintro rfl
    cases list <;> first | exact h.elim | exact hlist rfl
  · rintro rfl
    cases list <;> exact h.elim

/-- What reading leads to from where a draft and an environment agree. -/
structure ReadSound (Γ : Env) (d : Draft) (f : Forest) (d' : Draft) : Prop where
  sound : f.Sound Γ d.tree.size
  agrees : d'.Agrees (Γ.afterAll d.tree.size f)

/-- Tokens that are left are tokens of the text. -/
theorem Draft.Skips.allPlain {d d' : Draft} (h : d.Skips d') (hplain : Token.AllPlain d.tokens) :
    Token.AllPlain d'.tokens :=
  fun l hl => hplain l (h.suffix.mem hl)

/-- The names that are left are among those of the beginning. -/
theorem Reads.allPlain {role : Role} {d d' : Draft} {f : Forest} (h : Reads role d f d')
    (hplain : Token.AllPlain d.tokens) : Token.AllPlain d'.tokens :=
  fun l hl => hplain l (h.suffix.mem hl)

/-- They are left when a node is attached. -/
theorem Reads.allPlain_attached {role : Role} {d d' : Draft} {f : Forest} (h : Reads role d f d')
    (hplain : Token.AllPlain d.tokens) (node : NodeId) :
    Token.AllPlain (d'.attached node).tokens := by
  rw [Draft.tokens_attached]
  exact h.allPlain hplain

/-- A name that is written is one that can be spelled. -/
theorem Draft.Writes.plain {d : Draft} {name : String} (h : d.Writes name)
    (hplain : Token.AllPlain d.tokens) : Name.Plain name := by
  obtain ⟨l, hl, hname⟩ := h
  exact hplain l hl name hname

/-- A block without a name gets the next number. -/
theorem Draft.Agrees.numbered {Γ : Env} {d : Draft} {label scope : String} (h : d.Agrees Γ)
    (hinner : Name.isQualified Γ.scope = true) (hlabel : Name.IsLabel label)
    (hscope : scope = d.nextScope label) : Name.Numbered (d.blockCount + 1) scope := by
  rw [hscope, Draft.nextScope, h.scope_eq]
  exact Name.numbered_next hlabel hinner _

/-- A block without a name was opened. -/
theorem Draft.Agrees.entered {Γ : Env} {d d₁ : Draft} {label scope : String} {tree : Tree}
    {c : Construct} {line : Nat} (h : d.Agrees Γ) (htaken : d.Skips d₁)
    (hinner : Name.isQualified Γ.scope = true) (hlabel : Name.IsLabel label)
    (hscope : scope = d₁.nextScope label) (hheading : c.heading? = none)
    (hdeclared : c.declared? = none) (hkeeps : (d₁.tree.allocate c line).2.Keeps tree)
    (hsize : tree.size = d₁.tree.size + 1) :
    ((d₁.counted.planted tree).opened d₁.tree.size scope).Agrees
      { Γ with inner := ⟨scope, []⟩ :: Γ.inner } := by
  have htaken' := h.skips htaken
  have hscope' : scope = Name.qualify Γ.scope (label ++ toString (d₁.blockCount + 1)) := by
    rw [hscope, Draft.nextScope, htaken'.scope_eq]
  -- the number is new, so nothing was ever declared in this scope
  have hnew := htaken'.regular.not_known_next hlabel hinner
  rw [← hscope'] at hnew
  have hnone : ∀ x, c.declared? = some x → d₁.counted.declared.contains x = true := by
    intro x hx
    rw [hdeclared] at hx
    cases hx
  have hplanted := htaken'.counted.planted hnone hkeeps hsize
  refine hplanted.opened ?_ ?_ (Or.inl ?_) (fun hmem => hnew (Or.inr (Or.inl hmem)))
    fun name hname => htaken'.not_contains hnew hname
  · show d₁.tree.size < tree.size
    omega
  · show _ = ((tree.construct? d₁.tree.size).bind Construct.heading?).toList ++ _
    rw [hkeeps.heading _ (by rw [Tree.size_allocate]; omega), Tree.construct?_allocate,
      Option.bind_some, hheading]
    rfl
  · exact htaken'.numbered hinner hlabel hscope

/-- A block without a name was opened, read and closed again. -/
theorem Draft.Agrees.left {Γ : Env} {d d₁ d₂ : Draft} {scope : String} {body : Forest} {count : Nat}
    (h : d.Agrees Γ) (hbody : ReadSound { Γ with inner := ⟨scope, []⟩ :: Γ.inner } d₁ body d₂)
    (hblocks : d₂.blocks.tail = d.blocks) (hkeeps : d.tree.Keeps d₂.tree)
    (hnumbered : Name.Numbered count scope) : d₂.closed.Agrees Γ := by
  -- behind the body its level has got names, and everything else is as it was
  obtain ⟨names, hafter⟩ := hbody.sound.afterAll_inner rfl
  have hagrees := hbody.agrees
  rw [hafter] at hagrees
  have hlevels : ({ Γ with inner := ⟨scope, names⟩ :: Γ.inner } : Env).levels
      = ⟨scope, names⟩ :: Γ.levels := rfl
  refine h.closed hagrees hlevels rfl rfl hblocks hkeeps hagrees.routines h.regular.routines
    (fun _ hr => hr) (Or.inl ?_)
  rcases hagrees.regular.kinds scope (by rw [hlevels]; exact List.mem_cons_self) with hn | hn
  · exact hn
  · exact absurd hn (hnumbered.not_namedIn h.regular.unit)

/-- A block without a name, from what is known of reading its body: the body fits the block, and
behind it the environment is the one from before. -/
theorem Reads.block_sound {Γ : Env} {d d₁ d₂ : Draft} {label scope : String} {tree : Tree}
    {c : Construct} {line : Nat} {body : Forest} (h : d.Agrees Γ) (htaken : d.Skips d₁)
    (hplain : Token.AllPlain d.tokens) (hqualified : Name.isQualified Γ.scope = true)
    (hlabel : Name.IsLabel label) (hscope : scope = d₁.nextScope label)
    (hheading : c.heading? = none) (hdeclared : c.declared? = none)
    (hkeeps : (d₁.tree.allocate c line).2.Keeps tree) (hsize : tree.size = d₁.tree.size + 1)
    (inside : Reads .body ((d₁.counted.planted tree).opened d₁.tree.size scope) body d₂)
    (ih : ∀ Γ : Env, ((d₁.counted.planted tree).opened d₁.tree.size scope).Agrees Γ →
      Token.AllPlain d₁.tokens → (Role.body.IsInner → Name.isQualified Γ.scope = true) →
      ReadSound Γ ((d₁.counted.planted tree).opened d₁.tree.size scope) body d₂) :
    body.Sound { Γ with inner := ⟨scope, []⟩ :: Γ.inner } (d.tree.size + 1) ∧
      d₂.closed.Agrees Γ ∧ d₂.tree.size = d.tree.size + 1 + body.size := by
  have htaken' := h.skips htaken
  have hnumbered := htaken'.numbered hqualified hlabel hscope
  have hentered := h.entered htaken hqualified hlabel hscope hheading hdeclared hkeeps hsize
  have hbody := ih _ hentered (htaken.allPlain hplain) fun _ => hnumbered.isQualified
  have hkeeps' := ((Tree.keeps_allocate _ _ _).trans hkeeps).trans inside.keeps
  have hmade : tree.size = d.tree.size + 1 := by rw [hsize, htaken.tree]
  refine ⟨?_, htaken'.left hbody inside.sameBlocks.outer hkeeps' hnumbered, ?_⟩
  · rw [← hmade]
    exact hbody.sound
  · rw [← hmade]
    exact inside.size_eq

/-- What is read behind a conditional are branches. -/
theorem Reads.tops_isBranch {conditional : NodeId} {d d' : Draft} {f : Forest}
    (h : Reads (.branches conditional) d f d') : f.Tops Construct.IsBranch := by
  generalize hrole : Role.branches conditional = role at h
  induction h with
  | elseIf _ _ _ _ _ _ _ ih =>
    cases hrole
    exact ⟨trivial, ih rfl⟩
  | otherwise => exact ⟨trivial, trivial⟩
  | done => trivial
  | item admitted =>
    subst hrole
    exact admitted.elim
  | _ => cases hrole

/-- Only routines are registered as routines. -/
theorem Reads.routines_eq {role : Role} {d d' : Draft} {f : Forest} (h : Reads role d f d') :
    role ≠ .routine → role ≠ .items → d'.routines = d.routines := by
  induction h with
  | declaration taken => exact fun _ _ => taken.routines
  | simple taken => exact fun _ _ => taken.routines
  | loop taken _ _ _ rest ih =>
    intro _ _
    exact rest.routines.trans ((ih (by simp) (by simp)).trans taken.routines)
  | conditional taken _ _ _ _ rest ihb ihs =>
    intro _ _
    have hbody := (ihb (by simp) (by simp)).trans taken.routines
    exact rest.routines.trans ((ihs (by simp) (by simp)).trans hbody)
  | elseIf taken _ _ _ _ _ ihb ihs =>
    intro _ _
    exact (ihs (by simp) (by simp)).trans ((ihb (by simp) (by simp)).trans taken.routines)
  | otherwise taken _ _ _ ih =>
    intro _ _
    exact (ih (by simp) (by simp)).trans taken.routines
  | routine => exact fun h => absurd rfl h
  | done _ => exact fun _ _ => rfl
  | @item list role d d₁ _ _ _ admitted _ _ ihf ihm =>
    intro hr hi
    rw [Draft.routines_attached] at ihm
    obtain ⟨hr', hi'⟩ := admitted.ne_routine hi
    exact (ihm hr hi).trans (ihf hr' hi')

/-- Where only the block of the unit is open, the environment has no inner level. -/
theorem Draft.Agrees.inner_eq_nil {Γ : Env} {d : Draft} (h : d.Agrees Γ)
    (outermost : d.blocks.length = 1) : Γ.inner = [] := by
  have hlength := congrArg List.length h.scopes
  simp only [List.length_map, outermost, Env.levels, List.length_append, List.length_singleton]
    at hlength
  exact List.eq_nil_of_length_eq_zero (by omega)

/-- A routine was opened, directly in the unit and under a name that is free. -/
theorem Draft.Agrees.enteredRoutine {Γ : Env} {d : Draft} {heading : Heading} (line : Nat)
    (h : d.Agrees Γ) (hnil : Γ.inner = []) (hname : Name.IsSegment heading.name)
    (hscope : heading.scope = Name.qualify Γ.unit.scope heading.name)
    (hfree : Γ.routine? heading.name = none) :
    (d.entered (.routine heading) line heading.scope).Agrees (Γ.enter (.routine heading)) := by
  have hother : ∀ r ∈ Γ.routines, r.heading.name ≠ heading.name := by
    intro r hr
    simpa using List.find?_eq_none.1 hfree r hr
  have hnew := h.regular.not_known_named hnil hname hother
  rw [← hscope] at hnew
  have hallocated : (d.allocated (.routine heading) line).Agrees Γ :=
    h.allocated fun x hx => by cases hx
  have hnode : d.tree.size < (d.allocated (.routine heading) line).tree.size :=
    Nat.lt_of_lt_of_eq (Nat.lt_succ_self _) (Tree.size_allocate _ _ _).symm
  have hheading : (some heading).toList
      = (((d.allocated (.routine heading) line).tree.construct? d.tree.size).bind
          Construct.heading?).toList ++ Γ.heading.toList := by
    rw [Draft.allocated, Tree.construct?_allocate, h.regular.outside hnil]
    rfl
  have hopened := hallocated.opened hnode hheading (Or.inr (Or.inr ⟨_, hname, hscope⟩))
    (fun hmem => hnew (Or.inr (Or.inl hmem))) fun name hsegment => h.not_contains hnew hsegment
  rw [hnil] at hopened
  exact hopened

/-- A routine was read, closed and registered. -/
theorem Draft.Agrees.leftRoutine {Γ : Env} {d d₁ d₂ : Draft} {heading : Heading} {body : Forest}
    {routines : Routines} {node : NodeId} (h : d.Agrees Γ) (hnil : Γ.inner = [])
    (hname : Name.Plain heading.name)
    (hscope : heading.scope = Name.qualify Γ.unit.scope heading.name)
    (hbody : ReadSound (Γ.enter (.routine heading)) d₁ body d₂)
    (hblocks : d₂.blocks.tail = d.blocks) (hkeeps : d.tree.Keeps d₂.tree)
    (hroutines : routines = d.routines.insert heading.name ⟨node, heading⟩) :
    (d₂.closed.equipped routines).Agrees (Γ.after node (.routine heading)) := by
  obtain ⟨names, hafter⟩ := hbody.sound.afterAll_inner rfl
  have hagrees := hbody.agrees
  rw [hafter] at hagrees
  refine h.closed (l := ⟨heading.scope, names⟩) hagrees ?_ rfl rfl hblocks hkeeps
    (fun name => ?_) (fun r hr => ?_) (fun r hr => List.mem_cons_of_mem _ hr)
    (Or.inr ⟨_, List.mem_cons_self, hscope⟩)
  · rw [Env.levels, Env.levels, hnil]
    rfl
  · rw [hroutines]
    by_cases heq : name = heading.name
    · subst heq
      simp
    · have hne : heading.name ≠ name := Ne.symm heq
      rw [Table.get?_insert_of_ne _ heq, h.routines, List.find?_cons_of_neg (by simpa using hne)]
      rfl
  · rcases List.mem_cons.1 hr with rfl | hr
    · exact hname
    · exact h.regular.routines r hr

/-- A routine that is defined was not there before. -/
theorem define_ok {rs rs' : Routines} {r : Routine} (h : rs.define r = .ok rs') :
    rs.get? r.heading.name = none ∧ rs' = rs.insert r.heading.name r := by
  unfold Routines.define at h
  split at h
  · cases h
  · rename_i hfree
    cases h
    exact ⟨by simpa [Table.contains] using hfree, rfl⟩

/-- A routine that is defined stays defined. -/
theorem Reads.routines_kept {role : Role} {d d' : Draft} {f : Forest} (h : Reads role d f d')
    {name : String} {r : Routine} (hr : d.routines.get? name = some r) :
    d'.routines.get? name = some r := by
  induction h with
  | @routine d d₁ d₂ d₃ _ heading _ _ taken _ _ _ _ _ inside rest defined _ =>
    have hbefore : d₃.routines = d.routines :=
      rest.routines.trans ((inside.routines_eq (by simp) (by simp)).trans taken.routines)
    obtain ⟨hfree, rfl⟩ := define_ok defined
    rw [hbefore] at hfree
    -- the name of the new routine was free, so it is another one
    have hname : name ≠ heading.name := fun heq => by
      rw [heq, hfree] at hr
      cases hr
    refine (Table.get?_insert_of_ne _ hname _).trans ?_
    rw [hbefore]
    exact hr
  | item _ _ _ ihf ihm => exact ihm (by rw [Draft.routines_attached]; exact ihf hr)
  | done => exact hr
  | declaration taken | simple taken => exact taken.routines ▸ hr
  | loop taken _ _ _ rest ih => exact rest.routines ▸ ih (taken.routines ▸ hr)
  | conditional taken _ _ _ _ rest ihb ihs => exact rest.routines ▸ ihs (ihb (taken.routines ▸ hr))
  | elseIf taken _ _ _ _ _ ihb ihs => exact ihs (ihb (taken.routines ▸ hr))
  | otherwise taken _ _ _ ih => exact ih (taken.routines ▸ hr)

/-- Reading tokens reads them beside more routines as well. -/
theorem Draft.Skips.equipped {d d' : Draft} (h : d.Skips d') (routines : Routines) :
    (d.equipped routines).Skips (d'.equipped routines) := by
  refine ⟨h.suffix, ?_⟩
  rw [h.rest]
  rfl

/-- A routine, from what is known of reading its body: its name is free until it is closed, and
behind it the unit is open with one routine more. -/
theorem Reads.routine_sound {Γ : Env} {d d₁ d₂ d₃ : Draft} {line : Nat} {heading : Heading}
    {routines : Routines} {body : Forest} (h : d.Agrees Γ)
    (taken : d.Takes line (Construct.routine heading).spelling d₁)
    (outermost : d.blocks.length = 1) (written : d.Writes heading.name)
    (distinct : (heading.parameters.map (·.name)).Nodup)
    (parameters : ∀ p ∈ heading.parameters, d.Writes p.name)
    (scope_eq : heading.scope = Name.qualify d.scope heading.name)
    (inside : Reads .body (d₁.entered (.routine heading) line heading.scope) body d₂)
    (rest : d₂.closed.Spells [] d₃)
    (defined : d₃.routines.define ⟨d₁.tree.size, heading⟩ = .ok routines)
    (hplain : Token.AllPlain d.tokens)
    (ih : ∀ Γ : Env, (d₁.entered (.routine heading) line heading.scope).Agrees Γ →
      Token.AllPlain d₁.tokens → (Role.body.IsInner → Name.isQualified Γ.scope = true) →
      ReadSound Γ (d₁.entered (.routine heading) line heading.scope) body d₂) :
    Γ.Allows (.routine heading) ∧
      body.Sound (Γ.enter (.routine heading)) (d.tree.size + 1) ∧
      (d₃.equipped routines).Agrees (Γ.after d.tree.size (.routine heading)) := by
  have htaken := h.skips taken.toSkips
  have hname := written.plain hplain
  have hnil := h.inner_eq_nil outermost
  have hscope : heading.scope = Name.qualify Γ.unit.scope heading.name := by
    rw [scope_eq, h.scope_eq, Env.scope, hnil]
    rfl
  -- its name is free before its body is read, because reading the body registers nothing
  obtain ⟨hfree, hroutines⟩ := define_ok defined
  have hkept : d₃.routines = d.routines :=
    rest.routines.trans ((inside.routines_eq (by simp) (by simp)).trans taken.routines)
  rw [hkept, h.routines] at hfree
  have hentered := htaken.enteredRoutine line hnil hname.segment hscope hfree
  have hbody := ih _ hentered (taken.allPlain hplain) fun _ => by
    show Name.isQualified heading.scope = true
    rw [hscope]
    exact Name.isQualified_qualify _ _
  have hkeeps := (Tree.keeps_allocate _ _ _).trans inside.keeps
  have hroutines' : routines = d₁.routines.insert heading.name ⟨d₁.tree.size, heading⟩ := by
    rw [hroutines, hkept, taken.routines]
  have hleft := htaken.leftRoutine hnil hname hscope hbody inside.sameBlocks.outer hkeeps
    hroutines'
  have hbody' := hbody.sound
  rw [Draft.entered, Draft.opened, Draft.allocated, Tree.size_allocate, taken.tree] at hbody'
  rw [taken.tree] at hleft
  have hparameters : ∀ p ∈ heading.parameters, Name.IsSegment p.name :=
    fun p hp => ((parameters p hp).plain hplain).segment
  exact ⟨⟨hnil, htaken.regular.outside hnil, hfree, hscope, distinct, hparameters⟩, hbody',
    hleft.skips (rest.toSkips.equipped routines)⟩

/-- What is read at a point fits the environment of the point. -/
theorem Reads.sound {role : Role} {d d' : Draft} {f : Forest} (h : Reads role d f d') :
    ∀ Γ : Env, d.Agrees Γ → Token.AllPlain d.tokens →
      (role.IsInner → Name.isQualified Γ.scope = true) → ReadSound Γ d f d' := by
  induction h with
  | @declaration d d₁ line v taken written sound id_eq new =>
    intro Γ h hplain hinner
    have hname := (written.plain hplain).segment
    have hsound := Construct.sound_mono (h.names_le hplain) _ sound
    have hid : v.id = Name.qualify Γ.scope v.name := by rw [id_eq, h.scope_eq]
    refine ⟨⟨⟨hsound, ⟨hid, hname⟩, fun _ => rfl, trivial⟩, trivial, trivial, trivial⟩, ?_⟩
    have htaken := h.skips taken.toSkips
    -- the variable is registered in the block that it is read in
    have hid' : v.fresh.id = Name.qualify d₁.scope v.fresh.name := by
      rw [htaken.scope_eq]
      exact hid
    refine (htaken.registered hid' hname).allocated ?_
    rintro x hx
    cases hx
    exact (Table.contains_insert _ _ _ _).trans (by simp [Declaration.fresh])
  | @simple d d₁ line c taken kind sound =>
    intro Γ h hplain hinner
    have hsound := Construct.sound_mono (h.names_le hplain) _ sound
    have hallows : Γ.Allows c := by cases c <;> trivial
    have hafter : Γ.after d.tree.size c = Γ := by cases c <;> first | rfl | exact kind.elim
    refine ⟨⟨⟨hsound, hallows, fun _ => rfl, trivial⟩, trivial, trivial, trivial⟩, ?_⟩
    show (d₁.allocated c line).Agrees (Γ.after d.tree.size c)
    rw [hafter]
    refine (h.skips taken.toSkips).allocated fun x hx => ?_
    cases c <;> first | cases hx; done | exact kind.elim
  | @loop d d₁ d₂ d₃ line scope condition body taken sound scope_eq inside rest ih =>
    intro Γ h hplain hinner
    have hsound := Expr.sound_mono (h.names_le hplain) _ sound
    obtain ⟨hbody, hclosed, -⟩ := Reads.block_sound h taken.toSkips hplain (hinner trivial)
      (Or.inl rfl) scope_eq rfl rfl (.refl (d₁.tree.allocate (.loop scope condition) line).2)
      (Tree.size_allocate _ _ _) inside ih
    exact ⟨⟨⟨hsound, trivial, .block rfl trivial⟩, hbody, trivial, trivial⟩,
      hclosed.skips rest.toSkips⟩
  | @conditional d d₁ d₂ d₃ d₄ line scope condition body slots taken sound scope_eq inside after
      rest ihb ihs =>
    intro Γ h hplain hinner
    have hsound := Expr.sound_mono (h.names_le hplain) _ sound
    obtain ⟨hbody, hclosed, hsize⟩ := Reads.block_sound h taken.toSkips hplain (hinner trivial)
      (Or.inr (Or.inl rfl)) scope_eq rfl rfl
      (.refl (d₁.tree.allocate (.conditional scope condition [] none) line).2)
      (Tree.size_allocate _ _ _) inside ihb
    have hplain' : Token.AllPlain d₂.closed.tokens := inside.allPlain (taken.allPlain hplain)
    obtain ⟨hslots, hafter⟩ := ihs Γ hclosed hplain' hinner
    -- branches declare nothing, so what follows sees what the conditional saw
    rw [after.tops_isBranch.afterAll_eq] at hafter
    obtain ⟨elseIfs, last, hfill⟩ := slots.exists_fill_eq d₂.tree.size scope condition [] none
    rw [hfill]
    refine ⟨⟨⟨hsound, trivial, .block rfl after.tops_isBranch⟩, hbody, ?_, trivial⟩,
      hafter.skips rest.toSkips⟩
    rw [← hsize]
    exact hslots
  | @elseIf d d₁ d₂ d₃ conditional line scope condition tree body slots taken sound scope_eq placed
      inside after ihb ihs =>
    intro Γ h hplain hinner
    have hsound := Expr.sound_mono (h.names_le hplain) _ sound
    obtain ⟨hkeeps, hsize'⟩ := Tree.keeps_attachBranch placed
    rw [Tree.size_allocate] at hsize'
    obtain ⟨hbody, hclosed, hsize⟩ := Reads.block_sound h taken.toSkips hplain (hinner trivial)
      (Or.inr (Or.inr (Or.inl rfl))) scope_eq rfl rfl hkeeps hsize' inside ihb
    have hplain' : Token.AllPlain d₂.closed.tokens := inside.allPlain (taken.allPlain hplain)
    obtain ⟨hslots, hafter⟩ := ihs Γ hclosed hplain' hinner
    have hnext : d₂.closed.tree.size = d.tree.size + 1 + body.size + Forest.nil.size := hsize
    rw [hnext] at hslots hafter
    exact ⟨⟨⟨hsound, trivial, .block rfl trivial⟩, hbody, trivial, hslots⟩, hafter⟩
  | @otherwise d d₁ d₂ conditional line scope tree body taken scope_eq placed inside ih =>
    intro Γ h hplain hinner
    obtain ⟨hkeeps, hsize'⟩ := Tree.keeps_attachBranch placed
    rw [Tree.size_allocate] at hsize'
    obtain ⟨hbody, hclosed, -⟩ := Reads.block_sound h taken.toSkips hplain (hinner trivial)
      (Or.inr (Or.inr (Or.inr rfl))) scope_eq rfl rfl hkeeps hsize' inside ih
    exact ⟨⟨⟨trivial, trivial, .block rfl trivial⟩, hbody, trivial, trivial⟩, hclosed⟩
  | routine taken outermost written distinct parameters scope_eq inside rest defined ih =>
    intro Γ h hplain _
    obtain ⟨hallows, hbody, hagrees⟩ := Reads.routine_sound h taken outermost written distinct
      parameters scope_eq inside rest defined hplain ih
    exact ⟨⟨⟨trivial, hallows, .block rfl trivial⟩, hbody, trivial, trivial⟩, hagrees⟩
  | done list =>
    intro Γ h hplain hinner
    exact ⟨trivial, h⟩
  | @item list role d d₁ d₂ f g admitted first more ihf ihm =>
    intro Γ h hplain hinner
    obtain ⟨hsound, hagrees⟩ := ihf Γ h hplain fun hr => hinner (admitted.isInner hr)
    have hplain' := first.allPlain_attached hplain d.tree.size
    -- the rest of the list starts where the first of it has ended
    have hinner' : list.IsInner → Name.isQualified (Γ.afterAll d.tree.size f).scope = true := by
      intro hl
      rw [Γ.scope_afterAll]
      exact hinner hl
    obtain ⟨hsound', hagrees'⟩ := ihm _ (hagrees.attached _) hplain' hinner'
    rw [(d₁.attached_tree _).2, first.size_eq] at hsound' hagrees'
    refine ⟨(Forest.sound_append _ _ _ _).2 ⟨hsound, hsound'⟩, ?_⟩
    rw [Env.afterAll_append]
    exact hagrees'

end Primer.Grammar

namespace Primer

/-! ## Whole programs -/

/-- A program as it is written: its name, its declarations and routines, and its entry block. -/
structure Outline where
  name : String
  line : Nat
  items : Forest
  entryLine : Nat
  body : Forest

namespace Outline

/-- The scope of the entry block. -/
def entryScope (o : Outline) : String := Name.qualify o.name "beginning"

/-- The position of the entry block, which is behind all items. -/
def entryNode (o : Outline) : Nat := 1 + o.items.size

/-- The unit, with the items as its body and the entry block in its slot. -/
def forest (o : Outline) : Forest :=
  .cons (.unit o.name o.name (some o.entryNode)) o.line o.items
    (.block (.entry o.entryScope) o.entryLine o.body) .nil

/-- What surrounds the first item. -/
def start (o : Outline) : Env :=
  { unit := ⟨o.name, []⟩, routines := [], heading := none, inner := [] }

/-- What surrounds the entry block: all items. -/
def ready (o : Outline) : Env := o.start.afterAll 1 o.items

end Outline

/-- A program has this outline: its nodes are the layout of it, its routines those of the items, and
every construct fits what surrounds it. -/
structure Program.Means (p : Program) (o : Outline) : Prop where
  nodes : p.tree.nodes.toList = o.forest.nodes none (.chain none none) 0
  linked : o.forest.Linked 0
  root : p.root = 0
  routines : ∀ name, p.routines.get? name = o.ready.routine? name
  items : o.items.Sound o.start 1
  body : o.body.Sound (o.ready.enter (.entry o.entryScope)) (o.entryNode + 1)

namespace Grammar

/-- The unit was opened. -/
theorem Draft.agrees_start {tokens : List Lexeme} {d : Draft} {o : Outline} {line : Nat}
    (taken : (Draft.start tokens).Takes line [o.name] d) (hname : Name.IsSegment o.name)
    {tree : Tree} (htree : tree.nodes = #[.detached (.unit o.name o.name none) line]) :
    ((d.planted tree).opened 0 o.name).Agrees o.start := by
  have hsize : tree.size = 1 := by rw [Tree.size, htree]; rfl
  have hunit : tree.construct? 0 = some (.unit o.name o.name none) := by
    rw [Tree.construct?, Tree.node?, htree]
    rfl
  have hblocks : ((d.planted tree).opened 0 o.name).blocks = [⟨0, o.name, []⟩] := by
    rw [Draft.opened, Draft.planted, taken.blocks]
    rfl
  have hdeclared : ((d.planted tree).opened 0 o.name).declared = .empty := taken.declared
  -- the unit is the only node and its block the only one, and nothing is declared
  refine ⟨⟨hname, fun s hs => ?_, ?_, fun r hr => ?_, fun _ => rfl⟩, ?_, ?_, fun b hb => ?_,
    fun name => ?_, fun id x hx => ?_, fun l hl name _ => ?_, fun id hid => ?_⟩
  · rw [List.mem_singleton.1 hs]
    exact Or.inr (Or.inl rfl)
  · exact List.nodup_cons.2 ⟨List.not_mem_nil, List.nodup_nil⟩
  · cases hr
  · rw [hblocks]
    rfl
  · have hheading : ((d.planted tree).opened 0 o.name).heading? ⟨0, o.name, []⟩ = none := by
      rw [Draft.heading?_eq]
      show (tree.construct? 0).bind Construct.heading? = none
      rw [hunit]
      rfl
    rw [hblocks, List.filterMap_cons_none hheading]
    rfl
  · rw [hblocks, List.mem_singleton] at hb
    rw [hb]
    show 0 < tree.size
    omega
  · show d.routines.get? name = none
    rw [taken.routines]
    rfl
  · have hx' : (tree.construct? id).bind Construct.declared? = some x := hx
    cases id with
    | zero =>
      rw [hunit] at hx'
      cases hx'
    | succ id =>
      rw [Tree.construct?_of_size_le (by omega)] at hx'
      cases hx'
  · obtain rfl := List.mem_singleton.1 hl
    rw [hdeclared]
    simp [Table.contains, Table.empty, Table.get?, Table.lookup, Outline.start]
  · rw [hdeclared] at hid
    cases hid

/-- The entry block was opened, behind all items and directly in the unit. -/
theorem Draft.Agrees.enteredEntry {Γ : Env} {d : Draft} {tree : Tree} {scope : String} {line : Nat}
    (h : d.Agrees Γ) (hnil : Γ.inner = [])
    (hscope : scope = Name.qualify Γ.unit.scope "beginning")
    (placed : (d.tree.allocate (.entry scope) line).2.setEntry d.tree.size = .ok tree) :
    ((d.planted tree).opened d.tree.size scope).Agrees (Γ.enter (.entry scope)) := by
  have hsegment : Name.IsSegment "beginning" := by decide
  -- the name of the block is reserved, so no routine has it
  have hother : ∀ r ∈ Γ.routines, r.heading.name ≠ "beginning" := by
    intro r hr heq
    have hplain := h.regular.routines r hr
    rw [heq] at hplain
    exact absurd hplain.unreserved (by decide)
  have hnew := h.regular.not_known_named hnil hsegment hother
  rw [← hscope] at hnew
  obtain ⟨hkeeps, hsize⟩ := Tree.keeps_setEntry placed
  rw [Tree.size_allocate] at hsize
  have hplanted := h.planted (fun x hx => by cases hx) hkeeps hsize
  have hnode : d.tree.size < (d.planted tree).tree.size :=
    Nat.lt_of_lt_of_eq (Nat.lt_succ_self _) hsize.symm
  have hheading : Γ.heading.toList
      = (((d.planted tree).tree.construct? d.tree.size).bind Construct.heading?).toList
        ++ Γ.heading.toList := by
    show _ = ((tree.construct? d.tree.size).bind Construct.heading?).toList ++ _
    rw [hkeeps.heading _ (by rw [Tree.size_allocate]; omega), Tree.construct?_allocate]
    rfl
  exact hplanted.opened hnode hheading (Or.inr (Or.inr ⟨_, hsegment, hscope⟩))
    (fun hmem => hnew (Or.inr (Or.inl hmem))) fun name hname => h.not_contains hnew hname

/-- An accepted program has an outline that it means. -/
theorem ReadsProgram.means {tokens : List Lexeme} {f : Forest} {p : Program}
    (h : ReadsProgram tokens f p) (hplain : Token.AllPlain tokens) : ∃ o, p.Means o := by
  have hlayout := h.nodes_eq
  cases h with
  | @intro d d₁ d₂ d₃ _ line entryLine name scope tree tree' items body taken written placed inside
      begun scope_eq entryPlaced entered =>
  obtain ⟨hnodes, hlinked, hroot, -⟩ := hlayout
  subst scope_eq
  let o : Outline := { name, line, items, entryLine, body }
  have hempty : d.tree = .empty := taken.tree
  have hsize : d.tree.size = 0 := by rw [hempty]; rfl
  have hmade : tree.nodes = #[.detached (.unit name name none) line] := by
    rw [Tree.setRoot_ok placed, hempty]
    rfl
  rw [hsize] at inside
  -- the items, from the start of the unit on
  have hstart : ((d.planted tree).opened 0 name).Agrees o.start :=
    Draft.agrees_start taken (written.plain hplain).segment hmade
  have hitems := inside.sound o.start hstart (taken.allPlain hplain) fun hr => hr.elim
  have hone : ((d.planted tree).opened 0 name).tree.size = 1 := by
    show tree.nodes.size = 1
    rw [hmade]
    rfl
  have hready : d₁.Agrees o.ready := by
    have hagrees := hitems.agrees
    rwa [hone] at hagrees
  have hnode : d₂.tree.size = o.entryNode := by
    rw [begun.tree, inside.size_eq, hone]
    rfl
  -- the entry block, behind all of them
  have hbegun := hready.skips begun.toSkips
  have hnil : o.ready.inner = [] := Env.inner_afterAll rfl _ _
  have hunit : o.ready.unit.scope = name := Env.unit_scope_afterAll _ _ _
  have hscope : Name.qualify name "beginning" = Name.qualify o.ready.unit.scope "beginning" := by
    rw [hunit]
  have hopened := hbegun.enteredEntry hnil hscope entryPlaced
  have hplaced := (Tree.keeps_setEntry entryPlaced).2
  rw [Tree.size_allocate] at hplaced
  have hplain' : Token.AllPlain d₂.tokens :=
    begun.allPlain (inside.allPlain (taken.allPlain hplain))
  have hbody := entered.sound _ hopened hplain' fun _ => Name.isQualified_qualify _ _
  have hroutines : d₃.routines = d₂.routines := entered.routines_eq (by simp) (by simp)
  rw [hnode] at hnodes hlinked
  refine ⟨o, hnodes, hlinked, hroot, fun n => ?_, ?_, ?_⟩
  · show d₃.routines.get? n = _
    rw [hroutines]
    exact hbegun.routines n
  · have hsound := hitems.sound
    rwa [hone] at hsound
  · have hsound := hbody.sound
    rw [show ((d₂.planted tree').opened d₂.tree.size _).tree.size = o.entryNode + 1 by
      rw [← hnode]
      exact hplaced] at hsound
    exact hsound

end Grammar

namespace Program

/-- A text is read through its tokens. -/
theorem ofTokens_of_ofSource {source : String} {p : Program} (h : ofSource source = .ok p) :
    ∃ tokens, Token.scan source = .ok tokens ∧ ofTokens tokens = .ok p := by
  cases hscan : Token.scan source with
  | error e =>
    rw [ofSource, hscan] at h
    cases h
  | ok tokens =>
    rw [ofSource, hscan] at h
    exact ⟨tokens, rfl, h⟩

/-- Every accepted program has an outline in which every construct fits what surrounds it. -/
theorem ofSource_means {source : String} {p : Program} (h : ofSource source = .ok p) :
    ∃ o, p.Means o := by
  obtain ⟨tokens, hscan, hread⟩ := ofTokens_of_ofSource h
  obtain ⟨f, hreads⟩ := ofTokens_reads hread
  exact hreads.means (Token.scan_plain hscan)

end Program

end Primer
