import Primer.Proofs.History.Standing
import Primer.Proofs.History.Traced
import Primer.Proofs.Scope.Symbols

/-!
# Primer.Proofs.History.Visibility — what is declared is visible as long as its block is open.

`Passes x P Q` says of a traced reader that, from a draft with the property `P` on, it only comes by
drafts in which what is declared is visible, and that an answer has the property `Q`.  The invariant
`Stands` is followed through every reader, once for each of them; the readers of nested blocks take
the reader of a body as an argument, and `passes_block` closes the circle by induction on the bound.

For a reader that only takes tokens the invariant is kept at once, since it does not look at tokens.
For the others there is one lemma for each step that changes the draft: a block is counted, a node
is made, placed and attached, a block is opened and closed, a routine is defined.  A refusal in the
middle of a step leaves a draft that is visible too, which `Ends` takes care of; and that a refusal
for a name that is declared already tells the truth is read off the same invariant.

Main statement: `visible_of_scan`, about every draft that the reading of a text comes by, whether
the text is accepted or not.
-/

namespace Primer.Grammar

variable {α β : Type}

/-! ## Single statements -/

/-- A statement of one line makes a node when everything else has been read. -/
def Makes (x : Parse NodeId) : Prop :=
  ∀ d, Ends x d (fun node d' => ∃ d₁ c line, d.Skips d₁ ∧ Construct.IsSimple c ∧
    node = d₁.tree.size ∧ d' = d₁.allocated c line) d.Refuses

namespace Makes

variable {x : Parse α} {f : α → Parse NodeId}

theorem behind (hx : Quiet x) (hf : ∀ a, Makes (f a)) : Makes (x >>= f) := by
  refine fun d => (hx d).bind fun a d₁ hs => (hf a d₁).imp ?_ fun _ _ h => h.behind hs
  rintro node d' ⟨d₂, c, line, hs', hc, hnode, rfl⟩
  exact ⟨d₂, c, line, hs.trans hs', hc, hnode, rfl⟩

/-- A statement without a body is one node. -/
theorem allocate {c : Construct} (hc : c.IsSimple) (line : Nat) : Makes (allocate c line) :=
  fun d => ⟨d, c, line, .refl d, hc, rfl, rfl⟩

/-- A refusal for another reason than a declaration. -/
theorem refuse {fault : ParseFault} (h : fault.redeclared? = none) (line : Nat) :
    Makes (Grammar.refuse fault line) :=
  fun d => ⟨.refl d, h⟩

theorem assignment (bound : Nat) : Makes (assignment bound) := by
  refine behind (.expect _) fun line => behind (.target bound line) fun ⟨id, path⟩ =>
    behind (.expect _) fun _ => behind (.expression bound) fun value =>
      behind (.expect _) fun _ => ?_
  exact allocate (c := .assignment id path value) trivial line

theorem callStatement (bound : Nat) : Makes (callStatement bound) := by
  refine behind (.expect _) fun line => behind .identifier fun name =>
    behind (.arguments (.expression bound) bound name line) fun found =>
      behind (.expect _) fun _ => ?_
  exact allocate (c := .call name found) trivial line

theorem inputStatement (bound : Nat) : Makes (inputStatement bound) := by
  refine behind (.expect _) fun line => behind (.target bound line) fun ⟨id, path⟩ =>
    behind (.expect _) fun _ => ?_
  exact allocate (c := .input id path) trivial line

theorem outputStatement (bound : Nat) : Makes (outputStatement bound) := by
  refine behind (.expect _) fun line => behind (.expression bound) fun value =>
    behind (.expect _) fun _ => ?_
  exact allocate (c := .output value) trivial line

theorem returnStatement (bound : Nat) : Makes (returnStatement bound) := by
  refine behind (.expect _) fun line => behind .get fun d => ?_
  split
  · exact refuse rfl line
  · refine behind .peek fun next => ?_
    have hrest : ∀ value, Makes (do
        let _ ← expect (.mark .semicolon)
        Grammar.allocate (.result value) line) := fun value =>
      behind (.expect _) fun _ => allocate (by cases value <;> trivial) line
    dsimp only
    split
    · exact behind (.map _ (.expression bound)) hrest
    · exact behind (.refuse rfl line) hrest
    · exact behind (.pure _) hrest
    · exact behind (.refuse rfl line) hrest

end Makes

/-- A declaration registers its variable and makes its node, or its name is taken. -/
theorem declaration_ends (bound : Nat) (d : Draft) :
    Ends (declaration bound) d
      (fun node d' => ∃ d₁ v line, d.Skips d₁ ∧ d.Writes v.name ∧
        v.id = Name.qualify d₁.scope v.name ∧ node = d₁.tree.size ∧
        d' = (d₁.registered v.fresh).allocated (.declaration v) line)
      (fun e d' => d.Skips d' ∧ ∀ name, e.fault.redeclared? = some name →
        d.Writes name ∧ d'.declared.contains (Name.qualify d'.scope name) = true) := by
  have hquiet : ∀ e d', d.Refuses e d' → d.Skips d' ∧ ∀ name, e.fault.redeclared? = some name →
      d.Writes name ∧ d'.declared.contains (Name.qualify d'.scope name) = true := by
    refine fun e d' h => ⟨h.1, fun name hname => ?_⟩
    rw [h.2] at hname
    cases hname
  refine (Quiet.expect _).before (.refl d) hquiet fun line d₁ _ hs₁ => ?_
  refine (Quiet.declarator bound line).before hs₁ hquiet
    fun ⟨type, name, initializer⟩ d₂ hrun hs₂ => ?_
  have hwrites := hs₁.writes (declarator_ok hrun).2.1
  refine (Quiet.expect _).before hs₂ hquiet fun _ d₃ _ hs₃ => Ends.get ?_
  dsimp only
  split
  · rename_i htaken
    refine ⟨hs₃, fun other hother => ?_⟩
    cases hother
    exact ⟨hwrites, htaken⟩
  · exact ⟨d₃, { type, name, id := Name.qualify d₃.scope name, initializer }, line, hs₃, hwrites,
      rfl, rfl, rfl⟩

/-- A heading is read directly in the unit, under a name of the text. -/
theorem routineHeading_ends (bound : Nat) (d : Draft) :
    Ends (routineHeading bound) d
      (fun found d' => d.Skips d' ∧ d.blocks.length = 1 ∧ d.Writes found.1.name ∧
        found.1.scope = Name.qualify d.scope found.1.name) d.Refuses := by
  have hquiet : ∀ e d', d.Refuses e d' → d.Refuses e d' := fun _ _ h => h
  refine Quiet.advance.before (.refl d) hquiet fun keyword d₁ _ hs₁ => ?_
  refine Quiet.visibility.before hs₁ hquiet fun visibility d₂ _ hs₂ => ?_
  refine Quiet.identifier.before hs₂ hquiet fun name d₃ hrun hs₃ => Ends.get ?_
  have hwrites := hs₂.writes (identifier_ok hrun).2
  dsimp only
  split
  · exact ⟨hs₃, rfl⟩
  · rename_i hlevel
    have hlength : d.blocks.length = 1 := by
      rw [← hs₃.blocks]
      exact Decidable.not_not.1 hlevel
    have hrest : ∀ (result : Option Scalar) (parameters : List Parameter) (d' : Draft),
        d.Skips d' → Ends (do
          let scope := Name.qualify (← get).scope name
          return ({ result, visibility, name, parameters, scope }, keyword.line) :
            Parse (Heading × Nat)) d' (fun found d' => d.Skips d' ∧ d.blocks.length = 1 ∧
          d.Writes found.1.name ∧ found.1.scope = Name.qualify d.scope found.1.name) d.Refuses := by
      intro result parameters d' hs'
      refine Ends.get ⟨hs', hlength, hwrites, ?_⟩
      exact congrArg (Name.qualify · name) (Draft.scope_of_blocks hs'.blocks)
    refine (Quiet.expect _).before hs₃ hquiet fun _ d₄ _ hs₄ => ?_
    refine (Quiet.commaSeparated (fun _ => .parameter) _ bound).before hs₄ hquiet
      fun parameters d₅ _ hs₅ => ?_
    cases firstRepeated? [] (parameters.map (·.name)) with
    | some repeated => exact ⟨hs₅, rfl⟩
    | none =>
      dsimp only
      split
      · refine (Quiet.expect _).before hs₅ hquiet fun _ d₆ _ hs₆ => ?_
        exact (Quiet.map some .scalarType).before hs₆ hquiet fun result d₇ _ hs₇ =>
          hrest result parameters d₇ hs₇
      · exact hrest none parameters d₅ hs₅

/-! ## Steps of a reading -/

/-- Where a reading refuses, what is declared is visible; and what is refused as declared already is
in the table, in the scope of the innermost block. -/
structure Draft.Stops (d : Draft) (e : ParseError) : Prop where
  visible : d.Visible
  redeclared : ∀ name, e.fault.redeclared? = some name → Name.IsSegment name ∧
    ∃ b outer, d.blocks = b :: outer ∧ d.declared.contains (Name.qualify b.scope name) = true

/-- From a draft with the first property on, the reading only comes by drafts in which what is
declared is visible, and an answer has the second property. -/
def Passes (x : Traced α) (P : Draft → Prop) (Q : α → Draft → Prop) : Prop :=
  ∀ h : History, (∀ d ∈ h.past, d.Visible) → P h.now →
    Ends x h (fun a h' => (∀ d ∈ h'.past, d.Visible) ∧ Q a h'.now)
      (fun e h' => (∀ d ∈ h'.past, d.Visible) ∧ h'.now.Stops e)

namespace Passes

variable {x : Traced α} {f : α → Traced β} {P P' : Draft → Prop} {R : α → Draft → Prop}
  {Q : β → Draft → Prop}

/-- A step between drafts in which everything is visible. -/
theorem step {y : Parse α} (hP : ∀ d, P d → d.Visible)
    (hy : ∀ d, P d → Ends y d R fun e d' => d'.Stops e) : Passes (step y) P R := by
  intro h hpast hnow
  have hdrafts : ∀ d ∈ h.drafts, d.Visible := by
    intro d hd
    rcases List.mem_cons.1 hd with rfl | hd
    · exact hP _ hnow
    · exact hpast d hd
  exact Ends.step ((hy h.now hnow).imp (fun _ _ hr => ⟨hdrafts, hr⟩) fun _ _ he => ⟨hdrafts, he⟩)

theorem bind (hx : Passes x P R) (hf : ∀ a, Passes (f a) (R a) Q) : Passes (x >>= f) P Q :=
  fun h hpast hnow => (hx h hpast hnow).bind fun a h' ⟨hpast', hnow'⟩ => hf a h' hpast' hnow'

theorem pure {a : α} (h : ∀ d, P d → R a d) : Passes (Pure.pure a) P R :=
  fun _ hpast hnow => ⟨hpast, h _ hnow⟩

theorem of (h : ∀ d, P d → P' d) (hx : Passes x P' R) : Passes x P R :=
  fun h' hpast hnow => hx h' hpast (h _ hnow)

theorem conclude {R' : α → Draft → Prop} (h : ∀ a d, R a d → R' a d) (hx : Passes x P R) :
    Passes x P R' :=
  fun h' hpast hnow => (hx h' hpast hnow).imp (fun a _ hr => ⟨hr.1, h a _ hr.2⟩) fun _ _ he => he

/-- What is known whatever the draft is. -/
theorem assume {C : Prop} (h : C → Passes x P R) : Passes x (fun d => C ∧ P d) R :=
  fun h' hpast hnow => h hnow.1 h' hpast hnow.2

end Passes

/-- Where nothing waits to be attached, what is declared is visible. -/
theorem Stands.visible_none {s : Site} {d : Draft} (h : Stands s none d) : d.Visible :=
  h.visible fun _ hnone => by cases hnone

/-- A refusal that is none of a redeclaration. -/
theorem Stands.stops {s : Site} {d d' : Draft} {e : ParseError} (h : Stands s none d)
    (hrefuses : d.Refuses e d') : d'.Stops e := by
  refine ⟨(h.skips hrefuses.1).visible_none, fun name hname => ?_⟩
  rw [hrefuses.2] at hname
  cases hname

/-- A block is about to be opened: its scope is new, and nothing was declared in it, unless it
repeats. -/
structure Opening (s : Site) (node : NodeId) (scope : String) (d : Draft) : Prop where
  stands : Stands s none d
  has : d.Has node
  kind : d.Scoped s.unit scope
  new : scope ∉ s.scopes
  free : ¬ d.Repeats ⟨node, scope, []⟩ → ∀ name, Name.IsSegment name →
    d.declared.contains (Name.qualify scope name) = false

/-- The scope of a block without a name, in which nothing was declared. -/
structure Fresh (s : Site) (scope : String) (d : Draft) : Prop where
  stands : Stands s none d
  kind : d.Scoped s.unit scope
  new : scope ∉ s.scopes
  free : ∀ name, Name.IsSegment name → d.declared.contains (Name.qualify scope name) = false

/-- The scope is that of a block without a name. -/
def Site.Nameless (s : Site) (scope : String) : Prop :=
  Name.isQualified scope = true ∧ ¬ Name.NamedIn s.unit scope

namespace Passes

variable {s : Site} {scope : String} {node : NodeId}

theorem quiet {x : Parse α} (hx : Quiet x) :
    Passes (Grammar.step x) (Stands s none) fun _ => Stands s none :=
  step (fun _ h => h.visible_none) fun d h =>
    (hx d).imp (fun _ _ hs => h.skips hs) fun _ _ hrefuses => h.stops hrefuses

/-- A block without a name gets a scope that is new. -/
theorem blockScope {label : String} (hlabel : Name.IsLabel label) (hs : s.Inner) :
    Passes (Grammar.step (blockScope label)) (Stands s none)
      fun scope d => s.Nameless scope ∧ Fresh s scope d := by
  refine step (fun _ h => h.visible_none) fun d h => ?_
  obtain ⟨b, c, outer, hblocks, hqualified⟩ := hs
  have hscope : d.scope = b.2 := by
    have hhead := congrArg List.head? h.scopes_eq
    rw [Site.scopes, hblocks, List.head?_map] at hhead
    rw [Draft.scope, hhead]
    rfl
  have hnext : Name.Numbered (d.blockCount + 1) (d.nextScope label) := by
    rw [Draft.nextScope, hscope]
    exact Name.numbered_next hlabel hqualified _
  -- no scope so far has this number
  have hnew : ¬ d.Scoped s.unit (d.nextScope label) := by
    rintro (hnamed | hnumbered)
    · exact hnext.not_namedIn h.unit hnamed
    · exact Name.not_numbered_next hlabel _ hnumbered
  refine ⟨⟨hnext.isQualified, hnext.not_namedIn h.unit⟩, h.counted, Or.inr hnext,
    fun hmem => hnew (h.kinds _ hmem), fun name hname => ?_⟩
  rw [← Bool.not_eq_true]
  intro hcontained
  obtain ⟨scope', name', heq, hname', hk⟩ := h.known _ hcontained
  obtain ⟨rfl, -⟩ := (Name.qualify_inj hname hname').1 heq
  exact hnew hk

/-- The node of a block that is to be opened. -/
theorem allocate {c : Construct} (hc : c.declaration? = none) (line : Nat) :
    Passes (Grammar.step (allocate c line)) (Fresh s scope)
      fun node => Opening (s.hold node) node scope := by
  refine step (fun _ h => h.stands.visible_none) fun d h => ?_
  have hstands := h.stands.allocated hc line
  exact ⟨hstands, (hstands.held _ List.mem_cons_self).1, h.kind, h.new, fun _ => h.free⟩

/-- A node that is placed is not moved. -/
theorem place {f : Tree → Except TreeFault Tree}
    (hf : ∀ t t', f t = .ok t' → t.Keeps t' ∧ t'.size = t.size) (line : Nat) :
    Passes (Grammar.step (place f line)) (Opening s node scope) fun _ => Opening s node scope := by
  refine step (fun _ h => h.stands.visible_none) fun d h => Ends.get ?_
  cases hrun : f d.tree with
  | error cause => exact h.stands.stops ⟨.refl d, rfl⟩
  | ok tree =>
    obtain ⟨hkeeps, hsize⟩ := hf _ _ hrun
    refine ⟨h.stands.planted hkeeps hsize, Nat.lt_of_lt_of_le h.has hkeeps.size, h.kind, h.new,
      fun hrepeats => h.free fun hr => hrepeats ?_⟩
    obtain ⟨heading, hh, htaken⟩ := hr
    refine ⟨heading, ?_, htaken⟩
    rw [Draft.heading?_eq] at hh ⊢
    exact (hkeeps.heading _ h.has).trans hh

/-- A block is read and closed again. -/
theorem inBlock {body : Traced Unit} {names : List String} {s' : Site}
    (hbody : Passes body (Stands (s.enter node scope) none)
      fun _ => Stands (s'.enter node scope) none)
    (hnames : ∀ routine, Name.IsSegment routine → scope = Name.qualify s'.unit routine →
      routine ∈ names) :
    Passes (Traced.inBlock node scope body) (Opening s node scope)
      fun _ => Stands (s'.finish names) none :=
  (step (fun _ h => h.stands.visible_none) fun _ h =>
    h.stands.opened h.has h.kind h.new h.free).bind fun _ => hbody.bind fun _ =>
      step (fun _ h => h.visible_none) fun _ h => h.closed hnames

end Passes

/-! ## Statements and bodies -/

/-- The reader of a body keeps the invariant wherever a body may stand. -/
def PassesBody (body : Traced.Body) : Prop :=
  ∀ keywords s, Site.Inner s → Passes (body keywords) (Stands s none) fun _ => Stands s none

/-- The reader of a statement keeps the invariant, and the statement waits for its place. -/
def PassesStatement (x : Traced NodeId) : Prop :=
  ∀ s, Site.Inner s →
    Passes x (Stands s none) fun node d => d.Visible ∧ Stands s (some node) d

theorem passes_attach {s : Site} (node : NodeId) :
    Passes (step (attach node)) (fun d => d.Visible ∧ Stands s (some node) d)
      fun _ => Stands s none :=
  .step (fun _ h => h.1) fun _ h => h.2.attached

/-- A statement that is no declaration waits for its place. -/
theorem passes_wait {s : Site} (node : NodeId) :
    Passes (pure node) (Stands (s.hold node) none) fun node d =>
      d.Visible ∧ Stands s (some node) d :=
  .pure fun _ h => ⟨h.visible_none, h.wait⟩

theorem Makes.passes {x : Parse NodeId} (hx : Makes x) : PassesStatement (step x) := by
  refine fun s _ => .step (fun _ h => h.visible_none) fun d h => ?_
  refine (hx d).imp ?_ fun _ _ hrefuses => h.stops hrefuses
  rintro node d' ⟨d₁, c, line, hs, hc, rfl, rfl⟩
  have hnone : c.declaration? = none := by cases c <;> first | rfl | exact hc.elim
  have hstands := (h.skips hs).allocated hnone line
  exact ⟨hstands.visible_none, hstands.wait⟩

/-- A declaration waits to be attached, with its entry in the table. -/
theorem passes_declaration (bound : Nat) {s : Site} (hs : s.blocks ≠ []) :
    Passes (step (declaration bound)) (Stands s none) fun node d =>
      d.Visible ∧ Stands s (some node) d := by
  refine .step (fun _ h => h.visible_none) fun d h => ?_
  have hblocks : ∀ {d'}, d.Skips d' → ∃ b outer, d'.blocks = b :: outer := fun hskips => by
    refine List.exists_cons_of_ne_nil fun hnil => hs ?_
    rw [← (h.skips hskips).blocks_eq, hnil]
    rfl
  refine (declaration_ends bound d).imp ?_ ?_
  · rintro node d' ⟨d₁, v, line, hskips, hwrites, hid, rfl, rfl⟩
    obtain ⟨b, outer, hb⟩ := hblocks hskips
    have hstands := (h.skips hskips).declared hb hid (hwrites.plain h.plain).segment line
    refine ⟨hstands.visible fun node hnode w hw => ?_, hstands⟩
    obtain rfl := Option.mem_some.1 hnode
    rcases (Draft.construct?_allocated_declaration _ v line _ w).1 hw with ⟨-, rfl⟩ | hw
    · exact ⟨(Tree.size_allocate _ _ _).symm, hid⟩
    · exact absurd (Tree.lt_size_of_construct? hw) (Nat.lt_irrefl _)
  · rintro e d' ⟨hskips, htaken⟩
    refine ⟨(h.skips hskips).visible_none, fun name hname => ?_⟩
    obtain ⟨hwrites, hcontained⟩ := htaken name hname
    obtain ⟨b, outer, hb⟩ := hblocks hskips
    refine ⟨(hwrites.plain h.plain).segment, b, outer, hb, ?_⟩
    rwa [Draft.scope, hb] at hcontained

section

variable {body : Traced.Body} {s : Site}

/-- The body of a block without a name. -/
theorem passes_nameless (hbody : PassesBody body) (hs : s.Inner) {scope : String}
    (hscope : s.Nameless scope) (node : NodeId) (keywords : List Keyword) :
    Passes (Traced.inBlock node scope (body keywords)) (Opening s node scope)
      fun _ => Stands s none := by
  obtain ⟨b, c, outer, hblocks, -⟩ := hs
  have hinner : (s.enter node scope).Inner :=
    ⟨(node, scope), b, c :: outer, congrArg ((node, scope) :: ·) hblocks, hscope.1⟩
  have hnames : ∀ routine, Name.IsSegment routine → scope = Name.qualify s.unit routine →
      routine ∈ ([] : List String) := fun routine hr heq =>
    absurd (Or.inr ⟨routine, hr, heq⟩) hscope.2
  exact Passes.inBlock (hbody keywords _ hinner) hnames

theorem passes_loop (hbody : PassesBody body) (bound : Nat) :
    PassesStatement (Traced.loop body bound) := fun s hs =>
  (Passes.quiet (.expect _)).bind fun line => (Passes.quiet (.expression bound)).bind fun _ =>
    (Passes.quiet (.expect _)).bind fun _ => (Passes.blockScope (Or.inl rfl) hs).bind fun _ =>
      .assume fun hscope => (Passes.allocate rfl line).bind fun node =>
        (passes_nameless hbody (s := s.hold node) hs hscope node _).bind fun _ =>
          (Passes.quiet (.blockEnd _)).bind fun _ => passes_wait node

theorem passes_elseIfs (hbody : PassesBody body) (bound : Nat) (hs : s.Inner)
    (conditional : NodeId) : ∀ more, Passes (Traced.elseIfs body bound conditional more)
      (Stands s none) fun _ => Stands s none := by
  intro more
  induction more with
  | zero => exact .pure fun _ h => h
  | succ more ih =>
    refine (Passes.quiet .peek).bind fun next => ?_
    split
    · exact (Passes.quiet (.expect _)).bind fun line =>
        (Passes.quiet (.expression bound)).bind fun _ => (Passes.quiet (.expect _)).bind fun _ =>
          (Passes.blockScope (Or.inr (Or.inr (Or.inl rfl))) hs).bind fun _ =>
            .assume fun hscope => (Passes.allocate rfl line).bind fun branch =>
              (Passes.place (fun _ _ => Tree.keeps_attachBranch) line).bind fun _ =>
                (passes_nameless hbody (s := s.hold branch) hs hscope branch _).bind fun _ =>
                  .of (fun _ h => h.drop) ih
    · exact .pure fun _ h => h

theorem passes_otherwise (hbody : PassesBody body) (hs : s.Inner) (conditional : NodeId) :
    Passes (Traced.otherwise body conditional) (Stands s none) fun _ => Stands s none := by
  refine (Passes.quiet .peek).bind fun next => ?_
  split
  · refine (Passes.quiet (.expect _)).bind fun line =>
      (Passes.blockScope (Or.inr (Or.inr (Or.inr rfl))) hs).bind fun scope =>
        .assume fun hscope => (Passes.allocate rfl line).bind fun branch =>
          (Passes.place (fun _ _ => Tree.keeps_attachBranch) line).bind fun _ => ?_
    exact .conclude (fun _ _ h => h.drop)
      (passes_nameless hbody (s := s.hold branch) hs hscope branch _)
  · exact .pure fun _ h => h

theorem passes_conditional (hbody : PassesBody body) (bound : Nat) :
    PassesStatement (Traced.conditional body bound) := fun s hs =>
  (Passes.quiet (.expect _)).bind fun line => (Passes.quiet (.expression bound)).bind fun _ =>
    (Passes.quiet (.expect _)).bind fun _ =>
      (Passes.blockScope (Or.inr (Or.inl rfl)) hs).bind fun _ => .assume fun hscope =>
        (Passes.allocate rfl line).bind fun node =>
          (passes_nameless hbody (s := s.hold node) hs hscope node _).bind fun _ =>
            (passes_elseIfs hbody bound (s := s.hold node) hs node bound).bind fun _ =>
              (passes_otherwise hbody (s := s.hold node) hs node).bind fun _ =>
                (Passes.quiet (.blockEnd _)).bind fun _ => passes_wait node

/-! ## Routines and programs -/

/-- The routine that is registered takes its name. -/
theorem passes_define (routine : Routine) (hname : Name.Plain routine.heading.name) (line : Nat) :
    Passes (step (define routine line)) (Stands (s.finish [routine.heading.name]) none)
      fun _ => Stands s none := by
  refine .step (fun _ h => h.visible_none) fun d h => Ends.get ?_
  cases hrun : d.routines.define routine with
  | error fault =>
    have hfault : fault = .functionAlreadyDefined routine.heading.name := by
      unfold Routines.define at hrun
      split at hrun <;> cases hrun
      rfl
    subst hfault
    exact h.stops ⟨.refl d, rfl⟩
  | ok routines =>
    obtain ⟨-, rfl⟩ := define_ok hrun
    exact h.equipped hname routine

/-- Reading stands on the level of the unit. -/
def Site.Outermost (s : Site) : Prop := ∃ root, s.blocks = [(root, s.unit)] ∧ s.finished = []

/-- A block with a name is made on the level of the unit. -/
theorem passes_named (hs : s.Outermost) {c : Construct} (hc : c.declaration? = none) (line : Nat)
    {name : String} (hname : Name.IsSegment name)
    (hfree : ∀ d, Stands s none d → d.routines.contains name = true →
      (d.allocated c line).Repeats ⟨d.tree.size, Name.qualify s.unit name, []⟩) :
    Passes (step (allocate c line)) (Stands s none)
      fun node => Opening (s.hold node) node (Name.qualify s.unit name) := by
  obtain ⟨root, hblocks, hfinished⟩ := hs
  refine .step (fun _ h => h.visible_none) fun d h => ?_
  have hstands := h.allocated hc line
  have hnew : Name.qualify s.unit name ∉ s.scopes := by
    rw [Site.scopes, hblocks, List.map_singleton, List.mem_singleton]
    intro heq
    exact Name.not_isSegment_qualify s.unit name (heq ▸ h.unit)
  refine ⟨hstands, (hstands.held _ List.mem_cons_self).1, Or.inl (Or.inr ⟨name, hname, rfl⟩), hnew,
    fun hrepeats other hother => ?_⟩
  rw [← Bool.not_eq_true]
  intro hcontained
  rcases h.named name other hname hother hcontained with htaken | hmem | hmem
  · exact hrepeats (hfree d h htaken)
  · exact hnew hmem
  · rw [hfinished] at hmem
    cases hmem

/-- The heading of a routine is read in front of everything that changes the draft.  It tells that
only the block of the unit is open, and that the scope of the body has the name of the routine. -/
theorem passes_routineHeading (bound : Nat) (hs : s.Inner ∨ s.Outermost) :
    Passes (step (routineHeading bound)) (Stands s none) fun found d =>
      (Name.Plain found.1.name ∧ found.1.scope = Name.qualify s.unit found.1.name ∧ s.Outermost) ∧
        Stands s none d := by
  refine .step (fun _ h => h.visible_none) fun d h => (routineHeading_ends bound d).imp ?_
    fun _ _ hrefuses => h.stops hrefuses
  rintro ⟨heading, line⟩ d' ⟨hskips, hlength, hwrites, hscope⟩
  have houtermost : s.Outermost := by
    refine hs.resolve_left ?_
    rintro ⟨b, c, outer, hblocks, -⟩
    have hmany := congrArg List.length (h.blocks_eq.trans hblocks)
    rw [List.length_map, hlength] at hmany
    simp at hmany
  obtain ⟨root, hblocks, hroot⟩ := houtermost
  refine ⟨⟨hwrites.plain h.plain, ?_, root, hblocks, hroot⟩, h.skips hskips⟩
  rw [hscope]
  refine congrArg (Name.qualify · heading.name) ?_
  have hhead := congrArg List.head? h.scopes_eq
  rw [Site.scopes, hblocks, List.head?_map] at hhead
  rw [Draft.scope, hhead]
  rfl

/-- A routine is read on the level of the unit, and inside of it none is. -/
theorem passes_routine (hbody : PassesBody body) (bound : Nat)
    (hs : s.Inner ∨ s.Outermost) :
    Passes (Traced.routine body bound) (Stands s none) fun _ => Stands s none := by
  refine (passes_routineHeading bound hs).bind fun found => .assume ?_
  obtain ⟨heading, line⟩ := found
  rintro ⟨hname, hscope, houtermost⟩
  dsimp only at hname hscope ⊢
  have hallocate : Passes (step (allocate (.routine heading) line)) (Stands s none)
      fun node => Opening (s.hold node) node heading.scope := by
    rw [hscope]
    refine passes_named houtermost rfl line hname.segment fun d _ htaken => ⟨heading, ?_, htaken⟩
    rw [Draft.heading?_eq, Draft.allocated, Tree.construct?_allocate]
    rfl
  refine hallocate.bind fun node => ?_
  have hinner : ((s.hold node).enter node heading.scope).Inner := by
    obtain ⟨root, hblocks, -⟩ := houtermost
    refine ⟨(node, heading.scope), (root, s.unit), [],
      congrArg ((node, heading.scope) :: ·) hblocks, ?_⟩
    rw [hscope]
    exact Name.isQualified_qualify _ _
  have hnames : ∀ routine, Name.IsSegment routine →
      heading.scope = Name.qualify (s.hold node).unit routine → routine ∈ [heading.name] := by
    intro routine hr heq
    rw [hscope] at heq
    exact List.mem_singleton.2 ((Name.qualify_inj hname.segment hr).1 heq).2.symm
  exact (Passes.inBlock (hbody _ _ hinner) hnames).bind fun _ =>
    (Passes.quiet (.namedEnd _)).bind fun _ => (Passes.quiet (.expect _)).bind fun _ =>
      (passes_define ⟨node, heading⟩ hname line).bind fun _ =>
        .of (fun _ h => ⟨h.visible_none, h.wait⟩) (passes_attach node)

/-- An item of a block of any kind. -/
theorem passes_item (hbody : PassesBody body) (bound : Nat) (hs : s.Inner) (next : Token) :
    Passes (Traced.item body bound next) (Stands s none) fun _ => Stands s none := by
  have hplace : ∀ {x : Traced NodeId}, PassesStatement x →
      Passes (do step (attach (← x))) (Stands s none) fun _ => Stands s none :=
    fun hx => (hx s hs).bind passes_attach
  have hunexpected : Quiet (item.unexpected next) := Quiet.peekLine.bind fun _ => .refuse rfl _
  have hblocks : s.blocks ≠ [] := by
    obtain ⟨b, c, outer, hblocks, -⟩ := hs
    rw [hblocks]
    exact List.cons_ne_nil _ _
  cases next with
  | word k =>
    cases k with
    | function | procedure => exact passes_routine hbody bound (Or.inl hs)
    | «if» => exact hplace (passes_conditional hbody bound)
    | «while» => exact hplace (passes_loop hbody bound)
    | «variable» => exact (passes_declaration bound hblocks).bind passes_attach
    | «let» => exact hplace (Makes.assignment bound).passes
    | call => exact hplace (Makes.callStatement bound).passes
    | input => exact hplace (Makes.inputStatement bound).passes
    | output => exact hplace (Makes.outputStatement bound).passes
    | «return» => exact hplace (Makes.returnStatement bound).passes
    | _ => exact .quiet hunexpected
  | _ => exact .quiet hunexpected

end

theorem passes_block : ∀ bound, PassesBody (Traced.block bound) := by
  intro bound
  induction bound with
  | zero => exact fun _ s _ => .quiet .endOfText
  | succ bound ih =>
    intro keywords s hs
    refine (Passes.quiet .peek).bind fun next => ?_
    cases next with
    | none => exact .quiet .endOfText
    | some next =>
      dsimp only
      split
      · exact .pure fun _ h => h
      · exact (passes_item ih bound hs next).bind fun _ => ih keywords s hs

/-- The items of the unit, in front of the entry block. -/
theorem passes_unitItems {s : Site} (hs : s.Outermost) : ∀ bound,
    Passes (Traced.unitItems bound) (Stands s none) fun _ => Stands s none := by
  have hblocks : s.blocks ≠ [] := by
    obtain ⟨root, hblocks, -⟩ := hs
    rw [hblocks]
    exact List.cons_ne_nil _ _
  have hnoItem (next : Token) : Quiet (noItem next) := Quiet.peekLine.bind fun _ => .refuse rfl _
  intro bound
  induction bound with
  | zero => exact .quiet .endOfText
  | succ bound ih =>
    have hroutine := (passes_routine (passes_block bound) bound (Or.inr hs)).bind fun _ => ih
    refine (Passes.quiet .peek).bind fun next => ?_
    cases next with
    | none => exact .quiet .endOfText
    | some next =>
      cases next with
      | word k =>
        cases k with
        | beginning => exact .pure fun _ h => h
        | «variable» =>
          exact (passes_declaration bound hblocks).bind fun _ => (passes_attach _).bind fun _ => ih
        | function | procedure => exact hroutine
        | _ => exact .quiet (hnoItem _)
      | _ => exact .quiet (hnoItem _)

/-- The entry block, whose scope no routine has. -/
theorem passes_entryBlock {s : Site} (hs : s.Outermost) (bound : Nat) :
    Passes (Traced.entryBlock bound s.unit) (Stands s none)
      fun _ => Stands (s.finish ["beginning"]) none := by
  have hbeginning : Name.IsSegment "beginning" := by decide
  refine (Passes.quiet (.expect _)).bind fun line => ?_
  have hallocate : Passes (step (allocate (.entry (Name.qualify s.unit "beginning")) line))
      (Stands s none) fun node => Opening (s.hold node) node (Name.qualify s.unit "beginning") := by
    refine passes_named hs rfl line hbeginning fun d h htaken => ?_
    -- the name is reserved, so no routine has it
    have hfree := (h.routines "beginning" htaken).unreserved
    exact absurd hfree (by decide)
  refine hallocate.bind fun node => ?_
  have hinner : ((s.hold node).enter node (Name.qualify s.unit "beginning")).Inner := by
    obtain ⟨root, hblocks, -⟩ := hs
    exact ⟨(node, Name.qualify s.unit "beginning"), (root, s.unit), [],
      congrArg ((node, Name.qualify s.unit "beginning") :: ·) hblocks, Name.isQualified_qualify _ _⟩
  refine (Passes.place (fun _ _ => Tree.keeps_setEntry) line).bind fun _ => ?_
  have hnames : ∀ routine, Name.IsSegment routine → Name.qualify s.unit "beginning"
      = Name.qualify (s.hold node).unit routine → routine ∈ ["beginning"] :=
    fun routine hr heq => List.mem_singleton.2 ((Name.qualify_inj hbeginning hr).1 heq).2.symm
  refine .conclude (fun _ d h => ?_) (Passes.inBlock (passes_block bound [.end] _ hinner) hnames)
  have hdropped : Stands ((s.finish ["beginning"]).hold node) none d := h
  exact hdropped.drop

/-- Nothing has been read but tokens. -/
structure Draft.IsBlank (d : Draft) : Prop where
  blocks : d.blocks = []
  declared : d.declared = .empty
  routines : d.routines = .empty
  tree : d.tree = .empty
  plain : Token.AllPlain d.tokens

theorem Draft.IsBlank.skips {d d' : Draft} (h : d.IsBlank) (hs : d.Skips d') : d'.IsBlank :=
  ⟨hs.blocks.trans h.blocks, hs.declared.trans h.declared, hs.routines.trans h.routines,
    hs.tree.trans h.tree, hs.allPlain h.plain⟩

theorem Draft.IsBlank.stands {d : Draft} (h : d.IsBlank) {unit : String}
    (hunit : Name.IsSegment unit) : Stands ⟨unit, [], [], []⟩ none d := by
  obtain ⟨hblocks, hdeclared, hroutines, htree, hplain⟩ := h
  have hnone : ∀ id, d.declared.contains id = false := by
    intro id
    rw [hdeclared]
    rfl
  have hnode : ∀ node, d.tree.construct? node = none := by
    intro node
    rw [htree]
    rfl
  refine ⟨by rw [hblocks]; rfl, hunit, List.nodup_nil, fun _ hs => absurd hs List.not_mem_nil,
    fun b hb => ?_, fun _ hn => absurd hn List.not_mem_nil, fun node v hv => ?_,
    fun id hid => ?_, fun _ name _ _ hid => ?_, fun b hb => ?_, fun _ hn => (by cases hn), hplain,
    fun name hname => ?_⟩
  · rw [hblocks] at hb
    cases hb
  · rw [hnode] at hv
    cases hv
  · rw [hnone] at hid
    cases hid
  · rw [hnone] at hid
    cases hid
  · rw [hblocks] at hb
    cases hb
  · rw [hroutines] at hname
    cases hname

theorem Draft.IsBlank.stands_nowhere {d : Draft} (h : d.IsBlank) :
    Stands ⟨"", [], [], []⟩ none d :=
  h.stands (by decide)

namespace Passes

theorem blank {x : Parse α} (hx : Quiet x) :
    Passes (Grammar.step x) Draft.IsBlank fun _ => Draft.IsBlank :=
  step (fun _ h => h.stands_nowhere.visible_none) fun d h => (hx d).imp (fun _ _ hs => h.skips hs)
    fun _ _ hrefuses => h.stands_nowhere.stops hrefuses

/-- The name of a unit is one of the text. -/
theorem blankName : Passes (Grammar.step identifier) Draft.IsBlank
    fun name d => Name.IsSegment name ∧ d.IsBlank :=
  step (fun _ h => h.stands_nowhere.visible_none) fun d h => (Quiet.identifier d).andRun.imp
    (fun _ _ hs => ⟨((identifier_ok hs.2).2.plain h.plain).segment, h.skips hs.1⟩)
    fun _ _ hrefuses => h.stands_nowhere.stops hrefuses

/-- The unit is about to be opened, and nothing has been declared. -/
theorem blankUnit {name : String} (hname : Name.IsSegment name) (line : Nat) :
    Passes (Grammar.step (Grammar.allocate (.unit name name none) line)) Draft.IsBlank
      fun root => Opening ⟨name, [], [], [root]⟩ root name := by
  refine step (fun _ h => h.stands_nowhere.visible_none) fun d h => ?_
  have hstands := (h.stands hname).allocated (c := .unit name name none) rfl line
  refine ⟨hstands, (hstands.held _ List.mem_cons_self).1, Or.inl (Or.inl rfl), List.not_mem_nil,
    fun _ other _ => ?_⟩
  show d.declared.contains _ = false
  rw [h.declared]
  rfl

end Passes

/-- From the first token on, what is declared is visible. -/
theorem passes_unit (bound : Nat) :
    Passes (Traced.unit bound) Draft.IsBlank fun _ => Draft.Visible := by
  have hroot : ∀ {root : NodeId} (t t' : Tree), t.setRoot root = .ok t' →
      t.Keeps t' ∧ t'.size = t.size := by
    intro root t t' h
    unfold Tree.setRoot at h
    split at h <;> cases h
    exact ⟨⟨Nat.le_refl _, fun _ _ => rfl, fun _ _ => rfl⟩, rfl⟩
  refine (Passes.blank (.expect _)).bind fun line => Passes.blankName.bind fun name =>
    .assume fun hname => (Passes.blank (.expect _)).bind fun _ =>
      (Passes.blankUnit hname line).bind fun root => (Passes.place hroot line).bind fun _ => ?_
  -- The block of the unit is the outermost one, where the items stand.
  have houtermost : (Site.enter ⟨name, [], [], [root]⟩ root name).Outermost := ⟨root, rfl, rfl⟩
  have hinside : Passes (do
        Traced.unitItems bound
        Traced.entryBlock bound name
        step (namedEnd name)
        let _ ← step (expect (.mark .dot)))
      (Stands (Site.enter ⟨name, [], [], [root]⟩ root name) none)
      fun _ =>
        Stands (Site.enter (Site.finish ⟨name, [], [], [root]⟩ ["beginning"]) root name) none :=
    (passes_unitItems houtermost bound).bind fun _ => (passes_entryBlock houtermost bound).bind
      fun _ => (Passes.quiet (.namedEnd _)).bind fun _ => (Passes.quiet (.expect _)).bind
        fun _ => .pure fun _ h => h
  have hnames : ∀ routine, Name.IsSegment routine → name = Name.qualify name routine →
      routine ∈ [] := fun routine _ heq =>
    absurd hname (by rw [heq]; exact Name.not_isSegment_qualify _ _)
  refine (Passes.inBlock hinside hnames).bind fun _ => .conclude (fun _ _ h => h.visible_none)
    (Passes.quiet ?_)
  refine Quiet.get.bind fun d => ?_
  split
  · exact .pure _
  · exact .refuse rfl _

/-! ## What is visible in the drafts of a reading -/

/-- Reading these tokens comes by this draft: it is one between two steps, or further tokens of a
step have been taken. -/
def ComesBy (tokens : List Lexeme) (d : Draft) : Prop := ∃ d₀ ∈ drafts tokens, d₀.Skips d

namespace Draft.Visible

variable {d d' : Draft}

/-- What is visible is visible behind some tokens. -/
theorem skips (h : d.Visible) (hs : d.Skips d') : d'.Visible := by
  refine ⟨fun b hb hrepeats name hname => ?_, fun node v hv => ?_⟩
  · rw [hs.rest] at hb hrepeats ⊢
    exact h.table b hb hrepeats name hname
  · rw [hs.rest] at hv ⊢
    exact h.covered node v hv

/-- A name that is resolved is a parameter, or an open block declares it. -/
theorem resolve? (h : d.Visible) {name id : String} (hname : Name.IsSegment name)
    (hid : d.resolve? name = some id) : d.isParameter name = true ∧ id = name ∨
      ∃ b ∈ d.blocks, id = Name.qualify b.scope name ∧ (d.Repeats b ∨ d.Declares b name) := by
  have hcontained : ∀ b ∈ d.blocks, d.declared.contains (Name.qualify b.scope name) = true →
      d.Repeats b ∨ d.Declares b name := by
    intro b hb hcontained
    by_cases hrepeats : d.Repeats b
    · exact Or.inl hrepeats
    · exact Or.inr ((h.table b hb hrepeats name hname).1 hcontained)
  have hcovered : ∀ node x, (d.tree.construct? node).bind Construct.declared? = some x →
      d.declared.contains x = true := by
    intro node x hx
    obtain ⟨c, hc, hdeclared⟩ := Option.bind_eq_some_iff.1 hx
    cases c with
    | declaration v =>
      cases hdeclared
      exact h.covered node v hc
    | _ => cases hdeclared
  unfold Draft.resolve? at hid
  split at hid
  · rename_i hparameter
    cases hid
    exact Or.inl ⟨hparameter, rfl⟩
  · refine Or.inr ?_
    split at hid
    · rename_i hfind
      cases hid
      obtain ⟨b, hb, rfl⟩ := List.mem_map.1 (List.mem_of_find?_eq_some hfind)
      exact ⟨b, hb, rfl, hcontained b hb (List.find?_some hfind)⟩
    · obtain ⟨b, hfind, rfl⟩ := Option.map_eq_some_iff.1 hid
      have hb := List.mem_of_find?_eq_some hfind
      refine ⟨b, hb, rfl, hcontained b hb ?_⟩
      -- what the tree declares is in the table
      rw [← Bool.not_eq_false]
      intro hfree
      have hfound := List.find?_some hfind
      rw [d.declares_eq_false_of_covered hcovered b hfree] at hfound
      cases hfound

end Draft.Visible

/-- In every draft of a reading, what is declared is visible. -/
theorem visible_of_mem_drafts {tokens : List Lexeme} (hplain : Token.AllPlain tokens) {d : Draft}
    (hd : d ∈ drafts tokens) : d.Visible := by
  have hpasses := passes_unit tokens.length ⟨Draft.start tokens, []⟩
    (fun _ hmem => absurd hmem List.not_mem_nil) ⟨rfl, rfl, rfl, rfl, hplain⟩
  unfold drafts history at hd
  split at hd
  · rename_i hrun
    obtain ⟨hpast, hnow⟩ := hpasses.run_ok hrun
    rcases List.mem_cons.1 hd with rfl | hd
    · exact hnow
    · exact hpast d hd
  · rename_i hrun
    obtain ⟨hpast, hstops⟩ := hpasses.run_error hrun
    rcases List.mem_cons.1 hd with rfl | hd
    · exact hstops.visible
    · exact hpast d hd

/-- A variable is only refused where the innermost block declares it, or repeats. -/
theorem declares_of_redeclared {tokens : List Lexeme} (hplain : Token.AllPlain tokens)
    {e : ParseError} {d : Draft}
    (hrun : (unit tokens.length).run (Draft.start tokens) = .error e d) {name : String}
    (hname : e.fault = .variableAlreadyDeclared name) :
    ∃ b outer, d.blocks = b :: outer ∧ (d.Repeats b ∨ d.Declares b name) := by
  have hpasses := passes_unit tokens.length ⟨Draft.start tokens, []⟩
    (fun _ hmem => absurd hmem List.not_mem_nil) ⟨rfl, rfl, rfl, rfl, hplain⟩
  have hforget := forget_history tokens
  rw [hrun] at hforget
  unfold history at hforget
  cases hhistory : (Traced.unit tokens.length).run ⟨Draft.start tokens, []⟩ with
  | ok root h =>
    rw [hhistory] at hforget
    cases hforget
  | error e' h =>
    rw [hhistory] at hforget
    cases hforget
    obtain ⟨-, hstops⟩ := hpasses.run_error hhistory
    obtain ⟨hsegment, b, outer, hblocks, hcontained⟩ :=
      hstops.redeclared name (by rw [hname]; rfl)
    refine ⟨b, outer, hblocks, or_iff_not_imp_left.2 fun hrepeats => ?_⟩
    have hmem : b ∈ h.now.blocks := hblocks ▸ List.mem_cons_self
    exact (hstops.visible.table b hmem hrepeats name hsegment).1 hcontained

/-- Whatever the text is, and whether it is accepted or not: the drafts that its reading comes by
lead to where the reading ends, and in all of them, for every open block that does not repeat, the
table holds just the ids in its scope that the block declares.  So a variable is only refused if its
own block declares it already, and no name is resolved to a declaration of a block that is
closed. -/
theorem visible_of_scan {source : String} {tokens : List Lexeme}
    (h : Token.scan source = .ok tokens) :
    forget (history tokens) = (unit tokens.length).run (Draft.start tokens) ∧
    (∀ d, ComesBy tokens d → ∀ b ∈ d.blocks, ¬ d.Repeats b → ∀ name, Name.IsSegment name →
      (d.declared.contains (Name.qualify b.scope name) = true ↔ d.Declares b name)) ∧
    (∀ e d, (unit tokens.length).run (Draft.start tokens) = .error e d →
      ∀ name, e.fault = .variableAlreadyDeclared name →
        ∃ b outer, d.blocks = b :: outer ∧ (d.Repeats b ∨ d.Declares b name)) ∧
    (∀ d, ComesBy tokens d → ∀ name id, Name.IsSegment name → d.resolve? name = some id →
      d.isParameter name = true ∧ id = name ∨
        ∃ b ∈ d.blocks, id = Name.qualify b.scope name ∧ (d.Repeats b ∨ d.Declares b name)) := by
  have hplain := Token.scan_plain h
  have hvisible : ∀ d, ComesBy tokens d → d.Visible := by
    rintro d ⟨d₀, hmem, hskips⟩
    exact (visible_of_mem_drafts hplain hmem).skips hskips
  refine ⟨forget_history tokens, fun d hd => (hvisible d hd).table, fun e d hrun name hname => ?_,
    fun d hd name id hname hid => (hvisible d hd).resolve? hname hid⟩
  exact declares_of_redeclared hplain hrun hname

/-- A block that declares a name twice, behind a block inside it that declares it too. -/
def redeclaredText : String :=
  "module m; variable integer x; beginning while true repeat variable integer x; end while; " ++
    "variable integer x; variable integer x; end m."

/-- A name that is declared twice in a block: the refusal tells the truth. -/
theorem redeclaredText_visible : ∃ tokens e d, Token.scan redeclaredText = .ok tokens ∧
    (unit tokens.length).run (Draft.start tokens) = .error e d ∧
    e.fault = .variableAlreadyDeclared "x" ∧ ∃ b outer, d.blocks = b :: outer ∧
      d.Declares b "x" := by
  have hcheck : (match Token.scan redeclaredText with
      | .ok tokens => match (unit tokens.length).run (Draft.start tokens) with
        | .error e d => e.fault.redeclared? == some "x" && d.routines.entries.isEmpty
        | .ok _ _ => false
      | .error _ => false) = true := by decide +kernel
  cases hscan : Token.scan redeclaredText with
  | error e => simp [hscan] at hcheck
  | ok tokens =>
    cases hrun : (unit tokens.length).run (Draft.start tokens) with
    | ok root d => simp [hscan, hrun] at hcheck
    | error e d =>
      simp only [hscan, hrun, Bool.and_eq_true, beq_iff_eq, List.isEmpty_iff] at hcheck
      obtain ⟨hfault, hroutines⟩ := hcheck
      have hname : e.fault = .variableAlreadyDeclared "x" := by
        cases hf : e.fault with
        | variableAlreadyDeclared name =>
          rw [hf] at hfault
          exact congrArg _ (Option.some.inj hfault)
        | _ =>
          rw [hf] at hfault
          cases hfault
      obtain ⟨b, outer, hblocks, hdeclares⟩ := (visible_of_scan hscan).2.2.1 e d hrun "x" hname
      refine ⟨tokens, e, d, rfl, hrun, hname, b, outer, hblocks, hdeclares.resolve_left ?_⟩
      -- no routine is registered, so no block repeats
      rintro ⟨heading, -, htaken⟩
      rw [Table.contains, Table.get?, hroutines] at htaken
      cases htaken

/-- A routine whose name is taken is read as if its body went on from the body of the other. -/
example : (match Program.ofSource ("module m; procedure public f() variable integer x; end f; " ++
      "procedure public f() variable integer x; end f; beginning end m.") with
    | .ok _ => ""
    | .error e => e.message)
      = "Error on line 1: Variable 'x' is already declared in this block." := by
  decide +kernel

end Primer.Grammar
