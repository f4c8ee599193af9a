import Primer.Proofs.History.Visibility

/-!
# Primer.Proofs.History.Resolution — the short search for a name finds what the whole one finds.

What a name stands for is specified as a search through the open blocks from the innermost outwards:
in each of them among its statements so far, in the tree under the root, and in the table of
variables, before the next block is looked at.  The reader looks the table up for all blocks first
and at the trees only afterwards.  Both find the same, because a declaration is never in a tree that
is not in the table: `Draft.Tabled` says so of every node there is, placed or not, and `Tables`
follows it through every reader, for any tokens and whether they are accepted or not.

`Draft.search?` is written after the specification: a recursion over the open blocks, with the three
places of each block in their order, and the search for parameters first.  It shares no part with
`Draft.resolve?` but the primitives that look at a block, the tree or the table.  That a draft is
tabled is kept by every step for a simple reason: the reader of a declaration makes its entry before
it makes its node.

Main statement: `resolve_eq_search`.
-/

namespace Primer.Grammar

variable {α β : Type}

/-! ## The search as specified -/

namespace Draft

/-- What a node declares. -/
def declaredAt? (d : Draft) (node : NodeId) : Option String :=
  (d.tree.construct? node).bind Construct.declared?

/-- The first phase: the innermost block that is the body of a routine with this parameter. -/
def searchParameter? (d : Draft) (name : String) : Option String :=
  d.blocks.findSome? fun block =>
    ((d.heading? block).bind (·.parameter? name)).map (·.name)

/-- A statement that the block has so far declares the id. -/
def inProgress (d : Draft) (block : OpenBlock) (id : String) : Bool :=
  block.statements.any fun node => d.declaredAt? node == some id

/-- A node under the root declares the id. -/
def underRoot (d : Draft) (id : String) : Bool :=
  d.tree.reachable.any fun node => d.declaredAt? node == some id

/-- The second phase: the innermost block under whose scope the name is declared, be it by its
statements, in the tree or in the table. -/
def searchDeclaration? (d : Draft) (name : String) : Option String :=
  d.blocks.findSome? fun block =>
    let id := Name.qualify block.scope name
    if d.inProgress block id || d.underRoot id || d.declared.contains id then some id else none

/-- What a name stands for. -/
def search? (d : Draft) (name : String) : Option String :=
  (d.searchParameter? name).or (d.searchDeclaration? name)

/-- A block declares a name among its statements, or under the root. -/
theorem declares_eq (d : Draft) (block : OpenBlock) (id : String) :
    d.declares block id = (d.inProgress block id || d.underRoot id) := by
  have hnode : ∀ node, (((d.tree.construct? node).map fun c => c.declared? == some id).getD false)
      = (d.declaredAt? node == some id) := by
    intro node
    unfold declaredAt?
    cases d.tree.construct? node <;> rfl
  have htree : d.tree.declares id = d.underRoot id := by
    unfold Tree.declares Tree.find? underRoot
    rw [List.isSome_find?]
    simp only [hnode]
  rw [declares, htree]
  rfl

/-- Every declaration of the tree is in the table, whether its node is placed or not. -/
def Tabled (d : Draft) : Prop :=
  ∀ node id, d.declaredAt? node = some id → d.declared.contains id = true

/-- What a tree declares is in the table. -/
theorem Tabled.of_declares {d : Draft} (h : d.Tabled) {block : OpenBlock} {id : String}
    (hid : d.declares block id = true) : d.declared.contains id = true := by
  rw [← Bool.not_eq_false]
  intro hfree
  rw [d.declares_eq_false_of_covered h block hfree] at hid
  cases hid

/-- A parameter is found by its name, and answered by it. -/
theorem searchParameter?_eq (d : Draft) (name : String) :
    d.searchParameter? name = if d.isParameter name then some name else none := by
  have hat : ∀ block, ((d.heading? block).bind (·.parameter? name)).map (·.name)
      = if ((d.heading? block).bind (·.parameter? name)).isSome then some name else none := by
    intro block
    cases hparameter : (d.heading? block).bind (·.parameter? name) with
    | none => rfl
    | some parameter =>
      obtain ⟨heading, -, hfind⟩ := Option.bind_eq_some_iff.1 hparameter
      have hname : parameter.name = name := by simpa using List.find?_some hfind
      exact congrArg some hname
  unfold searchParameter? isParameter
  simp only [hat]
  induction d.blocks with
  | nil => rfl
  | cons block outer ih =>
    rw [List.findSome?_cons, List.any_cons, ih]
    cases ((d.heading? block).bind (·.parameter? name)).isSome <;> rfl

/-- Where every declaration is in the table, the search needs the table only. -/
theorem Tabled.searchDeclaration?_eq {d : Draft} (h : d.Tabled) (name : String) :
    d.searchDeclaration? name = (d.candidates name).find? d.declared.contains := by
  have hblock : ∀ block id, (d.inProgress block id || d.underRoot id || d.declared.contains id)
      = d.declared.contains id := by
    intro block id
    rw [← declares_eq, Bool.or_eq_right_iff_imp]
    exact h.of_declares
  unfold searchDeclaration? candidates
  simp only [hblock]
  induction d.blocks with
  | nil => rfl
  | cons block outer ih =>
    rw [List.findSome?_cons, List.map_cons, List.find?_cons, ih]
    cases d.declared.contains (Name.qualify block.scope name) <;> rfl

theorem Tabled.resolve?_eq {d : Draft} (h : d.Tabled) (name : String) :
    d.resolve? name = d.search? name := by
  rw [search?, searchParameter?_eq, h.searchDeclaration?_eq]
  unfold resolve?
  split
  · rfl
  · rw [Option.none_or]
    split
    · rename_i hfind
      exact hfind.symm
    · rename_i hmissed
      rw [hmissed, Option.map_eq_none_iff, List.find?_eq_none]
      -- the table misses the candidates of all blocks, so no tree declares one of them
      intro block hblock hdeclares
      have hcandidate : Name.qualify block.scope name ∈ d.candidates name :=
        List.mem_map_of_mem hblock
      exact List.find?_eq_none.1 hmissed _ hcandidate (h.of_declares hdeclares)

/-! ## What keeps declarations in the table -/

namespace Tabled

variable {d d' : Draft}

/-- In front of a text nothing is declared. -/
theorem start (tokens : List Lexeme) : (Draft.start tokens).Tabled := by
  intro node id hid
  cases hid

/-- The trees declare the same, and the table has at least what it had. -/
theorem of_same (h : d.Tabled) (hsame : Tree.Same Construct.declared? d.tree d'.tree)
    (htable : ∀ id, d.declared.contains id = true → d'.declared.contains id = true) :
    d'.Tabled := by
  intro node id hid
  refine htable id (h node id ?_)
  have hnode := hsame node
  unfold declaredAt? at hid ⊢
  cases hc : d.tree.construct? node <;> cases hc' : d'.tree.construct? node <;> simp_all

theorem skips (h : d.Tabled) (hs : d.Skips d') : d'.Tabled := by
  refine h.of_same (hs.tree ▸ .refl _ _) fun id hid => ?_
  rwa [hs.rest]

theorem registered (h : d.Tabled) (v : Variable) : (d.registered v).Tabled := by
  refine h.of_same (.refl _ _) fun id hid => ?_
  refine (Table.contains_insert _ _ _ _).trans ?_
  rw [hid, Bool.or_true]

/-- A node is made, and what it declares is registered before. -/
theorem allocated (h : d.Tabled) {c : Construct}
    (hc : ∀ id, c.declared? = some id → d.declared.contains id = true) (line : Nat) :
    (d.allocated c line).Tabled := by
  intro node id hid
  obtain ⟨c', hc', hdeclared⟩ := Option.bind_eq_some_iff.1 hid
  change (d.tree.allocate c line).2.construct? node = some c' at hc'
  rcases Nat.lt_trichotomy node d.tree.size with hnode | rfl | hnode
  · refine h node id (Option.bind_eq_some_iff.2 ⟨c', ?_, hdeclared⟩)
    rwa [Tree.construct?, Tree.node?_allocate_of_lt d.tree c line hnode] at hc'
  · rw [Tree.construct?_allocate] at hc'
    cases hc'
    exact hc id hdeclared
  · rw [Tree.construct?_of_size_le
      (by rw [Tree.size_allocate]; exact Nat.succ_le_of_lt hnode)] at hc'
    cases hc'

end Tabled

end Draft

/-! ## Readers -/

/-- Every draft so far has its declarations in its table. -/
def History.Tabled (h : History) : Prop := ∀ d ∈ h.drafts, d.Tabled

/-- Where every draft so far has its declarations in its table, so has every draft of the reader,
also if it refuses. -/
def Tables (x : Traced α) : Prop :=
  ∀ h : History, h.Tabled → Ends x h (fun _ h' => h'.Tabled) fun _ h' => h'.Tabled

namespace Tables

variable {x : Traced α} {f : α → Traced β} {y : Parse α}

theorem pure (a : α) : Tables (Pure.pure a) := fun _ h => h

theorem bind (hx : Tables x) (hf : ∀ a, Tables (f a)) : Tables (x >>= f) :=
  fun h htabled => (hx h htabled).bind fun a h' => hf a h'

/-- A step that keeps drafts tabled, answered or refused. -/
theorem step (hy : ∀ d : Draft, d.Tabled → Ends y d (fun _ d' => d'.Tabled) fun _ d' => d'.Tabled) :
    Tables (step y) := by
  intro h htabled
  have hnext : ∀ d : Draft, d.Tabled → History.Tabled ⟨d, h.drafts⟩ := fun d hd =>
    List.forall_mem_cons.2 ⟨hd, htabled⟩
  exact Ends.step ((hy h.now (htabled _ List.mem_cons_self)).imp (fun _ d => hnext d)
    fun _ d => hnext d)

theorem quiet (hy : Quiet y) : Tables (Grammar.step y) :=
  step fun d h => (hy d).imp (fun _ _ hs => h.skips hs) fun _ _ hrefuses => h.skips hrefuses.1

/-- A reader of a statement that declares nothing. -/
theorem makes {y : Parse NodeId} (hy : Makes y) : Tables (Grammar.step y) := by
  refine step fun d h => (hy d).imp ?_ fun _ _ hrefuses => h.skips hrefuses.1
  rintro node d' ⟨d₁, c, line, hs, hc, -, rfl⟩
  refine (h.skips hs).allocated (fun id hid => ?_) line
  cases c <;> first | cases hid; done | exact hc.elim

/-- The variable is registered before its node is made. -/
theorem declaration (bound : Nat) : Tables (Grammar.step (declaration bound)) := by
  refine step fun d h => (declaration_ends bound d).imp ?_ fun _ _ hrefuses => h.skips hrefuses.1
  rintro node d' ⟨d₁, v, line, hs, -, -, -, rfl⟩
  refine ((h.skips hs).registered v.fresh).allocated (fun id hid => ?_) line
  cases hid
  refine (Table.contains_insert _ _ _ _).trans ?_
  rw [show v.fresh.id = v.id from rfl, beq_self_eq_true, Bool.true_or]

theorem allocate {c : Construct} (hc : c.declared? = none) (line : Nat) :
    Tables (Grammar.step (allocate c line)) := by
  refine step fun d h => h.allocated (fun id hid => ?_) line
  rw [hc] at hid
  cases hid

/-- A step that changes neither what the tree declares nor the table. -/
theorem steady (hy : ∀ d, Ends y d
    (fun _ d' => Tree.Same Construct.declared? d.tree d'.tree ∧ d'.declared = d.declared)
    fun _ d' => d' = d) : Tables (Grammar.step y) := by
  refine step fun d h => (hy d).imp ?_ ?_
  · rintro a d' ⟨hsame, htable⟩
    exact h.of_same hsame fun id hid => htable ▸ hid
  · rintro e d' rfl
    exact h

theorem blockScope (label : String) : Tables (Grammar.step (blockScope label)) :=
  steady fun d => ⟨.refl _ d.tree, rfl⟩

theorem attach (node : NodeId) : Tables (Grammar.step (attach node)) :=
  steady fun d => ⟨d.same_attached _ node, d.declared_attached node⟩

/-- A node that is placed declares what it declared. -/
theorem place {f : Tree → Except TreeFault Tree}
    (hf : ∀ t t', f t = .ok t' → Tree.Same Construct.declared? t t') (line : Nat) :
    Tables (Grammar.step (place f line)) := by
  refine steady fun d => Ends.get ?_
  cases hrun : f d.tree with
  | error cause => exact rfl
  | ok tree => exact ⟨hf _ _ hrun, rfl⟩

theorem define (routine : Routine) (line : Nat) : Tables (Grammar.step (define routine line)) := by
  refine steady fun d => Ends.get ?_
  cases d.routines.define routine with
  | error fault => exact rfl
  | ok routines => exact ⟨.refl _ _, rfl⟩

theorem inBlock {body : Traced Unit} (hbody : Tables body) (node : NodeId) (scope : String) :
    Tables (Traced.inBlock node scope body) := by
  have hopen : Tables (Grammar.step (openBlock node scope)) :=
    steady fun d => ⟨.refl _ d.tree, rfl⟩
  have hclose : Tables (Grammar.step closeBlock) := steady fun d => ⟨.refl _ d.tree, rfl⟩
  exact hopen.bind fun _ => hbody.bind fun _ => hclose

end Tables

section

variable {body : Traced.Body} (hbody : ∀ keywords, Tables (body keywords))
include hbody

/-- The readers of statements with bodies, each from the reader of a body. -/
theorem tables_loop (bound : Nat) : Tables (Traced.loop body bound) :=
  (Tables.quiet (.expect _)).bind fun line => (Tables.quiet (.expression bound)).bind fun _ =>
    (Tables.quiet (.expect _)).bind fun _ => (Tables.blockScope _).bind fun scope =>
      (Tables.allocate rfl line).bind fun node => ((hbody _).inBlock node scope).bind fun _ =>
        (Tables.quiet (.blockEnd _)).bind fun _ => .pure node

theorem tables_elseIfs (bound : Nat) (conditional : NodeId) :
    ∀ more, Tables (Traced.elseIfs body bound conditional more) := by
  intro more
  induction more with
  | zero => exact .pure _
  | succ more ih =>
    refine (Tables.quiet .peek).bind fun next => ?_
    split
    · exact (Tables.quiet (.expect _)).bind fun line =>
        (Tables.quiet (.expression bound)).bind fun _ => (Tables.quiet (.expect _)).bind fun _ =>
          (Tables.blockScope _).bind fun scope => (Tables.allocate rfl line).bind fun branch =>
            (Tables.place (fun _ _ h => .attachBranch h fun _ _ _ _ _ _ => rfl) line).bind fun _ =>
              ((hbody _).inBlock branch scope).bind fun _ => ih
    · exact .pure _

theorem tables_otherwise (conditional : NodeId) : Tables (Traced.otherwise body conditional) := by
  refine (Tables.quiet .peek).bind fun next => ?_
  split
  · exact (Tables.quiet (.expect _)).bind fun line => (Tables.blockScope _).bind fun scope =>
      (Tables.allocate rfl line).bind fun branch =>
        (Tables.place (fun _ _ h => .attachBranch h fun _ _ _ _ _ _ => rfl) line).bind fun _ =>
          (hbody _).inBlock branch scope
  · exact .pure _

theorem tables_conditional (bound : Nat) : Tables (Traced.conditional body bound) :=
  (Tables.quiet (.expect _)).bind fun line => (Tables.quiet (.expression bound)).bind fun _ =>
    (Tables.quiet (.expect _)).bind fun _ => (Tables.blockScope _).bind fun scope =>
      (Tables.allocate rfl line).bind fun node => ((hbody _).inBlock node scope).bind fun _ =>
        (tables_elseIfs hbody bound node bound).bind fun _ =>
          (tables_otherwise hbody node).bind fun _ => (Tables.quiet (.blockEnd _)).bind fun _ =>
            .pure node

theorem tables_routine (bound : Nat) : Tables (Traced.routine body bound) := by
  have hheading : Tables (step (routineHeading bound)) :=
    .step fun d h => (routineHeading_ends bound d).imp (fun _ _ hs => h.skips hs.1)
      fun _ _ hrefuses => h.skips hrefuses.1
  refine hheading.bind fun found => ?_
  exact (Tables.allocate rfl _).bind fun node => ((hbody _).inBlock node _).bind fun _ =>
    (Tables.quiet (.namedEnd _)).bind fun _ => (Tables.quiet (.expect _)).bind fun _ =>
      (Tables.define _ _).bind fun _ => Tables.attach node

theorem tables_item (bound : Nat) (next : Token) : Tables (Traced.item body bound next) := by
  have hattach : ∀ {x : Traced NodeId}, Tables x → Tables (do step (Grammar.attach (← x))) :=
    fun hx => hx.bind fun _ => Tables.attach _
  have hunexpected : Quiet (item.unexpected next) := Quiet.peekLine.bind fun _ => .refuse rfl _
  cases next with
  | word k =>
    cases k with
    | function | procedure => exact tables_routine hbody bound
    | «if» => exact hattach (tables_conditional hbody bound)
    | «while» => exact hattach (tables_loop hbody bound)
    | «variable» => exact hattach (Tables.declaration bound)
    | «let» => exact hattach (Tables.makes (.assignment bound))
    | call => exact hattach (Tables.makes (.callStatement bound))
    | input => exact hattach (Tables.makes (.inputStatement bound))
    | output => exact hattach (Tables.makes (.outputStatement bound))
    | «return» => exact hattach (Tables.makes (.returnStatement bound))
    | _ => exact Tables.quiet hunexpected
  | _ => exact Tables.quiet hunexpected

end

theorem tables_block : ∀ bound keywords, Tables (Traced.block bound keywords) := by
  intro bound
  induction bound with
  | zero => exact fun _ => .quiet .endOfText
  | succ bound ih =>
    intro keywords
    refine (Tables.quiet .peek).bind fun next => ?_
    cases next with
    | none => exact .quiet .endOfText
    | some next =>
      dsimp only
      split
      · exact .pure _
      · exact (tables_item ih bound next).bind fun _ => ih keywords

theorem tables_unitItems : ∀ bound, Tables (Traced.unitItems bound) := by
  have hnoItem (next : Token) : Quiet (noItem next) := Quiet.peekLine.bind fun _ => .refuse rfl _
  intro bound
  induction bound with
  | zero => exact .quiet .endOfText
  | succ bound ih =>
    have hroutine := (tables_routine (tables_block bound) bound).bind fun _ => ih
    refine (Tables.quiet .peek).bind fun next => ?_
    cases next with
    | none => exact .quiet .endOfText
    | some next =>
      cases next with
      | word k =>
        cases k with
        | beginning => exact .pure _
        | «variable» =>
          exact (Tables.declaration bound).bind fun node => (Tables.attach node).bind fun _ => ih
        | function | procedure => exact hroutine
        | _ => exact .quiet (hnoItem _)
      | _ => exact .quiet (hnoItem _)

theorem tables_unit (bound : Nat) : Tables (Traced.unit bound) := by
  have hentry (name : String) : Tables (Traced.entryBlock bound name) :=
    (Tables.quiet (.expect _)).bind fun line => (Tables.allocate rfl line).bind fun node =>
      (Tables.place (fun _ _ h => .setEntry h fun _ _ _ _ => rfl) line).bind fun _ =>
        (tables_block bound _).inBlock node _
  have hinside (name : String) : Tables (do
        Traced.unitItems bound
        Traced.entryBlock bound name
        step (namedEnd name)
        let _ ← step (expect (.mark .dot))) :=
    (tables_unitItems bound).bind fun _ => (hentry name).bind fun _ =>
      (Tables.quiet (.namedEnd _)).bind fun _ => (Tables.quiet (.expect _)).bind fun _ => .pure _
  have hroot : ∀ {root : NodeId} (t t' : Tree), t.setRoot root = .ok t' →
      Tree.Same Construct.declared? t t' := by
    intro root t t' h
    rw [Tree.setRoot_ok h]
    exact .refl _ _
  refine (Tables.quiet (.expect _)).bind fun line => (Tables.quiet .identifier).bind fun name =>
    (Tables.quiet (.expect _)).bind fun _ => (Tables.allocate rfl line).bind fun root =>
      (Tables.place hroot line).bind fun _ => ((hinside name).inBlock root name).bind fun _ =>
        .quiet (Quiet.get.bind fun d => ?_)
  split
  · exact .pure _
  · exact .refuse rfl _

/-! ## All drafts of a reading -/

/-- A reader of these tokens is at this draft: reading comes by it, or by the one before a variable
was registered whose node is still to be made. -/
def StandsAt (tokens : List Lexeme) (d : Draft) : Prop :=
  ComesBy tokens d ∨ ∃ d₀ v, ComesBy tokens d₀ ∧ d = d₀.registered v

/-- Every draft of a reading is tabled, whatever becomes of the text. -/
theorem tabled_of_mem_drafts {tokens : List Lexeme} {d : Draft} (hd : d ∈ drafts tokens) :
    d.Tabled := by
  have hstart : History.Tabled ⟨Draft.start tokens, []⟩ :=
    List.forall_mem_singleton.2 (.start tokens)
  have htables := tables_unit tokens.length _ hstart
  unfold drafts history at hd
  split at hd
  · rename_i hrun
    exact htables.run_ok hrun d hd
  · rename_i hrun
    exact htables.run_error hrun d hd

theorem StandsAt.tabled {tokens : List Lexeme} {d : Draft} (h : StandsAt tokens d) : d.Tabled := by
  have hcomes : ∀ d, ComesBy tokens d → d.Tabled := by
    rintro d ⟨d₀, hmem, hskips⟩
    exact (tabled_of_mem_drafts hmem).skips hskips
  rcases h with h | ⟨d₀, v, h, rfl⟩
  · exact hcomes d h
  · exact (hcomes d₀ h).registered v

/-- Whatever the tokens are, and whether they are accepted or not: wherever their reader is, a name
is resolved as the specified search says, and what that finds in a tree is in the table too. -/
theorem resolve_eq_search (tokens : List Lexeme) :
    forget (history tokens) = (unit tokens.length).run (Draft.start tokens) ∧
    ∀ d, StandsAt tokens d →
      (∀ name line, (resolve name line).run d = match d.search? name with
        | some id => .ok id d
        | none => .error ⟨.unknownIdentifier name, line⟩ d) ∧
      ∀ name, (∀ block ∈ d.blocks, d.declared.contains (Name.qualify block.scope name) = false) →
        ∀ block ∈ d.blocks, d.inProgress block (Name.qualify block.scope name) = false ∧
          d.underRoot (Name.qualify block.scope name) = false := by
  refine ⟨forget_history tokens, fun d hd => ⟨fun name line => ?_, fun name hmissed block hb => ?_⟩⟩
  · rw [← hd.tabled.resolve?_eq]
    show (resolve name line) d = _
    unfold resolve
    show (match d.resolve? name with
      | some id => (Pure.pure id : Parse String)
      | none => refuse (.unknownIdentifier name) line) d = _
    cases d.resolve? name <;> rfl
  · rw [← Bool.or_eq_false_iff, ← Draft.declares_eq]
    exact d.declares_eq_false_of_covered hd.tabled block (hmissed block hb)

/-- A name that is not declared, three blocks deep. -/
def undeclaredText : String :=
  "module m; variable integer x; beginning variable integer z; while true repeat let x := y;"

/-- Names of two blocks, and one that is declared nowhere, in a text that is refused. -/
theorem undeclaredText_search : ∃ tokens d, Token.scan undeclaredText = .ok tokens ∧
    StandsAt tokens d ∧ d.blocks.length = 3 ∧ (resolve "x" 1).run d = .ok "m^x" d ∧
    (resolve "z" 1).run d = .ok "m^beginning^z" d ∧
    (resolve "y" 1).run d = .error ⟨.unknownIdentifier "y", 1⟩ d := by
  have hcheck : (match Token.scan undeclaredText with
      | .ok tokens => match history tokens with
        | .error _ h => h.now.blocks.length == 3 && h.now.search? "x" == some "m^x" &&
          h.now.search? "z" == some "m^beginning^z" && h.now.search? "y" == none
        | .ok _ _ => false
      | .error _ => false) = true := by decide +kernel
  cases hscan : Token.scan undeclaredText with
  | error e => simp [hscan] at hcheck
  | ok tokens =>
    cases hhistory : history tokens with
    | ok root h => simp [hscan, hhistory] at hcheck
    | error e h =>
      simp only [hscan, hhistory, Bool.and_eq_true, beq_iff_eq] at hcheck
      obtain ⟨⟨⟨hlength, hx⟩, hz⟩, hy⟩ := hcheck
      have hmem : h.now ∈ drafts tokens := by
        rw [drafts, hhistory]
        exact List.mem_cons_self
      have hstands : StandsAt tokens h.now := Or.inl ⟨h.now, hmem, .refl _⟩
      have hresolve := ((resolve_eq_search tokens).2 h.now hstands).1
      refine ⟨tokens, h.now, rfl, hstands, hlength, ?_, ?_, ?_⟩
      · rw [hresolve, hx]
      · rw [hresolve, hz]
      · rw [hresolve, hy]

end Primer.Grammar
