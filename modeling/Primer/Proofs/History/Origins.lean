import Primer.Proofs.History.Visibility

/-!
# Primer.Proofs.History.Origins — every expression of a tree was read where reading came by.

An expression gets into the tree in a construct, and the construct is made behind the draft at which
the expression was read.  `Collects` follows the readers of the parts of a statement and `Places`
the readers of whole statements, each by the expressions that were read so far.  `Keeps` follows the
traced readers: it says that the tree of a history still has no expression but those that were read
at drafts of the history.

The statement is about every expression that stands anywhere in a construct, whole as the construct
has it.  A construct that is changed later, when branches are attached to a conditional, has the
same expressions as before; so only the nodes that are made matter.  Between the draft at which an
expression is read and the draft at which its node is made only tokens are taken, which is why the
draft that is remembered is one of the history.

Main statement: `comesBy_of_contains`.
-/

namespace Primer

/-! ## The expressions of a construct -/

/-- The expression that is passed by value. -/
def Argument.expressions : Argument → List Expr
  | .value e => [e]
  | .reference .. => []

/-- The expression that an initial value is computed from. -/
def Initializer.expressions : Initializer → List Expr
  | .computed e => [e]
  | .fixed _ => []

/-- The expressions that stand in a construct, as wholes. -/
def Construct.expressions : Construct → List Expr
  | unit .. | entry _ | routine _ | otherwise _ => []
  | declaration d => d.initializer.expressions
  | assignment _ indices value => indices ++ [value]
  | loop _ condition | conditional _ condition .. | elseIf _ condition => [condition]
  | call _ arguments => arguments.flatMap Argument.expressions
  | input _ indices => indices
  | output value => [value]
  | result value => value.toList

namespace Tree

/-- The expression stands in a construct of the tree. -/
def Contains (t : Tree) (e : Expr) : Prop :=
  ∃ id c, t.construct? id = some c ∧ e ∈ c.expressions

/-- Two trees with the same constructs have the same expressions. -/
theorem Contains.of_same {t t' : Tree} (h : Same Construct.expressions t t') {e : Expr}
    (he : t'.Contains e) : t.Contains e := by
  obtain ⟨id, c', hc', hmem⟩ := he
  have hid := h id
  rw [hc'] at hid
  obtain ⟨c, hc, heq⟩ := Option.map_eq_some_iff.1 hid.symm
  exact ⟨id, c, hc, heq ▸ hmem⟩

/-- A new node brings the expressions of its construct. -/
theorem Contains.of_allocate {t : Tree} {c : Construct} {line : Nat} {e : Expr}
    (he : (t.allocate c line).2.Contains e) : t.Contains e ∨ e ∈ c.expressions := by
  obtain ⟨id, c', hc', hmem⟩ := he
  rcases Nat.lt_trichotomy id t.size with hid | rfl | hid
  · refine Or.inl ⟨id, c', ?_, hmem⟩
    rwa [construct?, node?_allocate_of_lt t c line hid] at hc'
  · rw [construct?_allocate] at hc'
    cases hc'
    exact Or.inr hmem
  · rw [construct?_of_size_le (by rw [size_allocate]; exact Nat.succ_le_of_lt hid)] at hc'
    cases hc'

end Tree

namespace Grammar

variable {α β : Type}

/-! ## Readers of the parts of statements -/

/-- The reader of expressions answers this one from here. -/
def Draft.ReadsAs (d : Draft) (e : Expr) : Prop :=
  ∃ bound d', (expression bound).run d = .ok e d'

/-- The expression is read from here or further on, without anything but tokens in between. -/
def Draft.Meets (d : Draft) (e : Expr) : Prop := ∃ d', d.Skips d' ∧ d'.ReadsAs e

/-- Where these expressions have been met since some draft, the reader takes tokens, and those of
its answer have been met too. -/
def Collects (es : List Expr) (x : Parse α) (found : α → List Expr) : Prop :=
  ∀ d₀ d : Draft, d₀.Skips d → (∀ e ∈ es, d₀.Meets e) →
    Ends x d (fun a d' => d₀.Skips d' ∧ ∀ e ∈ found a, d₀.Meets e) fun _ _ => True

namespace Collects

variable {es : List Expr} {x : Parse α} {f : α → Parse β} {s : α → List Expr} {t : β → List Expr}

theorem pure {a : α} (h : ∀ e ∈ s a, e ∈ es) : Collects es (Pure.pure a) s :=
  fun _ _ hs hes => ⟨hs, fun e he => hes e (h e he)⟩

/-- Two readers in a row collect what both of them read. -/
theorem bind (hx : Collects es x s) (hf : ∀ a, Collects (s a ++ es) (f a) t) :
    Collects es (x >>= f) t :=
  fun d₀ d hs hes => (hx d₀ d hs hes).bind fun a d' ⟨hs', ha⟩ =>
    hf a d₀ d' hs' fun e he => (List.mem_append.1 he).elim (ha e) (hes e)

/-- A reader that answers no expression, in front of another one. -/
theorem after (hx : Quiet x) (hf : ∀ a, Collects es (f a) t) : Collects es (x >>= f) t :=
  fun d₀ d hs hes => ((hx d).imp (fun _ _ hs' => hs.trans hs') fun _ _ _ => trivial).bind
    fun a d' hs' => hf a d₀ d' hs' hes

theorem get {f : Draft → Parse β} (hf : ∀ d, Collects es (f d) t) :
    Collects es (MonadState.get >>= f) t := after .get hf

theorem refuse (fault : ParseFault) (line : Nat) : Collects es (Grammar.refuse fault line) s :=
  fun _ _ _ _ => trivial

theorem endOfText : Collects es (Grammar.endOfText : Parse α) s := get fun _ => refuse _ _

theorem map {g : α → β} (hg : ∀ a, ∀ e ∈ t (g a), e ∈ s a) (hx : Collects es x s) :
    Collects es (g <$> x) t := by
  rw [map_eq_pure_bind]
  exact hx.bind fun a => pure fun e he => List.mem_append_left _ (hg a e he)

/-- The expression that is read is the one that is collected. -/
theorem expression (bound : Nat) : Collects es (expression bound) ([·]) := by
  intro d₀ d hs _
  refine ((Quiet.expression bound d).andRun.imp ?_ fun _ _ _ => trivial)
  rintro e d' ⟨hs', hrun⟩
  exact ⟨hs.trans hs', List.forall_mem_singleton.2 ⟨d, hs, bound, d', hrun⟩⟩

theorem indices (bound : Nat) : ∀ more es, Collects es (indices (Grammar.expression bound) more) id
    := by
  intro more
  induction more with
  | zero => exact fun _ => pure fun _ h => by cases h
  | succ more ih =>
    intro es
    refine after (.eat _) fun found => ?_
    split
    · exact (expression bound).bind fun index => after (.expect _) fun _ =>
        (ih _).bind fun later => pure (by grind)
    · exact pure fun _ h => by cases h

theorem items {item : Nat → Parse α} (hitem : ∀ i es, Collects es (item i) s) (closing : Mark) :
    ∀ bound position es, Collects es (items item closing bound position) (·.flatMap s) := by
  intro bound
  induction bound with
  | zero => exact fun _ _ => endOfText
  | succ bound ih =>
    intro position es
    refine (hitem position es).bind fun first => after .advance fun l => ?_
    split
    · exact pure (by grind)
    · split
      · exact (ih (position + 1) _).bind fun more => pure (by grind)
      · exact refuse _ _

theorem commaSeparated {item : Nat → Parse α} (hitem : ∀ i es, Collects es (item i) s)
    (closing : Mark) (bound : Nat) :
    Collects es (commaSeparated item closing bound) (·.flatMap s) := by
  refine after (.eat _) fun done => ?_
  split
  · exact pure fun _ h => by cases h
  · exact items hitem closing bound 0 es

theorem referenceArgument (routine parameter : String) :
    Collects es (referenceArgument routine parameter) Argument.expressions := by
  refine after .peekLine fun line => get fun d => ?_
  split
  · split
    · refine after .advance fun _ => after (.resolve _ _) fun id => get fun d' => ?_
      split
      · exact refuse _ _
      · exact pure fun _ h => by cases h
    · exact refuse _ _
  · exact refuse _ _

theorem argument (bound : Nat) (heading : Heading) (position : Nat) :
    Collects es (argument (Grammar.expression bound) heading position) Argument.expressions := by
  unfold Grammar.argument
  split
  · exact referenceArgument _ _
  · exact (expression bound).bind fun e => pure (by simp [Argument.expressions])

theorem arguments (bound : Nat) (name : String) (line : Nat) :
    Collects es (arguments (Grammar.expression bound) bound name line)
      (·.flatMap Argument.expressions) := by
  refine after (.callable name line) fun heading => after (.expect _) fun _ =>
    (commaSeparated (fun i _ => argument bound heading i) _ bound).bind fun found => ?_
  dsimp only
  split
  · exact pure fun _ h => List.mem_append_left _ h
  · exact refuse _ _

theorem target (bound line : Nat) : Collects es (target bound line) (·.2) :=
  after .identifier fun _ => after (.resolveWritable _ _) fun _ =>
    (indices bound bound es).bind fun _ => pure fun _ h => List.mem_append_left _ h

theorem declarator (bound line : Nat) :
    Collects es (declarator bound line) fun found => found.2.2.expressions := by
  refine after (.eat _) fun array => ?_
  split
  · refine after (.dimensions bound bound) fun sizes => ?_
    have hrest : Collects es (do
        let _ ← Grammar.expect (.word .of)
        let element ← Grammar.scalarType
        let name ← Grammar.identifier
        let type := SlotType.array element sizes
        return (type, name, .fixed type.initial) : Parse (SlotType × String × Initializer))
        fun found => found.2.2.expressions :=
      after (.expect _) fun _ => after .scalarType fun _ => after .identifier fun _ =>
        pure fun _ h => by cases h
    dsimp only
    split
    · exact after .peek fun next => (refuse _ _ : Collects es _ fun _ => []).bind fun _ => hrest
    · exact hrest
  · refine after .scalarType fun type => after .identifier fun name =>
      after (.eat _) fun given => ?_
    split
    · exact (expression bound).bind fun e => pure (by simp [Initializer.expressions])
    · exact pure fun _ h => by cases h

end Collects

/-! ## Readers of statements -/

/-- Where these expressions have been met since some draft, the reader adds no others to the tree
than such as have been met since. -/
def Places (es : List Expr) (x : Parse α) : Prop :=
  ∀ d₀ d : Draft, d₀.Skips d → (∀ e ∈ es, d₀.Meets e) →
    Ends x d (fun _ d' => d'.tokens <:+ d₀.tokens ∧
      ∀ e, d'.tree.Contains e → d₀.tree.Contains e ∨ d₀.Meets e) fun _ _ => True

namespace Places

variable {es : List Expr} {x : Parse α} {f : α → Parse β} {s : α → List Expr}

/-- A statement that is made of what a reader has collected. -/
theorem behind (hx : Collects es x s) (hf : ∀ a, Places (s a ++ es) (f a)) : Places es (x >>= f) :=
  fun d₀ d hs hes => (hx d₀ d hs hes).bind fun a d' ⟨hs', ha⟩ =>
    hf a d₀ d' hs' fun e he => (List.mem_append.1 he).elim (ha e) (hes e)

theorem after (hx : Quiet x) (hf : ∀ a, Places es (f a)) : Places es (x >>= f) :=
  fun d₀ d hs hes => ((hx d).imp (fun _ _ hs' => hs.trans hs') fun _ _ _ => trivial).bind
    fun a d' hs' => hf a d₀ d' hs' hes

theorem refuse (fault : ParseFault) (line : Nat) :
    Places es (Grammar.refuse fault line : Parse α) := fun _ _ _ _ => trivial

theorem pureBind {a : α} (h : Places es (f a)) : Places es (Pure.pure a >>= f) := h

theorem refuseBind (fault : ParseFault) (line : Nat) :
    Places es (Grammar.refuse fault line >>= f) := fun _ _ _ _ => trivial

theorem allocate {c : Construct} (hc : ∀ e ∈ c.expressions, e ∈ es) (line : Nat) :
    Places es (allocate c line) := by
  refine fun d₀ d hs hes => ⟨hs.suffix, fun e he => ?_⟩
  rw [← hs.tree]
  exact (Tree.Contains.of_allocate he).imp_right fun he => hes e (hc e he)

/-- Each reader of a statement places what it has read, and nothing else. -/
theorem declaration (bound : Nat) : Places [] (declaration bound) := by
  refine after (.expect _) fun line => behind (.declarator bound line) fun ⟨type, name, initial⟩ =>
    after (.expect _) fun _ d₀ d hs hes => Ends.get ?_
  dsimp only
  split
  · trivial
  · -- registering the variable does not change the tree
    refine ⟨hs.suffix, fun e he => ?_⟩
    rw [← hs.tree]
    exact (Tree.Contains.of_allocate he).imp_right fun he => hes e (List.mem_append_left _ he)

theorem assignment (bound : Nat) : Places [] (assignment bound) := by
  refine after (.expect _) fun line => behind (.target bound line) fun found =>
    after (.expect _) fun _ => behind (.expression bound) fun value => after (.expect _) fun _ => ?_
  exact allocate (by grind [Construct.expressions]) line

theorem callStatement (bound : Nat) : Places [] (callStatement bound) := by
  refine after (.expect _) fun line => after .identifier fun name =>
    behind (.arguments bound name line) fun found => after (.expect _) fun _ => ?_
  exact allocate (by grind [Construct.expressions]) line

theorem inputStatement (bound : Nat) : Places [] (inputStatement bound) := by
  refine after (.expect _) fun line => behind (.target bound line) fun found =>
    after (.expect _) fun _ => ?_
  exact allocate (by grind [Construct.expressions]) line

theorem outputStatement (bound : Nat) : Places [] (outputStatement bound) := by
  refine after (.expect _) fun line => behind (.expression bound) fun value =>
    after (.expect _) fun _ => ?_
  exact allocate (by grind [Construct.expressions]) line

theorem returnStatement (bound : Nat) : Places [] (returnStatement bound) := by
  refine after (.expect _) fun line => after .get fun d => ?_
  have hrest : ∀ value es, (∀ e ∈ value.toList, e ∈ es) → Places es (do
      let _ ← expect (.mark .semicolon)
      Grammar.allocate (.result value) line) := fun value es hvalue =>
    after (.expect _) fun _ => allocate (c := .result value) hvalue line
  split
  · exact refuse _ _
  · refine after .peek fun next => ?_
    dsimp only
    split
    · exact behind (.map (s := ([·])) (t := Option.toList) (by simp) (.expression bound))
        fun value => hrest value _ (by simp)
    · exact refuseBind _ _
    · exact pureBind (hrest none [] (by simp))
    · exact refuseBind _ _

end Places

/-! ## Traced readers -/

/-- The history has come by a draft from which, or behind tokens of which, the expression is
read. -/
def History.Met (h : History) (e : Expr) : Prop := ∃ d ∈ h.drafts, d.Meets e

/-- The tree has no expressions but those that the history has met. -/
def History.Kept (h : History) : Prop := ∀ e, h.now.tree.Contains e → h.Met e

/-- What holds of one history still holds of the other, and no draft of that has tokens which those
of the first have not. -/
structure History.Leads (h h' : History) : Prop where
  kept : h.Kept → h'.Kept
  met : ∀ e, h.Met e → h'.Met e
  tokens : ∀ d' ∈ h'.drafts, ∃ d ∈ h.drafts, d'.tokens <:+ d.tokens

namespace History.Leads

theorem refl (h : History) : h.Leads h := ⟨id, fun _ => id, fun d hd => ⟨d, hd, List.suffix_rfl⟩⟩

theorem trans {h h' h'' : History} (first : h.Leads h') (second : h'.Leads h'') :
    h.Leads h'' := by
  refine ⟨fun hkept => second.kept (first.kept hkept), fun e he => second.met e (first.met e he),
    fun d'' hd'' => ?_⟩
  obtain ⟨d', hd', hs'⟩ := second.tokens d'' hd''
  obtain ⟨d, hd, hs⟩ := first.tokens d' hd'
  exact ⟨d, hd, hs'.trans hs⟩

/-- The history goes on by a step, which adds no expressions to the tree that were not met. -/
theorem step {h : History} {d : Draft} (hs : d.tokens <:+ h.now.tokens)
    (hd : ∀ e, d.tree.Contains e → h.now.tree.Contains e ∨ h.Met e) : h.Leads ⟨d, h.drafts⟩ := by
  have hmet : ∀ e, h.Met e → History.Met ⟨d, h.drafts⟩ e := fun e ⟨d₀, hd₀, he⟩ =>
    ⟨d₀, List.mem_cons_of_mem _ hd₀, he⟩
  refine ⟨fun hkept e he => hmet e ((hd e he).elim (hkept e) id), hmet, fun d' hd' => ?_⟩
  rcases List.mem_cons.1 hd' with rfl | hd'
  · exact ⟨h.now, List.mem_cons_self, hs⟩
  · exact ⟨d', hd', List.suffix_rfl⟩

end History.Leads

/-- Where these expressions have been met, the tree keeps none but expressions that have been. -/
def Keeps (es : List Expr) (x : Traced α) : Prop :=
  ∀ h : History, (∀ e ∈ es, h.Met e) → Ends x h (fun _ h' => h.Leads h') fun _ _ => True

namespace Keeps

variable {es : List Expr} {x : Traced α} {f : α → Traced β} {y : Parse α}

theorem pure (a : α) : Keeps es (Pure.pure a) := fun h _ => .refl h

theorem bind (hx : Keeps es x) (hf : ∀ a, Keeps es (f a)) : Keeps es (x >>= f) :=
  fun h hes => (hx h hes).bind fun a h' hleads =>
    (hf a h' fun e he => hleads.met e (hes e he)).imp (fun _ _ hleads' => hleads.trans hleads')
      fun _ _ he => he

/-- What is kept without anything read is kept with more. -/
theorem anywhere (hx : Keeps [] x) : Keeps es x := fun h _ => hx h fun _ he => by cases he

/-- A step that does not change what the constructs of the tree say. -/
theorem steady (hy : ∀ d, Ends y d
    (fun _ d' => d'.tokens <:+ d.tokens ∧ Tree.Same Construct.expressions d.tree d'.tree)
    fun _ _ => True) : Keeps es (step y) :=
  fun h _ => Ends.step ((hy h.now).imp
    (fun _ _ hd => .step hd.1 fun _ he => Or.inl (he.of_same hd.2)) fun _ _ he => he)

theorem quiet (hy : Quiet y) : Keeps es (step y) :=
  steady fun d => (hy d).imp (fun _ _ hs => ⟨hs.suffix, hs.tree ▸ .refl _ _⟩) fun _ _ _ => trivial

theorem places (hy : Places [] y) : Keeps es (step y) :=
  fun h _ => Ends.step ((hy h.now h.now (.refl _) fun _ he => by cases he).imp
    (fun _ _ hd => .step hd.1 fun e he => (hd.2 e he).imp_right fun hmeets =>
      ⟨h.now, List.mem_cons_self, hmeets⟩) fun _ _ he => he)

theorem allocate {c : Construct} (hc : ∀ e ∈ c.expressions, e ∈ es) (line : Nat) :
    Keeps es (step (allocate c line)) :=
  fun _ hes => Ends.step (History.Leads.step List.suffix_rfl fun _ he =>
    (Tree.Contains.of_allocate he).imp_right fun hmem => hes _ (hc _ hmem))

/-- The condition of a construct is read before the construct is made. -/
theorem condition (bound : Nat) {f : Expr → Traced β} (hf : ∀ e, Keeps (e :: es) (f e)) :
    Keeps es (step (expression bound) >>= f) := by
  intro h hes
  refine Ends.bind (P := fun e h' => h.Leads h' ∧ h'.Met e) (Ends.step ?_) fun e h' hread => ?_
  · refine (Quiet.expression bound h.now).andRun.imp ?_ fun _ _ _ => trivial
    rintro e d ⟨hs, hrun⟩
    refine ⟨.step hs.suffix fun _ he => Or.inl (hs.tree ▸ he), h.now, ?_, h.now, .refl _, ?_⟩
    · exact List.mem_cons_of_mem _ List.mem_cons_self
    · exact ⟨bound, d, hrun⟩
  · obtain ⟨hleads, hmet⟩ := hread
    refine (hf e h' (List.forall_mem_cons.2 ⟨hmet, fun e he => hleads.met e (hes e he)⟩)).imp
      (fun _ _ hleads' => hleads.trans hleads') fun _ _ he => he

theorem blockScope (label : String) : Keeps es (step (blockScope label)) :=
  steady fun d => ⟨List.suffix_rfl, Tree.Same.refl _ d.tree⟩

theorem attach (node : NodeId) : Keeps es (step (attach node)) :=
  steady fun d => ⟨(d.tokens_attached node).symm ▸ List.suffix_rfl, d.same_attached _ node⟩

theorem place {f : Tree → Except TreeFault Tree}
    (hf : ∀ t t', f t = .ok t' → Tree.Same Construct.expressions t t') (line : Nat) :
    Keeps es (step (place f line)) := by
  refine steady fun d => Ends.get ?_
  cases hrun : f d.tree with
  | error cause => trivial
  | ok tree => exact ⟨List.suffix_rfl, hf _ _ hrun⟩

theorem define (routine : Routine) (line : Nat) : Keeps es (step (define routine line)) := by
  refine steady fun d => Ends.get ?_
  cases d.routines.define routine with
  | error fault => trivial
  | ok routines => exact ⟨List.suffix_rfl, .refl _ _⟩

theorem inBlock {body : Traced Unit} (hbody : Keeps es body) (node : NodeId) (scope : String) :
    Keeps es (Traced.inBlock node scope body) := by
  have hopen : Keeps es (step (openBlock node scope)) :=
    steady fun d => ⟨List.suffix_rfl, Tree.Same.refl _ d.tree⟩
  have hclose : Keeps es (step closeBlock) :=
    steady fun d => ⟨List.suffix_rfl, Tree.Same.refl _ d.tree⟩
  exact hopen.bind fun _ => hbody.bind fun _ => hclose

end Keeps

/-- The reader of a body keeps the expressions of the tree. -/
def KeepsBody (body : Traced.Body) : Prop := ∀ keywords, Keeps [] (body keywords)

section

variable {body : Traced.Body} (hbody : KeepsBody body)
include hbody

theorem keeps_inside {es : List Expr} (node : NodeId) (scope : String) (keywords : List Keyword) :
    Keeps es (Traced.inBlock node scope (body keywords)) :=
  (hbody keywords).anywhere.inBlock node scope

/-- The condition of a loop is read before its node is made. -/
theorem keeps_loop (bound : Nat) : Keeps [] (Traced.loop body bound) :=
  (Keeps.quiet (.expect _)).bind fun line => .condition bound fun _ =>
    (Keeps.quiet (.expect _)).bind fun _ => (Keeps.blockScope _).bind fun _ =>
      (Keeps.allocate (by simp [Construct.expressions]) line).bind fun node =>
        (keeps_inside hbody node _ _).bind fun _ => (Keeps.quiet (.blockEnd _)).bind fun _ =>
          .pure node

theorem keeps_elseIfs (bound : Nat) (conditional : NodeId) :
    ∀ more, Keeps [] (Traced.elseIfs body bound conditional more) := by
  intro more
  induction more with
  | zero => exact .pure _
  | succ more ih =>
    refine (Keeps.quiet .peek).bind fun next => ?_
    split
    · exact (Keeps.quiet (.expect _)).bind fun line => .condition bound fun _ =>
        (Keeps.quiet (.expect _)).bind fun _ => (Keeps.blockScope _).bind fun _ =>
          (Keeps.allocate (by simp [Construct.expressions]) line).bind fun branch =>
            (Keeps.place (fun _ _ h => .attachBranch h fun _ _ _ _ _ _ => rfl) line).bind fun _ =>
              (keeps_inside hbody branch _ _).bind fun _ => ih.anywhere
    · exact .pure _

theorem keeps_otherwise (conditional : NodeId) :
    Keeps [] (Traced.otherwise body conditional) := by
  refine (Keeps.quiet .peek).bind fun next => ?_
  split
  · exact (Keeps.quiet (.expect _)).bind fun line => (Keeps.blockScope _).bind fun _ =>
      (Keeps.allocate (by simp [Construct.expressions]) line).bind fun branch =>
        (Keeps.place (fun _ _ h => .attachBranch h fun _ _ _ _ _ _ => rfl) line).bind fun _ =>
          keeps_inside hbody branch _ _
  · exact .pure _

theorem keeps_conditional (bound : Nat) : Keeps [] (Traced.conditional body bound) :=
  (Keeps.quiet (.expect _)).bind fun line => .condition bound fun _ =>
    (Keeps.quiet (.expect _)).bind fun _ => (Keeps.blockScope _).bind fun _ =>
      (Keeps.allocate (by simp [Construct.expressions]) line).bind fun node =>
      (keeps_inside hbody node _ _).bind fun _ =>
        (keeps_elseIfs hbody bound node bound).anywhere.bind fun _ =>
          (keeps_otherwise hbody node).anywhere.bind fun _ =>
            (Keeps.quiet (.blockEnd _)).bind fun _ => .pure node

/-- A routine has no expressions but those of its body. -/
theorem keeps_routine (bound : Nat) : Keeps [] (Traced.routine body bound) := by
  have hheading : Keeps [] (step (routineHeading bound)) :=
    .steady fun d => (routineHeading_ends bound d).imp
      (fun _ _ h => ⟨h.1.suffix, h.1.tree ▸ .refl _ _⟩) fun _ _ _ => trivial
  refine hheading.bind fun found => ?_
  exact (Keeps.allocate (by simp [Construct.expressions]) _).bind fun node =>
    (keeps_inside hbody node _ _).bind fun _ => (Keeps.quiet (.namedEnd _)).bind fun _ =>
      (Keeps.quiet (.expect _)).bind fun _ => (Keeps.define _ _).bind fun _ => Keeps.attach node

theorem keeps_item (bound : Nat) (next : Token) : Keeps [] (Traced.item body bound next) := by
  have hattach : ∀ {x : Traced NodeId}, Keeps [] x → Keeps [] (do step (Grammar.attach (← x))) :=
    fun hx => hx.bind fun _ => Keeps.attach _
  have hunexpected : Quiet (item.unexpected next) := Quiet.peekLine.bind fun _ => .refuse rfl _
  cases next with
  | word k =>
    cases k with
    | function | procedure => exact keeps_routine hbody bound
    | «if» => exact hattach (keeps_conditional hbody bound)
    | «while» => exact hattach (keeps_loop hbody bound)
    | «variable» => exact hattach (Keeps.places (.declaration bound))
    | «let» => exact hattach (Keeps.places (.assignment bound))
    | call => exact hattach (Keeps.places (.callStatement bound))
    | input => exact hattach (Keeps.places (.inputStatement bound))
    | output => exact hattach (Keeps.places (.outputStatement bound))
    | «return» => exact hattach (Keeps.places (.returnStatement bound))
    | _ => exact Keeps.quiet hunexpected
  | _ => exact Keeps.quiet hunexpected

end

/-- The statements of a block, by induction on the bound. -/
theorem keeps_block : ∀ bound, KeepsBody (Traced.block bound) := by
  intro bound
  induction bound with
  | zero => exact fun _ => .quiet .endOfText
  | succ bound ih =>
    intro keywords
    refine (Keeps.quiet .peek).bind fun next => ?_
    cases next with
    | none => exact .quiet .endOfText
    | some next =>
      dsimp only
      split
      · exact .pure _
      · exact (keeps_item ih bound next).bind fun _ => ih keywords

theorem keeps_unitItems : ∀ bound, Keeps [] (Traced.unitItems bound) := by
  have hnoItem (next : Token) : Quiet (noItem next) := Quiet.peekLine.bind fun _ => .refuse rfl _
  intro bound
  induction bound with
  | zero => exact .quiet .endOfText
  | succ bound ih =>
    have hroutine := (keeps_routine (keeps_block bound) bound).bind fun _ => ih
    refine (Keeps.quiet .peek).bind fun next => ?_
    cases next with
    | none => exact .quiet .endOfText
    | some next =>
      cases next with
      | word k =>
        cases k with
        | beginning => exact .pure _
        | «variable» =>
          exact (Keeps.places (.declaration bound)).bind fun node =>
            (Keeps.attach node).bind fun _ => ih
        | function | procedure => exact hroutine
        | _ => exact .quiet (hnoItem _)
      | _ => exact .quiet (hnoItem _)

theorem keeps_unit (bound : Nat) : Keeps [] (Traced.unit bound) := by
  have hentry (name : String) : Keeps [] (Traced.entryBlock bound name) :=
    (Keeps.quiet (.expect _)).bind fun line =>
      (Keeps.allocate (by simp [Construct.expressions]) line).bind fun node =>
        (Keeps.place (fun _ _ h => .setEntry h fun _ _ _ _ => rfl) line).bind fun _ =>
          keeps_inside (keeps_block bound) node _ _
  have hinside (name : String) : Keeps [] (do
        Traced.unitItems bound
        Traced.entryBlock bound name
        step (namedEnd name)
        let _ ← step (expect (.mark .dot))) :=
    (keeps_unitItems bound).bind fun _ => (hentry name).bind fun _ =>
      (Keeps.quiet (.namedEnd _)).bind fun _ => (Keeps.quiet (.expect _)).bind fun _ => .pure _
  have hroot : ∀ {root : NodeId} (t t' : Tree), t.setRoot root = .ok t' →
      Tree.Same Construct.expressions t t' := by
    intro root t t' h
    rw [Tree.setRoot_ok h]
    exact .refl _ _
  refine (Keeps.quiet (.expect _)).bind fun line => (Keeps.quiet .identifier).bind fun name =>
    (Keeps.quiet (.expect _)).bind fun _ =>
    (Keeps.allocate (by simp [Construct.expressions]) line).bind fun root =>
      (Keeps.place hroot line).bind fun _ => ((hinside name).inBlock root name).bind fun _ =>
        .quiet (Quiet.get.bind fun d => ?_)
  split
  · exact .pure _
  · exact .refuse rfl _

/-- The history of a program that was read. -/
theorem exists_history {tokens : List Lexeme} {p : Program}
    (h : Program.ofTokens tokens = .ok p) :
    ∃ h' : History, drafts tokens = h'.drafts ∧ h'.now.tree = p.tree ∧
      History.Leads ⟨Draft.start tokens, []⟩ h' := by
  have hkeeps := keeps_unit tokens.length ⟨Draft.start tokens, []⟩ fun _ he => by cases he
  have hforget := forget_history tokens
  unfold Program.ofTokens at h
  rw [← hforget] at h
  unfold drafts
  cases hhistory : history tokens with
  | error e h' =>
    rw [hhistory] at h
    cases h
  | ok root h' =>
    rw [hhistory] at h
    cases h
    exact ⟨h', rfl, rfl, hkeeps.run_ok hhistory⟩

/-- Every expression in the tree of a program was read from a draft that the reading came by. -/
theorem comesBy_of_contains {tokens : List Lexeme} {p : Program}
    (h : Program.ofTokens tokens = .ok p) {e : Expr} (he : p.tree.Contains e) :
    ∃ d, ComesBy tokens d ∧ d.ReadsAs e := by
  obtain ⟨h', hdrafts, htree, hleads⟩ := exists_history h
  have hkept : h'.Kept := hleads.kept (by
    rintro e ⟨id, c, hc, -⟩
    cases hc)
  obtain ⟨d₀, hd₀, d, hs, hread⟩ := hkept e (htree ▸ he)
  exact ⟨d, ⟨d₀, hdrafts ▸ hd₀, hs⟩, hread⟩

/-- The tokens of a draft that the reading of a program came by are the last ones of its text. -/
theorem ComesBy.suffix {tokens : List Lexeme} {p : Program} (h : Program.ofTokens tokens = .ok p)
    {d : Draft} (hd : ComesBy tokens d) : d.tokens <:+ tokens := by
  obtain ⟨h', hdrafts, -, hleads⟩ := exists_history h
  obtain ⟨d₀, hd₀, hs⟩ := hd
  obtain ⟨d₁, hd₁, hsuffix⟩ := hleads.tokens d₀ (hdrafts ▸ hd₀)
  obtain rfl : d₁ = Draft.start tokens := List.mem_singleton.1 hd₁
  exact hs.suffix.trans hsuffix

end Grammar

end Primer
