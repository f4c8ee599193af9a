import Primer.Context
import Primer.Proofs.Run.Statements
import Primer.Proofs.Scope.Lexical

/-!
# Primer.Proofs.Run.Safety — accepted programs never miss a name, and never mix up types.

The items of the unit are run in the order of the text, each at a point that the items before it
have made ready; the entry block is run behind all of them.  So the triples of statements and calls
add up to one for the whole program, from the empty memory on.

Nothing is assumed of the program but that it was accepted; the outline that it means says in which
order items are ready.  A statement about a whole run is read off the end of the triple: a fault
that is about a name is never reported, and the memory behind the run, which is the one at which a
stopped run stands, is sound.

Main statements: `Program.runOn_not_unbound` and `Program.runOn_wellTyped`.
-/

namespace Primer

namespace Program

variable {p : Program} {o : Outline}

/-- What is a routine by its construct has a heading. -/
theorem exists_of_isRoutine {id : NodeId} {c : Construct} (hc : p.tree.construct? id = some c)
    (h : p.isRoutine id = true) : ∃ heading, c = .routine heading := by
  unfold isRoutine at h
  rw [hc] at h
  cases c with
  | routine heading => exact ⟨heading, rfl⟩
  | _ => cases h

/-- The items from some point on, routines left out.  The induction is on these items, with those
before them as the surroundings. -/
theorem triple_items {statement : NodeId → Run Outcome} (hstatement : p.Advances o statement)
    {before after : Forest} (h : o.items = before.append after) {linkage : Forest.Linkage}
    (hlays : p.tree.Lays (some 0) linkage (1 + before.size) after)
    (hsound : after.Sound (o.start.afterAll 1 before) (1 + before.size)) :
    Run.Triple (o.start.afterAll 1 before).Ready
      (runAll statement ((after.roots (1 + before.size)).filter (!p.isRoutine ·)))
      fun _ m => o.ready.Ready m := by
  induction after generalizing before linkage with
  | nil =>
    rw [Forest.append_nil] at h
    refine .pure fun m hready => ?_
    rw [Outline.ready, h]
    exact hready
  | cons c line body slots rest _ _ ih =>
    obtain ⟨hseats, hlays', hsound'⟩ := hlays.seats hsound
    obtain ⟨hitems, hsize, hafter⟩ := Outline.move_item h
    have hrest := ih hitems (hsize ▸ hlays') (by rw [hafter, hsize]; exact hsound')
    rw [hafter, hsize] at hrest
    rw [Forest.roots]
    -- a routine is not run, and declares no variable
    by_cases hroutine : p.isRoutine (1 + before.size) = true
    · rw [List.filter_cons_of_neg (by simp [hroutine])]
      obtain ⟨heading, rfl⟩ := exists_of_isRoutine hseats.stands.construct?_eq hroutine
      exact hrest.mono (fun m hready => hready.after _ rfl) fun _ _ hq => hq
    · rw [List.filter_cons_of_pos (by simp [hroutine]), runAll]
      refine .bind (Env.lasting_ready _)
        (hstatement (Outline.serves_afterAll h) hseats) fun out => ?_
      exact hrest.mono (fun m hready => hready.2.2) fun _ _ hq => hq

/-- The unit has its entry block in its slot. -/
theorem Means.entryBlock_eq (h : p.Means o) : p.entry? = some o.entryNode := by
  unfold entry?
  rw [h.root, h.lays.parts.1.construct?_eq]

/-- The whole program, started where nothing is declared. -/
theorem triple_run (h : p.Means o) (bound : Nat) :
    Run.Triple o.start.Ready (p.run bound) fun _ _ => True := by
  have hstatement : p.Advances o (p.execute (p.call bound) bound) :=
    advances_execute (answers_call h bound) bound
  have hitems : Run.Triple o.start.Ready
      (runAll (p.execute (p.call bound) bound) ((o.items.roots 1).filter (!p.isRoutine ·)))
      fun _ m => o.ready.Ready m :=
    triple_items hstatement (show o.items = Forest.nil.append o.items from rfl)
      h.lays.parts.1.inBody h.items
  have hserves : o.Serves o.ready := Outline.serves_afterAll o.items.append_nil.symm
  unfold run
  dsimp only
  rw [h.root, h.children_unit, h.entryBlock_eq]
  refine .bind (Env.lasting_ready _) hitems fun _ => ?_
  refine Run.Triple.mono (P := o.ready.Ready) ?_ (fun _ hready => hready.2) fun _ _ hq => hq
  refine .bindValue (Env.lasting_ready _)
    (triple_block hstatement h.stands_entry h.body hserves) fun _ _ => ?_
  exact .pure fun _ _ => trivial

/-- Nothing is declared before the start, so the empty memory is ready. -/
theorem ready_start (o : Outline) : o.start.Ready .empty :=
  ⟨fun _ hname => absurd hname List.not_mem_nil, fun _ hl => absurd hl List.not_mem_nil, rfl⟩

/-- A run of an accepted program comes to a good end, on every console and after any number of
steps. -/
theorem ends_run {source : String} (h : ofSource source = .ok p) (steps : Nat)
    (console : Console) :
    Run.Ends .empty (fun _ _ => True)
      (p.run steps { memory := .empty, console, steps }) := by
  obtain ⟨o, hmeans⟩ := ofSource_means h
  exact triple_run hmeans steps _ Memory.sound_empty (ready_start o)

/-- The context after a run is what the machine ended with. -/
theorem runOn_eq (p : Program) (steps : Nat) (console : Console) :
    p.runOn steps console =
      match p.run steps { memory := .empty, console, steps } with
      | .ok a m => (.ok a, ⟨p, m.memory, m.console⟩)
      | .error stop m => (.error stop, ⟨p, m.memory, m.console⟩) := by
  unfold runOn Context.run Context.serve EStateM.run
  have hstart : (Context.fresh p console).program.run steps
      { memory := (Context.fresh p console).memory, console := (Context.fresh p console).console,
        steps } = p.run steps { memory := .empty, console, steps } := rfl
  rw [hstart]
  cases p.run steps { memory := .empty, console, steps } <;> rfl

/-- No run of an accepted program, on any console, fails at a variable without a slot, at a call of
an unknown routine or at a call with the wrong number of arguments. -/
theorem runOn_not_unbound {source : String} (h : ofSource source = .ok p) (steps : Nat)
    (console : Console) :
    (∀ name line,
      (p.runOn steps console).1 ≠ .error (.error ⟨.unknownVariable name, line⟩)) ∧
    (∀ name line,
      (p.runOn steps console).1 ≠ .error (.error ⟨.unknownFunction name, line⟩)) ∧
    (∀ name expected found line,
      (p.runOn steps console).1 ≠
        .error (.error ⟨.argumentCountMismatch name expected found, line⟩)) := by
  have hends := ends_run h steps console
  have hbound : ∀ e, (p.runOn steps console).1 = .error (.error e) → ¬ e.fault.IsUnbound := by
    intro e he
    rw [runOn_eq] at he
    cases hrun : p.run steps { memory := .empty, console, steps } with
    | ok a m =>
      rw [hrun] at he
      cases he
    | error stop m =>
      rw [hrun] at he hends
      cases he
      exact hends.2
  exact ⟨fun _ _ he => hbound _ he trivial, fun _ _ he => hbound _ he trivial,
    fun _ _ _ _ he => hbound _ he trivial⟩

/-- A program with a routine and nested blocks, on an empty console. -/
theorem sampleText_not_unbound : ∃ p, ofSource sampleText = .ok p ∧
    (∀ name line, (p.runOn 100 (.ofInput [] none)).1 ≠
      .error (.error ⟨.unknownVariable name, line⟩)) ∧
    (∀ name line, (p.runOn 100 (.ofInput [] none)).1 ≠
      .error (.error ⟨.unknownFunction name, line⟩)) ∧
    (∀ name expected found line, (p.runOn 100 (.ofInput [] none)).1 ≠
      .error (.error ⟨.argumentCountMismatch name expected found, line⟩)) := by
  obtain ⟨p, -, -, hp, -⟩ := exists_sample
  exact ⟨p, hp, runOn_not_unbound hp 100 (.ofInput [] none)⟩

/-- In every state of a run of an accepted program, and also in the state that a failing run leaves,
each variable and each parameter passed by value holds exactly what its type says. -/
theorem runOn_wellTyped {source : String} (h : ofSource source = .ok p) (steps : Nat)
    (console : Console) : (p.runOn steps console).2.memory.WellTyped := by
  have hends := ends_run h steps console
  rw [runOn_eq]
  cases hrun : p.run steps { memory := .empty, console, steps } with
  | ok a m =>
    rw [hrun] at hends
    exact hends.1.wellTyped
  | error stop m =>
    rw [hrun] at hends
    cases stop with
    | error e => exact hends.1.wellTyped
    | outOfSteps => exact hends.wellTyped

/-- The sample after twenty steps, while its procedure is called. -/
theorem sampleText_wellTyped : ∃ p, ofSource sampleText = .ok p ∧
    (p.runOn 20 (.ofInput [] none)).2.memory.frames.size = 1 ∧
    (p.runOn 20 (.ofInput [] none)).2.memory.WellTyped := by
  have hcall : (ofSource sampleText).toOption.any (fun p =>
      (p.runOn 20 (.ofInput [] none)).2.memory.frames.size == 1) = true := by decide +kernel
  obtain ⟨p, -, -, hp, -⟩ := exists_sample
  rw [hp] at hcall
  exact ⟨p, hp, eq_of_beq hcall, runOn_wellTyped hp 20 (.ofInput [] none)⟩

end Program

end Primer
