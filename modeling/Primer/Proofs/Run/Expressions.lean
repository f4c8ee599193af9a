import Primer.Proofs.Run.Ready

/-!
# Primer.Proofs.Run.Expressions — the runs of expressions and of arguments.

An expression that fits the names of a point is evaluated where the point is ready, and its value is
regular.  What calls do is assumed here as it is in the evaluation itself: `Env.Answers` says that
calls which fit the headings of a point come to a good end.

Arguments are bound one after another.  `Memory.Prepares` is the invariant of the table that is
built: what has been passed so far binds the first parameters.

The proofs are inductions on the expression, and each case is the definition of the evaluator with
the rules of `Triple` put in for its parts.  What a name needs, a slot of the right kind, is looked
up in what the point knows: the expression fits the names, and the memory is ready for them.
-/

namespace Primer

/-- Every call that fits a routine of the point comes to a good end. -/
def Env.Answers (Γ : Env) (calls : Calls) : Prop :=
  ∀ name heading arguments line, Γ.callable? name = some heading →
    Expr.Fit Γ.names heading.parameters arguments →
    Run.Triple Γ.Ready (calls name arguments line) fun v _ => v.Regular

namespace Run

variable {Γ : Env} {calls : Calls}

mutual

/-- An expression that fits is evaluated to a regular value, or fails with a fault that is not about
names. -/
theorem triple_evaluate (hcalls : Γ.Answers calls) :
    ∀ e : Expr, e.Sound Γ.names → Triple Γ.Ready (evaluate calls e) fun v _ => v.Regular
  | .literal _ v, h => by
    rw [evaluate]
    have hv : v.IsLiteral := h
    exact .afterTick Γ.lasting_ready (.pure fun _ _ => hv.isScalar.regular)
  | .ident line id, h => by
    rw [evaluate]
    exact .afterTick Γ.lasting_ready (.load fun m hm hready => hready.meets_load hm h)
  | .element line id indices, ⟨hid, _, hindices⟩ => by
    rw [evaluate]
    refine .afterTick Γ.lasting_ready ?_
    refine .bindValue Γ.lasting_ready (triple_evaluateIndices hcalls indices hindices)
      fun path _ => ?_
    refine .bindValue Γ.lasting_ready
      (.load fun m hm hready => hready.meets_load hm hid) fun v hv => .atLine ?_
    -- What is named is loaded whole, and the element is looked up in the grid.
    obtain ⟨element, sizes, hpos, hfits⟩ := hv
    refine (Grid.meets_asGrid v).bind fun g hg => ?_
    rw [← hg] at hfits
    refine (Grid.meets_elementAt hfits path).mono fun w hw => ?_
    exact ⟨element, _, fun size hsize => hpos size (List.mem_of_mem_drop hsize), hw⟩
  | .call line name arguments, ⟨heading, hcallable, hfit⟩ => by
    rw [evaluate]
    exact .afterTick Γ.lasting_ready (hcalls name heading arguments line hcallable hfit)
  | .unary line op operand, h => by
    rw [evaluate]
    refine .afterTick Γ.lasting_ready ?_
    refine .bindValue Γ.lasting_ready (triple_evaluate hcalls operand h) fun v _ => .atLine ?_
    exact (op.meets_apply v).mono fun w hw => hw.regular
  | .binary line op left right, ⟨hleft, hright⟩ => by
    rw [evaluate]
    refine .afterTick Γ.lasting_ready ?_
    refine .bindValue Γ.lasting_ready (triple_evaluate hcalls left hleft) fun v _ => ?_
    refine .bindValue Γ.lasting_ready (triple_evaluate hcalls right hright) fun w _ => .atLine ?_
    exact (op.meets_apply v w).mono fun r hr => hr.regular

theorem triple_evaluateIndices (hcalls : Γ.Answers calls) :
    ∀ es : List Expr, Expr.SoundList Γ.names es →
      Triple Γ.Ready (evaluateIndices calls es) fun _ _ => True
  | [], _ => by
    rw [evaluateIndices]
    exact .pure fun _ _ => trivial
  | e :: rest, ⟨he, hrest⟩ => by
    rw [evaluateIndices]
    refine .bindValue Γ.lasting_ready (triple_evaluate hcalls e he) fun v _ => ?_
    refine .bindValue Γ.lasting_ready (.atLine v.meets_asInteger) fun index _ => ?_
    refine .bindValue Γ.lasting_ready (triple_evaluateIndices hcalls rest hrest) fun more _ => ?_
    exact .pure fun _ _ => trivial

end

theorem triple_truth (hcalls : Γ.Answers calls) {condition : Expr} {line : Nat}
    (h : condition.Sound Γ.names) :
    Triple Γ.Ready (truth calls condition line) fun _ _ => True :=
  .bindValue Γ.lasting_ready (triple_evaluate hcalls condition h) fun v _ =>
    .atLine v.meets_expectBoolean

end Run

/-! ## Arguments -/

/-- The binding may be put into the frame that is entered next. -/
def Memory.Allows (m : Memory) (b : Binding) : Prop :=
  b.WellTyped ∧ ∀ place, b = .reference place → m.Backs m.frames.size place

/-- The table binds these parameters, and may become the next frame. -/
structure Memory.Prepares (m : Memory) (parameters : List Parameter) (table : Table Binding) :
    Prop where
  allows : table.All fun _ b => m.Allows b
  binds : Frame.Binds ⟨table, .empty⟩ parameters

/-- What may be bound may be bound later. -/
theorem Memory.Allows.mono {m m' : Memory} (hle : m.Le m') {b : Binding} (h : m.Allows b) :
    m'.Allows b := by
  refine ⟨h.1, fun place hplace => ?_⟩
  rw [hle.size]
  exact (h.2 place hplace).mono hle

/-- What was prepared stays prepared while the memory grows. -/
theorem Memory.Prepares.mono {m m' : Memory} (hle : m.Le m') {parameters : List Parameter}
    {table : Table Binding} (h : m.Prepares parameters table) : m'.Prepares parameters table :=
  ⟨fun entry hentry => (h.allows entry hentry).mono hle, h.binds⟩

/-- One more parameter, under a name that is not taken. -/
theorem Memory.Prepares.insert {m : Memory} {parameters : List Parameter} {table : Table Binding}
    (h : m.Prepares parameters table) {parameter : Parameter} {b : Binding} (hb : m.Allows b)
    (hmode : b.place?.isSome = true ↔ parameter.mode = .byReference)
    (hname : ∀ other ∈ parameters, other.name ≠ parameter.name) :
    m.Prepares (parameters ++ [parameter]) (table.insert parameter.name b) := by
  refine ⟨Table.All.insert h.allows hb, fun other hother => ?_⟩
  rcases List.mem_append.1 hother with hother | hother
  · obtain ⟨place, hplace, hiff⟩ := h.binds other hother
    refine ⟨place, ?_, hiff⟩
    rw [Table.get?_insert_of_ne _ (hname other hother)]
    exact hplace
  · rw [List.mem_singleton.1 hother]
    refine ⟨b.place?, ?_, hmode⟩
    rw [Table.get?_insert_self]
    rfl

/-- A table that binds all parameters makes a frame. -/
theorem Memory.Prepares.push {m : Memory} {parameters : List Parameter} {table : Table Binding}
    (h : m.Prepares parameters table) (hm : m.Sound) :
    (m.push { parameters := table, locals := .empty }).Sound := by
  refine hm.push ⟨fun entry hentry => (h.allows entry hentry).1, Table.all_empty⟩ ?_
  intro name place hplace
  exact (Table.All.get h.allows hplace).2 place rfl

namespace Program

variable {Γ : Env} {calls : Calls}

/-- An argument that fits its parameter is bound to it. -/
theorem triple_bind (hcalls : Γ.Answers calls) (routine : String) (parameter : Parameter) :
    ∀ argument : Argument, Expr.FitArgument Γ.names parameter.mode argument →
      Run.Triple Γ.Ready (bind calls routine parameter argument) fun b m => m.Allows b ∧
        (b.place?.isSome = true ↔ parameter.mode = .byReference)
  | .value e, ⟨hmode, he⟩ => by
    refine .bindValue Γ.lasting_ready (Run.triple_evaluate hcalls e he) fun v _ => ?_
    refine .bindValue Γ.lasting_ready (.atLine (v.meets_coerceScalar parameter.type)) fun w hw => ?_
    refine .pure fun m _ => ⟨⟨hw, fun place hplace => ?_⟩, ?_⟩
    · cases hplace
    · rw [hmode]
      simp [Binding.place?]
  | .reference line id, ⟨hmode, hid⟩ => by
    refine .bindMemory Γ.lasting_ready (fun m hm hready => hready.meets_find hm hid.1)
      fun slot => ?_
    obtain ⟨place, type, old⟩ := slot
    dsimp only
    split
    · refine .pure fun m hslot => ⟨⟨trivial, fun place' hplace => ?_⟩, ?_⟩
      · cases hplace
        exact hslot.2.2 hid.2
      · rw [hmode]
        simp [Binding.place?]
    · exact Run.Triple.mono (.atLine (φ := fun _ => False) fun hunbound => hunbound)
        (fun _ h => h) fun _ _ h => h.elim

/-- Arguments that fit the parameters are bound to them, each to its own. -/
theorem triple_bindAll (hcalls : Γ.Answers calls) (routine : String)
    {parameters before : List Parameter} {arguments : List Argument}
    (hfit : Expr.Fit Γ.names parameters arguments)
    (hnodup : ((before ++ parameters).map (·.name)).Nodup) (table : Table Binding) :
    Run.Triple (fun m => Γ.Ready m ∧ m.Prepares before table)
      (bindAll calls routine parameters arguments table)
      fun table' m => m.Prepares (before ++ parameters) table' := by
  induction arguments generalizing parameters before table with
  | nil =>
    obtain rfl : parameters = [] := hfit
    rw [List.append_nil]
    exact .pure fun _ h => h.2
  | cons argument rest ih =>
    obtain ⟨parameter, more, rfl, hargument, hrest⟩ := hfit
    have hsplit : before ++ parameter :: more = (before ++ [parameter]) ++ more := by simp
    have hlasting : Memory.Lasting fun m => Γ.Ready m ∧ m.Prepares before table :=
      fun hle h => ⟨Γ.lasting_ready hle h.1, h.2.mono hle⟩
    have hbind : Run.Triple (fun m => Γ.Ready m ∧ m.Prepares before table)
        (bind calls routine parameter argument) fun b m => m.Allows b ∧
          (b.place?.isSome = true ↔ parameter.mode = .byReference) :=
      (triple_bind hcalls routine parameter argument hargument).mono (fun _ h => h.1) fun _ _ h => h
    have hname : ∀ other ∈ before, other.name ≠ parameter.name := by
      intro other hother heq
      rw [List.map_append, List.map_cons, List.nodup_append] at hnodup
      exact hnodup.2.2 _ (List.mem_map_of_mem hother) _ List.mem_cons_self heq
    -- this parameter joins those that are bound, and the rest follows
    rw [hsplit] at hnodup ⊢
    refine .bind hlasting hbind fun b =>
      (ih hrest hnodup _).mono (fun m h => ⟨h.1.1, ?_⟩) fun _ _ h => h
    exact h.1.2.insert h.2.1 h.2.2 hname

end Program

end Primer
