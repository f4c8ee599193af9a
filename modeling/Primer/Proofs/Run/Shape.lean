import Primer.Context
import Primer.Proofs.Run.Triple
import Primer.Proofs.Run.View
import Primer.Proofs.Scope.Lexical

/-!
# Primer.Proofs.Run.Shape — what a request cannot change.

The shape of a memory is which places it has, of what types, and what its parameters are bound to;
only the values are left out.  Evaluating anything keeps the shape, whether it succeeds or fails and
whatever the program is: what a call declares is in its own frame, which is gone afterwards.
Statements may also declare variables, where declarations go at that time.

`Run.Keeps R x` says that a run ends, in success or failure, in a memory that is `R`-related to the
one it was started in.  The rules are those for any `R` under which a run may stand still, go on and
write; `SameShape` and `Grows` are two of these.

A relation is admitted if it is reflexive and transitive and if a write keeps it (`Memory.Admits`),
which both `SameShape` and `Grows` do.  The only rule that differs is the one for declarations: they
are no part of evaluating an expression, except inside a call, where they go to the frame of the
call.  So the body of a call `Grows`, and with the frame taken off the call keeps the shape.

Main statement: `Context.keeps_shape`.
-/

namespace Primer

/-- What the declaration says of a variable. -/
def Variable.header (v : Variable) : SlotType × String × String := (v.type, v.name, v.id)

/-- What a parameter is bound to, but for its value: a slot of a type, or a place. -/
def Binding.form : Binding → Scalar ⊕ Location
  | value type _ => .inl type
  | reference place => .inr place

/-- A binding keeps its form when its value is replaced. -/
theorem Binding.form_withValue (b : Binding) (v : Value) : (b.withValue v).form = b.form := by
  cases b <;> rfl

namespace Memory

/-! ## Shapes -/

/-- The same frames, variables of the same types in each of them and among the globals, and the same
bindings but for the values. -/
structure SameShape (m m' : Memory) : Prop where
  size : m'.frames.size = m.frames.size
  headers : ∀ a id,
    (m'.variableAt? a id).map Variable.header = (m.variableAt? a id).map Variable.header
  forms : ∀ k name,
    (m'.parameterAt? k name).map Binding.form = (m.parameterAt? k name).map Binding.form

/-- The same shape, but for new variables where declarations go. -/
structure Grows (m m' : Memory) : Prop where
  size : m'.frames.size = m.frames.size
  headers : ∀ a id, a ≠ m.area →
    (m'.variableAt? a id).map Variable.header = (m.variableAt? a id).map Variable.header
  forms : ∀ k name,
    (m'.parameterAt? k name).map Binding.form = (m.parameterAt? k name).map Binding.form
  present : ∀ id, (m.variableAt? m.area id).isSome = true → (m'.variableAt? m.area id).isSome = true

/-- A run may stand still, go on, and write. -/
class Admits (R : Memory → Memory → Prop) : Prop where
  refl : ∀ m, R m m
  trans : ∀ {m m₁ m₂}, R m m₁ → R m₁ m₂ → R m m₂
  write : ∀ m place value, R m (m.write place value)

theorem sameShape_write (m : Memory) (place : Location) (value : Value) :
    m.SameShape (m.write place value) := by
  refine ⟨m.size_frames_write place value, fun a id => ?_, fun k name => ?_⟩
  · rw [variableAt?_write]
    split
    · rw [Option.map_map]
      rfl
    · rfl
  · rw [parameterAt?_write]
    split
    · rw [Option.map_map]
      exact congrArg (Option.map · _) (funext fun b => b.form_withValue value)
    · rfl

instance : Admits SameShape where
  refl _ := ⟨rfl, fun _ _ => rfl, fun _ _ => rfl⟩
  trans h h' := ⟨h'.size.trans h.size, fun a id => (h'.headers a id).trans (h.headers a id),
    fun k name => (h'.forms k name).trans (h.forms k name)⟩
  write := sameShape_write

theorem SameShape.isSome_eq {m m' : Memory} (h : m.SameShape m') (a : Area) (id : String) :
    (m'.variableAt? a id).isSome = (m.variableAt? a id).isSome := by
  simpa using congrArg Option.isSome (h.headers a id)

theorem SameShape.grows {m m' : Memory} (h : m.SameShape m') : m.Grows m' :=
  ⟨h.size, fun a id _ => h.headers a id, h.forms, fun id hid => (h.isSome_eq m.area id).trans hid⟩

theorem Grows.area_eq {m m' : Memory} (h : m.Grows m') : m'.area = m.area :=
  area_of_size_eq h.size

instance : Admits Grows where
  refl m := SameShape.grows (Admits.refl m)
  trans h h' :=
    ⟨h'.size.trans h.size,
      fun a id ha => (h'.headers a id (h.area_eq ▸ ha)).trans (h.headers a id ha),
      fun k name => (h'.forms k name).trans (h.forms k name),
      fun id hid => h.area_eq ▸ h'.present id (h.area_eq ▸ h.present id hid)⟩
  write m place value := (m.sameShape_write place value).grows

/-- A declaration adds a place, in the area of the current call. -/
theorem grows_declare (m : Memory) (v : Variable) : m.Grows (m.declare v) := by
  refine ⟨m.size_declare v, fun a id ha => ?_, fun k name => ?_, fun id hid => ?_⟩
  · rw [variableAt?_declare, if_neg fun h => ha h.1]
  · rw [parameterAt?_declare]
  · rw [variableAt?_declare]
    split
    · rfl
    · exact hid

/-- No variable is lost. -/
theorem Grows.isSome {m m' : Memory} (h : m.Grows m') {a : Area} {id : String}
    (hid : (m.variableAt? a id).isSome = true) : (m'.variableAt? a id).isSome = true := by
  by_cases ha : a = m.area
  · subst ha
    exact h.present id hid
  · have hsame := congrArg Option.isSome (h.headers a id ha)
    rw [Option.isSome_map, Option.isSome_map] at hsame
    exact hsame.trans hid

/-- What is passed by reference stays so. -/
theorem Grows.reference_iff {m m' : Memory} (h : m.Grows m') (k : Nat) (name : String)
    (place : Location) :
    m'.parameterAt? k name = some (.reference place)
      ↔ m.parameterAt? k name = some (.reference place) := by
  have hreference (o : Option Binding) :
      o = some (.reference place) ↔ o.map Binding.form = some (.inr place) := by
    cases o with
    | none => simp
    | some b => cases b <;> simp [Binding.form]
  rw [hreference, hreference, h.forms]

theorem parameterAt?_eq_some {m : Memory} {k : Nat} {f : Frame} (hf : m.frames[k]? = some f)
    (name : String) : m.parameterAt? k name = f.parameters.get? name := by
  rw [parameterAt?, hf, Option.bind_some]

/-- All places are still there. -/
theorem Grows.le {m m' : Memory} (h : m.Grows m') : m.Le m' := by
  refine ⟨fun id hid => h.isSome (show (m.variableAt? .globals id).isSome = true from hid), h.size,
    fun {k f} hf => ?_⟩
  have hk : k < m'.frames.size := h.size ▸ (Array.getElem?_eq_some_iff.1 hf).1
  obtain ⟨f', hf'⟩ : ∃ f', m'.frames[k]? = some f' := ⟨_, Array.getElem?_eq_getElem hk⟩
  refine ⟨f', hf', fun id hid => ?_, fun name => ?_⟩
  · have hpresent : (m'.variableAt? (.frame k) id).isSome = true := by
      refine h.isSome ?_
      rw [variableAt?, hf]
      exact hid
    rw [variableAt?, hf'] at hpresent
    exact hpresent
  · have hform := congrArg (Option.map fun form => form.getRight?) (h.forms k name)
    rw [parameterAt?_eq_some hf, parameterAt?_eq_some hf', Option.map_map, Option.map_map] at hform
    have hplace : (fun form => form.getRight?) ∘ Binding.form = Binding.place? := by
      funext b
      cases b <;> rfl
    rwa [hplace] at hform

/-- What happens on top of a frame that is entered and left again does not show in the shape of what
is below. -/
theorem Grows.pop {m m' : Memory} {f : Frame} (h : (m.push f).Grows m') : m.SameShape m'.pop := by
  have hsize : m'.frames.size = m.frames.size + 1 := h.size.trans (m.size_push f)
  have hpop : m'.pop = m'.cut m.frames.size := by
    rw [pop_eq_cut, hsize, Nat.add_sub_cancel]
  rw [hpop]
  refine ⟨?_, fun a id => ?_, fun k name => ?_⟩
  · rw [size_cut, hsize]
    omega
  · rw [variableAt?_cut]
    split
    · rename_i hbelow
      have hne : a ≠ .frame m.frames.size := by
        rintro rfl
        exact Nat.lt_irrefl _ hbelow
      rw [h.headers a id (by rwa [area_push]), variableAt?_push, if_neg hne]
    · rename_i habove
      cases a with
      | globals => exact absurd trivial habove
      | frame k => rw [variableAt?_of_size_le (Nat.not_lt.1 habove)]
  · rw [parameterAt?_cut]
    split
    · rename_i hbelow
      rw [h.forms, parameterAt?_push, if_neg (Nat.ne_of_lt hbelow)]
    · rename_i habove
      rw [parameterAt?_of_size_le (Nat.not_lt.1 habove)]

end Memory

/-! ## Runs that keep a relation -/

namespace Run

variable {α β : Type} {R S : Memory → Memory → Prop}

/-- A run that was not stopped has left a related memory. -/
def Leaves (R : Memory → Memory → Prop) (m : Memory) : EStateM.Result Stop Machine α → Prop
  | .ok _ m' => R m m'.memory
  | .error (.error _) m' => R m m'.memory
  | .error .outOfSteps _ => True

/-- A run leaves a memory that is related to the one it was started in. -/
def Keeps (R : Memory → Memory → Prop) (x : Run α) : Prop := ∀ m, Leaves R m.memory (x m)

theorem Leaves.imp {m m₀ : Memory} {r : EStateM.Result Stop Machine α} (h : Leaves R m r)
    (himp : ∀ m', R m m' → S m₀ m') : Leaves S m₀ r := by
  cases r with
  | ok a m' => exact himp _ h
  | error stop m' =>
    cases stop with
    | error e => exact himp _ h
    | outOfSteps => trivial

namespace Keeps

variable {x : Run α} {f : α → Run β} {line : Nat}

theorem mono (hx : Keeps R x) (himp : ∀ m m', R m m' → S m m') : Keeps S x :=
  fun m => (hx m).imp (himp _)

theorem outOfSteps : Keeps R (Run.outOfSteps : Run α) := fun _ => trivial

/-- A change of the memory with the step behind it. -/
theorem change {m : Machine} {memory : Memory} (h : R m.memory memory) :
    Leaves R m.memory (Run.tick { m with memory }) := by
  obtain ⟨old, console, steps⟩ := m
  cases steps with
  | zero => trivial
  | succ n => exact h

variable [hR : Memory.Admits R]

theorem pure (a : α) : Keeps R (Pure.pure a) := fun _ => hR.refl _

/-- Two parts in a row keep what both keep. -/
theorem bind (hx : Keeps R x) (hf : ∀ a, Keeps R (f a)) : Keeps R (x >>= f) := by
  intro m
  have h := hx m
  show Leaves R m.memory (EStateM.bind x f m)
  unfold EStateM.bind
  cases hrun : x m with
  | ok a m₁ =>
    rw [hrun] at h
    exact (hf a m₁).imp fun m' h' => hR.trans h h'
  | error stop m₁ =>
    rw [hrun] at h
    cases stop with
    | error e => exact h
    | outOfSteps => trivial

theorem tick : Keeps R Run.tick := by
  rintro ⟨memory, console, steps⟩
  cases steps with
  | zero => trivial
  | succ n => exact hR.refl memory

theorem afterTick {f : Unit → Run β} (hf : Keeps R (f ())) : Keeps R (Run.tick >>= f) :=
  bind tick fun _ => hf

theorem atLine (result : Except Fault α) : Keeps R (Run.atLine line result) := by
  intro m
  cases result with
  | ok a => exact hR.refl _
  | error fault => exact hR.refl _

/-- A check of the memory whose result is used. -/
theorem bindMemory (check : Memory → Except Fault α) (hf : ∀ a, Keeps R (f a)) :
    Keeps R (do let s ← get; let a ← Run.atLine line (check s.memory); f a) :=
  fun m => bind (atLine (check m.memory)) hf m

theorem load (id : String) : Keeps R (Run.load id line) :=
  fun m => atLine (m.memory.load id) m

theorem readLine : Keeps R (Run.readLine line) := by
  intro m
  rw [readLine_run]
  cases m.console.read with
  | ok read => exact hR.refl _
  | error cause => exact hR.refl _

theorem writeLine {text : String} : Keeps R (Run.writeLine text line) := by
  intro m
  rw [writeLine_run]
  cases m.console.write text with
  | ok console => exact hR.refl _
  | error cause => exact hR.refl _

theorem store {id : String} {indices : List Integer} {value : Value} :
    Keeps R (Run.store id indices value line) := by
  intro m
  rw [store_run]
  cases hstore : m.memory.store id indices value with
  | error fault => exact hR.refl _
  | ok memory =>
    obtain ⟨place, slot, v, -, rfl⟩ := Memory.exists_write_of_store hstore
    exact change (hR.write _ place v)

theorem declare (v : Variable) : Keeps Memory.Grows (Run.declare v) :=
  fun m => change (m.memory.grows_declare v)

/-- What a call adds goes with its frame. -/
theorem inFrame {frame : Frame} {body : Run α} (hbody : Keeps Memory.Grows body) :
    Keeps Memory.SameShape (Run.inFrame frame body) := by
  intro m
  have h : Keeps Memory.Grows (Run.tick >>= fun _ => body) := afterTick hbody
  have hends := h { m with memory := m.memory.push frame }
  unfold Run.inFrame
  rw [seqRight_eq_bind]
  cases hrun : (Run.tick >>= fun _ => body) { m with memory := m.memory.push frame } with
  | ok a m₁ =>
    rw [hrun] at hends
    obtain ⟨memory, console, steps⟩ := m₁
    cases steps with
    | zero => trivial
    | succ n => exact Memory.Grows.pop hends
  | error stop m₁ =>
    rw [hrun] at hends
    cases stop with
    | error e => exact Memory.Grows.pop hends
    | outOfSteps => trivial

end Keeps

/-! ## Expressions -/

/-- No call changes the shape of the memory. -/
def ShapelyCalls (calls : Calls) : Prop :=
  ∀ name arguments line, Keeps Memory.SameShape (calls name arguments line)

variable {calls : Calls}

mutual

/-- An expression keeps the shape, if calls do. -/
theorem keeps_evaluate (hcalls : ShapelyCalls calls) :
    ∀ e : Expr, Keeps Memory.SameShape (evaluate calls e)
  | .literal _ v => by
    rw [evaluate]
    exact .afterTick (.pure v)
  | .ident line id => by
    rw [evaluate]
    exact .afterTick (.load id)
  | .element line id indices => by
    rw [evaluate]
    refine .afterTick ?_
    refine .bind (keeps_evaluateIndices hcalls indices) fun path => ?_
    refine .bind (.load id) fun v => ?_
    exact .atLine _
  | .call line name arguments => by
    rw [evaluate]
    exact .afterTick (hcalls name arguments line)
  | .unary line op operand => by
    rw [evaluate]
    refine .afterTick ?_
    refine .bind (keeps_evaluate hcalls operand) fun v => ?_
    exact .atLine _
  | .binary line op left right => by
    rw [evaluate]
    refine .afterTick ?_
    refine .bind (keeps_evaluate hcalls left) fun v => ?_
    refine .bind (keeps_evaluate hcalls right) fun w => ?_
    exact .atLine _

theorem keeps_evaluateIndices (hcalls : ShapelyCalls calls) :
    ∀ es : List Expr, Keeps Memory.SameShape (evaluateIndices calls es)
  | [] => by
    rw [evaluateIndices]
    exact .pure []
  | e :: rest => by
    rw [evaluateIndices]
    refine .bind (keeps_evaluate hcalls e) fun v => ?_
    refine .bind (.atLine _) fun index => ?_
    refine .bind (keeps_evaluateIndices hcalls rest) fun more => ?_
    exact .pure _

end

theorem keeps_truth (hcalls : ShapelyCalls calls) (condition : Expr) (line : Nat) :
    Keeps Memory.SameShape (truth calls condition line) :=
  .bind (keeps_evaluate hcalls condition) fun _ =>
    .atLine _

/-! ## Statements -/

theorem keeps_sequence {statement : NodeId → Run Outcome}
    (hstatement : ∀ id, Keeps Memory.Grows (statement id)) (ids : List NodeId) :
    Keeps Memory.Grows (sequence statement ids) := by
  induction ids with
  | nil => exact .pure _
  | cons id rest ih =>
    rw [sequence]
    refine .bind (hstatement id) fun out => ?_
    cases out with
    | completed => exact ih
    | returned v => exact .pure _

theorem keeps_repeatWhile {condition : Run Bool} {body : Run Outcome}
    (hcondition : Keeps Memory.Grows condition) (hbody : Keeps Memory.Grows body) (bound : Nat) :
    Keeps Memory.Grows (repeatWhile condition body bound) := by
  induction bound with
  | zero => exact .outOfSteps
  | succ bound ih =>
    rw [repeatWhile]
    refine .afterTick (.bind hcondition fun b => ?_)
    cases b with
    | false => exact .pure _
    | true =>
      refine .bind hbody fun out => ?_
      cases out with
      | completed => exact ih
      | returned v => exact .pure _

/-- A run that keeps the shape may stand where variables may be declared. -/
theorem Keeps.grows {α : Type} {x : Run α} (hx : Keeps Memory.SameShape x) :
    Keeps Memory.Grows x :=
  hx.mono fun _ _ h => h.grows

end Run

namespace Program

open Run (Keeps ShapelyCalls)

variable (p : Program) {calls : Calls} (hcalls : ShapelyCalls calls)

theorem keeps_input (target : String) (path : List Integer) (line : Nat) :
    Keeps Memory.SameShape (input target path line) := by
  unfold input
  refine .bindMemory (·.addressedType target path.length) fun type => ?_
  cases type with
  | scalar expected =>
    refine .bind .readLine fun text => ?_
    refine .bind (.atLine _) fun v => ?_
    exact .store
  | array element dimensions => exact .atLine _

include hcalls

theorem keeps_branches {body : NodeId → Run Outcome} (hbody : ∀ id, Keeps Memory.Grows (body id))
    (last : Option NodeId) (ids : List NodeId) :
    Keeps Memory.Grows (p.branches calls body last ids) := by
  induction ids with
  | nil =>
    unfold branches
    cases last with
    | none => exact .pure _
    | some id => exact hbody id
  | cons id rest ih =>
    unfold branches
    split
    · refine .bind (Run.keeps_truth hcalls _ _).grows fun b => ?_
      cases b with
      | true => exact hbody id
      | false => exact ih
    · exact ih

/-- A statement declares variables where it stands, and changes the shape in no other way. -/
theorem keeps_execute (bound : Nat) (id : NodeId) :
    Keeps Memory.Grows (p.execute calls bound id) := by
  have hpure (out : Outcome) : Keeps Memory.SameShape (pure out) := .pure _
  induction bound generalizing id with
  | zero => exact .outOfSteps
  | succ bound ih =>
    have hbody (id : NodeId) : Keeps Memory.Grows (p.block (p.execute calls bound) id) :=
      Run.keeps_sequence ih _
    rw [execute]
    refine .afterTick ?_
    cases p.tree.node? id with
    | none => exact (hpure _).grows
    | some node =>
      dsimp only
      cases node.construct with
      | declaration d =>
        -- only a declaration adds a variable, so it grows and need not keep the shape
        have hdeclare (v : Value) : Keeps Memory.Grows (do
            let value ← Run.atLine node.line (v.coerce d.type)
            Run.declare { type := d.type, name := d.name, id := d.id, value }
            return Outcome.completed) :=
          .bind (.atLine _) fun value =>
            .bind (.declare _) fun _ => (hpure _).grows
        dsimp only
        cases d.initializer with
        | computed e =>
          exact .bind (Run.keeps_evaluate hcalls e).grows hdeclare
        | fixed v => exact hdeclare v
      | assignment target indices value =>
        refine Keeps.grows (.bind (Run.keeps_evaluate hcalls value)
          fun v => .bind (Run.keeps_evaluateIndices hcalls indices)
            fun path => .bind .store
              fun _ => hpure _)
      | loop scope condition =>
        exact Run.keeps_repeatWhile (Run.keeps_truth hcalls _ _).grows (hbody id) bound
      | conditional scope condition elseIfs last =>
        refine .bind (Run.keeps_truth hcalls _ _).grows fun b => ?_
        cases b with
        | true => exact hbody id
        | false => exact p.keeps_branches hcalls hbody last elseIfs
      | call name arguments =>
        exact Keeps.grows (.bind (hcalls name arguments node.line)
          fun _ => hpure _)
      | input target indices =>
        exact Keeps.grows (.bind (Run.keeps_evaluateIndices hcalls indices)
          fun path => .bind (keeps_input target path node.line)
            fun _ => hpure _)
      | output value =>
        exact Keeps.grows (.bind (Run.keeps_evaluate hcalls value)
          fun v => .bind .writeLine
            fun _ => hpure _)
      | result value =>
        cases value with
        | none => exact (hpure _).grows
        | some value =>
          exact Keeps.grows (.bind (Run.keeps_evaluate hcalls value)
            fun v => hpure _)
      | entry | elseIf | otherwise => exact hbody id
      | unit | routine => exact (hpure _).grows

/-! ## Calls -/

theorem keeps_bind (routine : String) (parameter : Parameter) (argument : Argument) :
    Keeps Memory.SameShape (bind calls routine parameter argument) := by
  cases argument with
  | value e =>
    refine .bind (Run.keeps_evaluate hcalls e) fun v => ?_
    refine .bind (.atLine _) fun w => ?_
    exact .pure _
  | reference line id =>
    refine .bindMemory (·.find id) fun slot => ?_
    obtain ⟨place, type, old⟩ := slot
    dsimp only
    split
    · exact .pure _
    · exact .atLine _

theorem keeps_bindAll (routine : String) (parameters : List Parameter) (arguments : List Argument)
    (table : Table Binding) :
    Keeps Memory.SameShape (bindAll calls routine parameters arguments table) := by
  induction parameters generalizing arguments table with
  | nil =>
    unfold bindAll
    exact .pure _
  | cons parameter more ih =>
    cases arguments with
    | nil => exact .pure _
    | cons argument rest =>
      unfold bindAll
      exact .bind (keeps_bind hcalls routine parameter argument)
        fun binding => ih rest _

omit hcalls

/-- A call keeps the shape: what its body declares goes with its frame. -/
theorem shapelyCalls_call (bound : Nat) : ShapelyCalls (p.call bound) := by
  induction bound with
  | zero => exact fun _ _ _ => .outOfSteps
  | succ bound ih =>
    intro name arguments line
    rw [call]
    refine .afterTick ?_
    cases p.routines.get? name with
    | none => exact .atLine _
    | some r =>
      dsimp only
      split
      · refine .bind (keeps_bindAll ih _ _ _ _) fun table => ?_
        have hbody : Keeps Memory.Grows (p.block (p.execute (p.call bound) bound) r.node) :=
          Run.keeps_sequence (p.keeps_execute ih bound) _
        refine .bind (.inFrame hbody) fun out => ?_
        exact .atLine _
      · exact .atLine _

/-! ## Whole programs -/

theorem keeps_runAll {statement : NodeId → Run Outcome}
    (hstatement : ∀ id, Keeps Memory.Grows (statement id)) (ids : List NodeId) :
    Keeps Memory.Grows (runAll statement ids) := by
  induction ids with
  | nil => exact .pure _
  | cons id rest ih =>
    rw [runAll]
    exact .bind (hstatement id) fun out => ih

theorem keeps_run (bound : Nat) : Keeps Memory.Grows (p.run bound) := by
  have hstatement := p.keeps_execute (p.shapelyCalls_call bound) bound
  unfold run
  refine .bind (keeps_runAll hstatement _) fun _ => ?_
  cases p.entry? with
  | none => exact .pure _
  | some entry =>
    refine .bind (Run.keeps_sequence hstatement _) fun out => ?_
    exact .pure _

end Program

/-! ## Requests of a host -/

namespace Context

/-- What a run keeps is kept by a request for it that was not stopped. -/
theorem of_keeps {α : Type} {R : Memory → Memory → Prop} {request : Run α}
    (h : Run.Keeps R request) (c : Context) (steps : Nat)
    (hstop : (c.serve steps request).1 ≠ .error .outOfSteps) :
    R c.memory (c.serve steps request).2.memory := by
  have hleaves := h { memory := c.memory, console := c.console, steps }
  unfold serve EStateM.run at hstop ⊢
  cases hrun : request { memory := c.memory, console := c.console, steps } with
  | ok a m =>
    rw [hrun] at hleaves
    exact hleaves
  | error stop m =>
    rw [hrun] at hleaves hstop
    cases stop with
    | error e => exact hleaves
    | outOfSteps => exact absurd rfl hstop

/-- A context that a host can have: it was new, and then global variables were declared and requests
were served to their ends. -/
inductive Reachable : Context → Prop
  | fresh (program : Program) (console : Console) : Reachable (fresh program console)
  | declare {c : Context} (h : c.Reachable) (v : Variable) :
      Reachable { c with memory := { c.memory with globals := c.memory.globals.declare v } }
  | run {c : Context} (h : c.Reachable) (steps : Nat)
      (hstop : (c.run steps).1 ≠ .error .outOfSteps) : Reachable (c.run steps).2
  | eval {c : Context} (h : c.Reachable) (steps : Nat) (e : Expr)
      (hstop : (c.eval steps e).1 ≠ .error .outOfSteps) : Reachable (c.eval steps e).2
  | call {c : Context} (h : c.Reachable) (steps : Nat) (name : String) (arguments : List Argument)
      (line : Nat) (hstop : (c.call steps name arguments line).1 ≠ .error .outOfSteps) :
      Reachable (c.call steps name arguments line).2

/-- An evaluation keeps the shape of the memory, in success and in failure. -/
theorem sameShape_eval (c : Context) (steps : Nat) (e : Expr)
    (hstop : (c.eval steps e).1 ≠ .error .outOfSteps) :
    c.memory.SameShape (c.eval steps e).2.memory :=
  of_keeps (Run.keeps_evaluate (c.program.shapelyCalls_call steps) e) c steps hstop

/-- A call keeps the shape, whatever its answer. -/
theorem sameShape_call (c : Context) (steps : Nat) (name : String) (arguments : List Argument)
    (line : Nat) (hstop : (c.call steps name arguments line).1 ≠ .error .outOfSteps) :
    c.memory.SameShape (c.call steps name arguments line).2.memory :=
  of_keeps (c.program.shapelyCalls_call steps name arguments line) c steps hstop

/-- A run of the program only adds places. -/
theorem grows_run (c : Context) (steps : Nat) (hstop : (c.run steps).1 ≠ .error .outOfSteps) :
    c.memory.Grows (c.run steps).2.memory :=
  of_keeps (c.program.keeps_run steps) c steps hstop

namespace Reachable

variable {c : Context}

/-- Between requests no call is running. -/
theorem frames_eq (h : c.Reachable) : c.memory.frames = #[] := by
  induction h with
  | fresh => rfl
  | declare h v ih => exact ih
  | @run c h steps hstop ih =>
    exact Array.eq_empty_of_size_eq_zero ((c.grows_run steps hstop).size.trans (by rw [ih]; rfl))
  | @eval c h steps e hstop ih =>
    exact Array.eq_empty_of_size_eq_zero
      ((c.sameShape_eval steps e hstop).size.trans (by rw [ih]; rfl))
  | @call c h steps name arguments line hstop ih =>
    exact Array.eq_empty_of_size_eq_zero
      ((c.sameShape_call steps name arguments line hstop).size.trans (by rw [ih]; rfl))

end Reachable

/-- Whatever is evaluated and whatever is called, in any context, also where calls are running, with
success or not: the memory keeps its shape.  A run of the program that a host asks for ends without
a call that is still running. -/
theorem keeps_shape (c : Context) (steps : Nat) :
    (∀ e, (c.eval steps e).1 ≠ .error .outOfSteps →
      c.memory.SameShape (c.eval steps e).2.memory) ∧
    (∀ name arguments line, (c.call steps name arguments line).1 ≠ .error .outOfSteps →
      c.memory.SameShape (c.call steps name arguments line).2.memory) ∧
    (c.Reachable → (c.run steps).1 ≠ .error .outOfSteps →
      (c.run steps).2.memory.frames = c.memory.frames) := by
  refine ⟨c.sameShape_eval steps, c.sameShape_call steps, fun h hstop => ?_⟩
  rw [(h.run steps hstop).frames_eq, h.frames_eq]

end Context

/-- The request was not stopped. -/
def Ended {α : Type} (result : Except Stop α) : Bool :=
  match result with
  | .error .outOfSteps => false
  | _ => true

/-- A request that has ended has not run out of steps. -/
theorem ne_of_ended {α : Type} {result : Except Stop α} (h : Ended result = true) :
    result ≠ .error .outOfSteps := by
  rintro rfl
  cases h

namespace Program

/-- The sample in its call, where the same routine is called once more, and the sample after its
run: an evaluation that fails at its argument, and another run. -/
theorem sampleText_keeps_shape : ∃ p, ofSource sampleText = .ok p ∧
    let inside := (p.runOn 15 (.ofInput [] none)).2
    let after := (p.runOn 100 (.ofInput [] none)).2
    inside.memory.frames.size = 1 ∧
    inside.memory.SameShape (inside.call 99 "bump" [.reference 1 "n"] 1).2.memory ∧
    after.memory.SameShape (after.eval 9 (.call 1 "bump" [.reference 1 "demo^x"])).2.memory ∧
    (after.run 100).2.memory.frames = after.memory.frames := by
  have hends : (ofSource sampleText).toOption.any (fun p =>
      let inside := (p.runOn 15 (.ofInput [] none)).2
      let after := (p.runOn 100 (.ofInput [] none)).2
      decide (inside.memory.frames.size = 1) &&
        Ended (inside.call 99 "bump" [.reference 1 "n"] 1).1 &&
        Ended (p.runOn 100 (.ofInput [] none)).1 &&
        Ended (after.eval 9 (.call 1 "bump" [.reference 1 "demo^x"])).1 &&
        Ended (after.run 100).1) = true := by decide +kernel
  obtain ⟨p, -, -, hp, -⟩ := exists_sample
  rw [hp] at hends
  simp only [Except.toOption, Option.any_some, Bool.and_eq_true, and_assoc] at hends
  obtain ⟨hinside, hcall, hfirst, heval, hagain⟩ := hends
  have hreachable := (Context.Reachable.fresh p (.ofInput [] none)).run 100 (ne_of_ended hfirst)
  exact ⟨p, hp, of_decide_eq_true hinside,
    (Context.keeps_shape _ 99).2.1 _ _ _ (ne_of_ended hcall),
    (Context.keeps_shape _ 9).1 _ (ne_of_ended heval),
    (Context.keeps_shape _ 100).2.2 hreachable (ne_of_ended hagain)⟩

end Program

end Primer
