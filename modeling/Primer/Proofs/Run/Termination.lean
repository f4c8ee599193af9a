import Primer.Proofs.Run.Bounds
import Primer.Proofs.Run.Safety
import Primer.Proofs.Scope.Surroundings

/-!
# Primer.Proofs.Run.Termination — without loops and recursion, every run ends.

`Forest.cost k` counts the steps that a forest makes if every construct is run once and no call in
it makes more than `k`.  A program without loops runs no construct of a body twice, and if no
routine calls itself, every call goes to a routine that stands before the one it is in.  So the
calls are bounded along the positions of their routines (`Forest.callCost`), and a run is bounded by
the program.

`Run.Within n x` says that a run started with at least `n` steps does not run out of them and uses
at most `n`.  The cost of an expression is a sum over its parts with `k` for each call; the cost of
a call of a routine is the cost of its body, with `k` the cost of a call of any routine before.  So
the bound is defined by recursion on the position of the routine, and the order of routines makes
the induction on positions go through.

Main statement: `Program.ofSource_terminates`.
-/

namespace Primer

namespace Run

variable {α β : Type} {n k line : Nat}

/-- Started with at least so many steps, the run comes to an end of its own and makes no more. -/
def Within (n : Nat) (x : Run α) : Prop :=
  ∀ m, n ≤ m.steps → (∀ m', x m ≠ .error .outOfSteps m') ∧ m.steps ≤ left (x m) + n

namespace Within

variable {x : Run α}

theorem mono (h : Within n x) (hle : n ≤ k) : Within k x := by
  intro m hm
  obtain ⟨hstop, hleft⟩ := h m (Nat.le_trans hle hm)
  exact ⟨hstop, by omega⟩

theorem pure (a : α) : Within 0 (Pure.pure a) :=
  fun _ _ => ⟨fun _ h => (by cases h), Nat.le_refl _⟩

theorem bind {f : α → Run β} (hx : Within n x) (hf : ∀ a, Within k (f a)) :
    Within (n + k) (x >>= f) := by
  intro m hm
  obtain ⟨hstop, hleft⟩ := hx m (by omega)
  show (∀ m', EStateM.bind x f m ≠ .error .outOfSteps m') ∧
    m.steps ≤ left (EStateM.bind x f m) + (n + k)
  unfold EStateM.bind
  cases hrun : x m with
  | ok a m₁ =>
    rw [hrun] at hleft
    have hleft₁ : m.steps ≤ m₁.steps + n := hleft
    obtain ⟨hstop', hleft'⟩ := hf a m₁ (by omega)
    exact ⟨hstop', by dsimp only; omega⟩
  | error stop m₁ =>
    rw [hrun] at hstop hleft
    refine ⟨fun m' heq => ?_, ?_⟩
    · cases heq
      exact hstop _ rfl
    · have hleft₁ : m.steps ≤ m₁.steps + n := hleft
      show m.steps ≤ m₁.steps + (n + k)
      omega

theorem tick : Within 1 Run.tick := by
  rintro ⟨memory, console, steps⟩ hsteps
  cases steps with
  | zero => exact absurd hsteps (by simp)
  | succ steps => exact ⟨fun _ h => (by cases h), Nat.le_refl _⟩

theorem afterTick {f : Unit → Run β} (h : Within n (f ())) : Within (1 + n) (Run.tick >>= f) :=
  tick.bind fun _ => h

/-! ## Memory and console -/

theorem atLine (result : Except Fault α) : Within 0 (Run.atLine line result) := by
  intro m _
  cases result with
  | ok a => exact ⟨fun _ h => (by cases h), Nat.le_refl _⟩
  | error fault => exact ⟨fun _ h => (by cases h), Nat.le_refl _⟩

/-- A check of the memory whose result is used. -/
theorem bindMemory (check : Memory → Except Fault α) {f : α → Run β} (hf : ∀ a, Within n (f a)) :
    Within n (do let s ← get; let a ← Run.atLine line (check s.memory); f a) := by
  intro m hm
  have hcheck : Within 0 (Run.atLine line (check m.memory)) := atLine _
  have h := hcheck.bind hf
  rw [Nat.zero_add] at h
  exact h m hm

theorem load (id : String) : Within 0 (Run.load id line) :=
  fun m hm => atLine (m.memory.load id) m hm

theorem store (id : String) (indices : List Integer) (value : Value) :
    Within 1 (Run.store id indices value line) := by
  intro m hm
  rw [store_run]
  cases m.memory.store id indices value with
  | error fault => exact ⟨fun _ h => (by cases h), Nat.le_succ _⟩
  | ok memory => exact tick { m with memory } hm

theorem declare (v : Variable) : Within 1 (Run.declare v) :=
  fun m hm => tick { m with memory := m.memory.declare v } hm

theorem readLine : Within 0 (Run.readLine line) := by
  intro m _
  rw [readLine_run]
  cases m.console.read with
  | ok read => exact ⟨fun _ h => (by cases h), Nat.le_refl _⟩
  | error cause => exact ⟨fun _ h => (by cases h), Nat.le_refl _⟩

theorem writeLine (text : String) : Within 0 (Run.writeLine text line) := by
  intro m _
  rw [writeLine_run]
  cases m.console.write text with
  | ok console => exact ⟨fun _ h => (by cases h), Nat.le_refl _⟩
  | error cause => exact ⟨fun _ h => (by cases h), Nat.le_refl _⟩

/-- A call makes a step when its frame is there and one when it is gone. -/
theorem inFrame {frame : Frame} {body : Run α} (h : Within n body) :
    Within (n + 2) (Run.inFrame frame body) := by
  intro m hm
  have hinside : Within (1 + n) (Run.tick >>= fun _ => body) := afterTick h
  obtain ⟨hstop, hleft⟩ := hinside { m with memory := m.memory.push frame } (by simp; omega)
  unfold Run.inFrame
  rw [seqRight_eq_bind]
  cases hrun : (Run.tick >>= fun _ => body) { m with memory := m.memory.push frame } with
  | ok a m₁ =>
    rw [hrun] at hleft
    have hleft₁ : m.steps ≤ m₁.steps + (1 + n) := hleft
    have hafter : Within 1 (Run.tick >>= fun _ => Pure.pure a) := afterTick (n := 0) (pure a)
    obtain ⟨hstop', hleft'⟩ := hafter { m₁ with memory := m₁.memory.pop } (by simp; omega)
    refine ⟨hstop', ?_⟩
    have hleft₂ : m₁.steps ≤ left ((Run.tick >>= fun _ => Pure.pure a)
      { m₁ with memory := m₁.memory.pop }) + 1 := hleft'
    dsimp only
    rw [seqRight_eq_bind]
    omega
  | error stop m₁ =>
    rw [hrun] at hstop hleft
    have hleft₁ : m.steps ≤ m₁.steps + (1 + n) := hleft
    cases stop with
    | error e =>
      refine ⟨fun _ h => (by cases h), ?_⟩
      show m.steps ≤ m₁.steps + (n + 2)
      omega
    | outOfSteps => exact absurd rfl (hstop m₁)

end Within

end Run

/-! ## What expressions and constructs cost -/

namespace Expr

mutual

/-- The steps of an expression if no call makes more than `k`, its arguments apart. -/
def cost (k : Nat) : Expr → Nat
  | literal .. | ident .. => 1
  | element _ _ indices => 1 + costList k indices
  | call _ _ arguments => 1 + (k + costArguments k arguments)
  | unary _ _ operand => 1 + cost k operand
  | binary _ _ left right => 1 + (cost k left + cost k right)

/-- The steps of a list of expressions. -/
def costList (k : Nat) : List Expr → Nat
  | [] => 0
  | e :: rest => cost k e + costList k rest

/-- The steps that the values among arguments make. -/
def costArguments (k : Nat) : List Argument → Nat
  | [] => 0
  | argument :: rest => costArgument k argument + costArguments k rest

/-- The steps of an argument. -/
def costArgument (k : Nat) : Argument → Nat
  | .value e => cost k e
  | .reference .. => 0

end

end Expr

/-- The steps of an initial value. -/
def Initializer.cost (k : Nat) : Initializer → Nat
  | computed e => e.cost k
  | fixed _ => 0

/-- The steps of a construct that is run once, apart from its body and its slots. -/
def Construct.cost (k : Nat) : Construct → Nat
  | declaration d => d.initializer.cost k + 1
  | assignment _ indices value => value.cost k + (Expr.costList k indices + 1)
  | loop _ condition | conditional _ condition _ _ | elseIf _ condition => condition.cost k
  | call _ arguments => k + Expr.costArguments k arguments
  | input _ indices => Expr.costList k indices + 1
  | output value | result (some value) => value.cost k
  | unit .. | entry _ | routine _ | otherwise _ | result none => 0

namespace Forest

/-- The steps of a forest whose constructs are all run once. -/
def cost (k : Nat) : Forest → Nat
  | nil => 0
  | cons c _ body slots rest =>
    1 + c.cost k + body.cost k + slots.cost k + rest.cost k

/-- The steps of a call, its arguments apart, if the routine stands before a position and every
call in a body goes to a routine that stands before the body. -/
def callCost (f : Forest) : Nat → Nat
  | 0 => 1
  | position + 1 => 3 + f.cost (f.callCost position)

theorem callCost_pos (f : Forest) (position : Nat) : 0 < f.callCost position := by
  cases position with
  | zero => exact Nat.zero_lt_one
  | succ position => rw [callCost]; omega

theorem cost_append (k : Nat) (f g : Forest) : (f.append g).cost k = f.cost k + g.cost k := by
  induction f with
  | nil => simp [append, cost]
  | cons c line body slots rest _ _ ih =>
    simp only [append, cost, ih]
    omega

end Forest

/-- The construct repeats nothing and calls none but these routines. -/
structure Construct.Plain (S : String → Prop) (c : Construct) : Prop where
  loop : ∀ scope condition, c ≠ .loop scope condition
  calls : ∀ name ∈ c.calls, S name

/-! ## Expressions -/

/-- A call of one of these routines that has enough steps makes no more than `k`, its arguments
apart.  Bounds of nesting are enough if they are at least the steps. -/
def Affords (calls : Calls) (S : String → Prop) (k bound : Nat) : Prop :=
  ∀ name arguments line, S name → (∀ other ∈ Expr.callsArguments arguments, S other) →
    k + Expr.costArguments k arguments ≤ bound →
    Run.Within (k + Expr.costArguments k arguments) (calls name arguments line)

/-- With a smaller bound less has to be afforded. -/
theorem Affords.mono {calls : Calls} {S : String → Prop} {k b bound : Nat}
    (h : Affords calls S k bound) (hle : b ≤ bound) : Affords calls S k b :=
  fun name arguments line hS hother hcost =>
    h name arguments line hS hother (Nat.le_trans hcost hle)

namespace Run

variable {calls : Calls} {S : String → Prop} {k bound : Nat}

mutual

/-- An expression takes the steps that it costs. -/
theorem within_evaluate (hcalls : Affords calls S k bound) :
    ∀ e : Expr, (∀ name ∈ e.calls, S name) → e.cost k ≤ bound →
      Within (e.cost k) (evaluate calls e)
  | .literal _ v, _, _ => by
    rw [evaluate]
    exact .afterTick (n := 0) (.pure v)
  | .ident line id, _, _ => by
    rw [evaluate]
    exact .afterTick (n := 0) (.load id)
  | .element line id indices, hS, hbound => by
    rw [Expr.cost] at hbound ⊢
    rw [evaluate]
    have hindices := within_evaluateIndices hcalls indices hS (by omega)
    exact .afterTick (hindices.bind fun path => (Within.load id).bind fun v => .atLine _)
  | .call line name arguments, hS, hbound => by
    rw [Expr.cost] at hbound ⊢
    rw [Expr.calls] at hS
    rw [evaluate]
    exact .afterTick (hcalls name arguments line (hS name List.mem_cons_self)
      (fun other hother => hS other (List.mem_cons_of_mem _ hother)) (by omega))
  | .unary line op operand, hS, hbound => by
    rw [Expr.cost] at hbound ⊢
    rw [evaluate]
    have hoperand := within_evaluate hcalls operand hS (by omega)
    exact .afterTick (hoperand.bind fun v => .atLine _)
  | .binary line op left right, hS, hbound => by
    rw [Expr.cost] at hbound ⊢
    rw [Expr.calls] at hS
    rw [evaluate]
    have hleft := within_evaluate hcalls left
      (fun name hname => hS name (List.mem_append_left _ hname)) (by omega)
    have hright := within_evaluate hcalls right
      (fun name hname => hS name (List.mem_append_right _ hname)) (by omega)
    exact .afterTick (hleft.bind fun v => hright.bind fun w => .atLine _)

theorem within_evaluateIndices (hcalls : Affords calls S k bound) :
    ∀ es : List Expr, (∀ name ∈ Expr.callsList es, S name) → Expr.costList k es ≤ bound →
      Within (Expr.costList k es) (evaluateIndices calls es)
  | [], _, _ => by
    rw [evaluateIndices]
    exact .pure []
  | e :: rest, hS, hbound => by
    rw [Expr.costList] at hbound ⊢
    rw [Expr.callsList] at hS
    rw [evaluateIndices]
    have he := within_evaluate hcalls e
      (fun name hname => hS name (List.mem_append_left _ hname)) (by omega)
    have hrest := within_evaluateIndices hcalls rest
      (fun name hname => hS name (List.mem_append_right _ hname)) (by omega)
    refine he.bind fun v => ?_
    have hindex : Within 0 (Run.atLine e.line v.asInteger) := .atLine _
    have hmore := hindex.bind fun index => hrest.bind fun more => .pure (index :: more)
    rwa [Nat.zero_add] at hmore

end

theorem within_truth (hcalls : Affords calls S k bound) {condition : Expr} (line : Nat)
    (hS : ∀ name ∈ condition.calls, S name) (hbound : condition.cost k ≤ bound) :
    Within (condition.cost k) (truth calls condition line) :=
  (within_evaluate hcalls condition hS hbound).bind fun _ => .atLine _

end Run

namespace Program

variable {p : Program} {o : Outline} {calls : Calls} {S : String → Prop} {k bound : Nat}

/-! ## Statements -/

/-- A statement of the program that has enough steps makes no more than it costs. -/
def Spends (p : Program) (S : String → Prop) (k bound : Nat) (statement : NodeId → Run Outcome) :
    Prop :=
  ∀ ⦃id : Nat⦄ ⦃c : Construct⦄ ⦃line : Nat⦄ ⦃body slots : Forest⦄,
    p.tree.Stands id c line body slots →
    (Forest.cons c line body slots .nil).All (Construct.Plain S) →
    (Forest.cons c line body slots .nil).cost k ≤ bound →
    Run.Within ((Forest.cons c line body slots .nil).cost k) (statement id)

theorem within_sequence {statement : NodeId → Run Outcome}
    (hstatement : p.Spends S k bound statement) {f : Forest} {owner : Option NodeId}
    {linkage : Forest.Linkage} {start : Nat}
    (hlays : p.tree.Lays owner linkage start f) (hplain : f.All (Construct.Plain S))
    (hbound : f.cost k ≤ bound) :
    Run.Within (f.cost k) (Run.sequence statement (f.roots start)) := by
  induction f generalizing linkage start with
  | nil => exact .pure _
  | cons c line body slots rest _ _ ih =>
    obtain ⟨hstands, hrest⟩ := hlays.parts
    obtain ⟨hc, hbody, hslots, hmore⟩ := hplain
    have hcost : (Forest.cons c line body slots rest).cost k
        = (Forest.cons c line body slots .nil).cost k + rest.cost k := rfl
    rw [hcost] at hbound ⊢
    rw [Forest.roots, Run.sequence]
    refine (hstatement hstands ⟨hc, hbody, hslots, trivial⟩ (by omega)).bind fun out => ?_
    cases out with
    | completed => exact ih hrest hmore (by omega)
    | returned v => exact (Run.Within.pure _).mono (Nat.zero_le _)

theorem within_block {statement : NodeId → Run Outcome} (hstatement : p.Spends S k bound statement)
    {id : Nat} {c : Construct} {line : Nat} {body slots : Forest}
    (hstands : p.tree.Stands id c line body slots) (hplain : body.All (Construct.Plain S))
    (hbound : body.cost k ≤ bound) : Run.Within (body.cost k) (p.block statement id) := by
  unfold block
  rw [hstands.children_eq]
  exact within_sequence hstatement hstands.inBody hplain hbound

/-- The further branches of a conditional: at most all conditions and one body. -/
theorem within_branches {statement : NodeId → Run Outcome} (hcalls : Affords calls S k bound)
    (hstatement : p.Spends S k bound statement) {f : Forest} {owner : Option NodeId} {start : Nat}
    (hlays : p.tree.Lays owner .slots start f) (hplain : f.All (Construct.Plain S))
    (hbound : f.cost k ≤ bound) {ids : List NodeId} {last : Option NodeId}
    (hroots : ids ++ last.toList = f.roots start) :
    Run.Within (f.cost k) (p.branches calls (p.block statement) last ids) := by
  induction f generalizing start ids with
  | nil =>
    obtain ⟨rfl, hlast⟩ := List.append_eq_nil_iff.1 hroots
    obtain rfl : last = none := Option.toList_eq_nil_iff.1 hlast
    exact .pure _
  | cons c line body slots rest _ _ ih =>
    obtain ⟨hstands, hrest⟩ := hlays.parts
    obtain ⟨hc, hbody, hslots, hmore⟩ := hplain
    rw [Forest.cost] at hbound ⊢
    have hinside := within_block hstatement hstands hbody (by omega)
    rw [Forest.roots] at hroots
    cases ids with
    | nil =>
      cases last with
      | none => cases hroots
      | some id =>
        cases (List.cons.inj hroots).1
        exact hinside.mono (by omega)
    | cons id ids =>
      obtain ⟨rfl, hroots'⟩ := List.cons.inj hroots
      have hothers := ih hrest hmore (by omega) hroots'
      -- A branch is counted for its condition, its body and all the branches behind it.
      obtain ⟨n, hn, rfl, -, -⟩ := hstands.node
      unfold branches
      split
      · rename_i scope condition line' _ _ _ _ heq
        cases hn.symm.trans heq
        rw [Construct.cost] at hbound ⊢
        refine ((Run.within_truth hcalls line' hc.calls (by omega)).bind
          (k := body.cost k + rest.cost k) fun holds => ?_).mono (by omega)
        cases holds with
        | true => exact hinside.mono (by omega)
        | false => exact hothers.mono (by omega)
      · exact hothers.mono (by omega)

theorem within_input (target : String) (path : List Integer) (line : Nat) :
    Run.Within 1 (input target path line) := by
  unfold input
  refine .bindMemory (·.addressedType target path.length) fun type => ?_
  cases type with
  | scalar expected =>
    refine (Run.Within.readLine.bind fun text => ?_).mono (k := 1) (Nat.le_refl (0 + 1))
    exact ((Run.Within.atLine _).bind fun v => .store target path v).mono (Nat.le_refl (0 + 1))
  | array element dimensions => exact (Run.Within.atLine _).mono (Nat.zero_le _)

/-- Every statement of a program makes no more steps than it costs. -/
theorem spends_execute (hcalls : Affords calls S k bound) {b : Nat} (hb : b ≤ bound) :
    p.Spends S k b (p.execute calls b) := by
  induction b with
  | zero =>
    intro id c line body slots _ _ hcost
    rw [Forest.cost] at hcost
    omega
  | succ b ih =>
    intro id c line body slots hstands ⟨hc, hbody, hslots, _⟩ hcost
    have hnames := hc.calls
    have hinside (hle : body.cost k ≤ b) : Run.Within (body.cost k)
        (p.block (p.execute calls b) id) := within_block (ih (by omega)) hstands hbody hle
    have hslots_eq := hstands.slots_eq
    have hinSlots := hstands.inSlots
    obtain ⟨n, hn, hconstruct, rfl, -⟩ := hstands.node
    rw [Forest.cost] at hcost ⊢
    rw [execute]
    -- one step is the tick of the statement itself, and the rest is for its parts
    refine (Run.Within.afterTick (n := c.cost k + body.cost k + slots.cost k) ?_).mono (by omega)
    rw [hn]
    dsimp only
    rw [hconstruct]
    cases c with
    | declaration d =>
      have hdeclare (v : Value) : Run.Within 1 (do
          let value ← Run.atLine n.line (v.coerce d.type)
          Run.declare { type := d.type, name := d.name, id := d.id, value }
          return Outcome.completed) :=
        (Run.Within.atLine (v.coerce d.type)).bind (k := 1) fun value =>
          (Run.Within.declare _).bind (k := 0) fun _ => .pure _
      rw [Construct.cost] at hcost ⊢
      dsimp only
      obtain ⟨type, name, declared, initializer⟩ := d
      cases initializer with
      | computed e =>
        have he := Run.within_evaluate hcalls e hnames (by rw [Initializer.cost] at hcost; omega)
        exact (he.bind hdeclare).mono (by rw [Initializer.cost]; omega)
      | fixed v => exact (hdeclare v).mono (by omega)
    | assignment target indices value =>
      rw [Construct.cost] at hcost ⊢
      rw [Construct.calls] at hnames
      have hvalue := Run.within_evaluate hcalls value
        (fun name hname => hnames name (List.mem_append_right _ hname)) (by omega)
      have hindices := Run.within_evaluateIndices hcalls indices
        (fun name hname => hnames name (List.mem_append_left _ hname)) (by omega)
      refine (hvalue.bind fun v => hindices.bind (k := 1) fun path => ?_).mono (by omega)
      exact (Run.Within.store target path v).bind (k := 0) fun _ => .pure _
    | loop scope condition => exact absurd rfl (hc.loop scope condition)
    | conditional scope condition elseIfs last =>
      rw [Construct.cost] at hcost ⊢
      -- only one branch is run, but the cost counts them all, and so either way is covered
      have hbranches := within_branches (hcalls.mono (by omega)) (ih (by omega)) hinSlots hslots
        (by omega) hslots_eq
      have hcondition := Run.within_truth hcalls n.line hnames (by omega)
      refine (hcondition.bind (k := body.cost k + slots.cost k) fun holds => ?_).mono (by omega)
      cases holds with
      | true => exact (hinside (by omega)).mono (by omega)
      | false => exact hbranches.mono (by omega)
    | call name arguments =>
      rw [Construct.cost] at hcost ⊢
      rw [Construct.calls] at hnames
      have hcall := hcalls name arguments n.line (hnames name List.mem_cons_self)
        (fun other hother => hnames other (List.mem_cons_of_mem _ hother)) (by omega)
      exact (hcall.bind (k := 0) fun _ => .pure _).mono (by omega)
    | input target indices =>
      rw [Construct.cost] at hcost ⊢
      have hindices := Run.within_evaluateIndices hcalls indices hnames (by omega)
      refine (hindices.bind (k := 1) fun path => ?_).mono (by omega)
      exact (within_input target path n.line).bind (k := 0) fun _ => .pure _
    | output value =>
      rw [Construct.cost] at hcost ⊢
      have hvalue := Run.within_evaluate hcalls value hnames (by omega)
      refine (hvalue.bind (k := 0) fun v => ?_).mono (by omega)
      exact (Run.Within.writeLine v.text).bind (k := 0) fun _ => .pure _
    | result value =>
      cases value with
      | none => exact (Run.Within.pure _).mono (Nat.zero_le _)
      | some value =>
        rw [Construct.cost] at hcost ⊢
        have hvalue := Run.within_evaluate hcalls value hnames (by omega)
        exact (hvalue.bind (k := 0) fun v => .pure _).mono (by omega)
    | entry | elseIf | otherwise => exact (hinside (by omega)).mono (by omega)
    | unit | routine => exact (Run.Within.pure _).mono (Nat.zero_le _)

/-! ## Calls -/

theorem within_bind (hcalls : Affords calls S k bound) (routine : String) (parameter : Parameter)
    (argument : Argument) (hS : ∀ name ∈ Expr.callsArgument argument, S name)
    (hbound : Expr.costArgument k argument ≤ bound) :
    Run.Within (Expr.costArgument k argument) (bind calls routine parameter argument) := by
  cases argument with
  | value e =>
    refine (Run.within_evaluate hcalls e hS hbound).bind (k := 0) fun v => ?_
    exact (Run.Within.atLine _).bind (k := 0) fun w => .pure _
  | reference line id =>
    refine .bindMemory (·.find id) fun slot => ?_
    obtain ⟨place, type, old⟩ := slot
    dsimp only
    split
    · exact .pure _
    · exact .atLine _

theorem within_bindAll (hcalls : Affords calls S k bound) (routine : String)
    (parameters : List Parameter) (arguments : List Argument) (table : Table Binding)
    (hS : ∀ name ∈ Expr.callsArguments arguments, S name)
    (hbound : Expr.costArguments k arguments ≤ bound) :
    Run.Within (Expr.costArguments k arguments)
      (bindAll calls routine parameters arguments table) := by
  induction arguments generalizing parameters table with
  | nil =>
    cases parameters <;> exact .pure _
  | cons argument rest ih =>
    cases parameters with
    | nil => exact (Run.Within.pure _).mono (Nat.zero_le _)
    | cons parameter more =>
      rw [Expr.costArguments] at hbound ⊢
      rw [Expr.callsArguments] at hS
      unfold bindAll
      refine (within_bind hcalls routine parameter argument
        (fun name hname => hS name (List.mem_append_left _ hname)) (by omega)).bind fun b => ?_
      exact ih more _ (fun name hname => hS name (List.mem_append_right _ hname)) (by omega)

/-- The routine of this name, if there is one, stands before a position. -/
def StandsBefore (p : Program) (position : Nat) (name : String) : Prop :=
  ∀ r, p.routines.get? name = some r → r.node < position

/-- A program that repeats nothing, and whose routines call only routines that stand before them. -/
structure Ordered (p : Program) (o : Outline) : Prop where
  means : p.Means o
  loop : ∀ id scope condition, p.tree.construct? id ≠ some (.loop scope condition)
  calls : ∀ ⦃r Γ⦄, o.Declares r Γ → ∀ line body slots,
    p.tree.Seats Γ r.node (.routine r.heading) line body slots →
    body.All fun c => ∀ name ∈ c.calls, p.StandsBefore r.node name

namespace Ordered

/-- A part of the program whose calls go to such routines is plain. -/
theorem plain (h : p.Ordered o) {owner : Option NodeId} {linkage : Forest.Linkage} {start : Nat}
    {f : Forest} (hlays : p.tree.Lays owner linkage start f)
    (hcalls : f.All fun c => ∀ name ∈ c.calls, S name) : f.All (Construct.Plain S) := by
  have hloop : f.All fun c => ∀ scope condition, c ≠ .loop scope condition :=
    hlays.all fun id c _ _ hc scope condition heq => h.loop id scope condition (heq ▸ hc)
  exact (hloop.and hcalls).imp fun c hc => ⟨hc.1, hc.2⟩

/-- The routine of a name is one of the items, and its body costs no more than all that there is. -/
theorem routine (h : p.Ordered o) {name : String} {r : Routine}
    (hget : p.routines.get? name = some r) : ∃ line body slots,
      p.tree.Stands r.node (.routine r.heading) line body slots ∧
      body.All (Construct.Plain (p.StandsBefore r.node)) ∧ ∀ k, body.cost k ≤ o.forest.cost k := by
  obtain ⟨before, line, body, slots, after, hitems, hnode, hseats⟩ := h.means.exists_item hget
  have hcalls := h.calls ⟨before, line, body, slots, after, hitems, hnode, rfl⟩ line body slots
    hseats
  refine ⟨line, body, slots, hseats.stands, h.plain hseats.stands.inBody hcalls, fun k => ?_⟩
  have hcost : o.items.cost k = before.cost k
      + (Forest.cons (.routine r.heading) line body slots after).cost k := by
    rw [hitems, Forest.cost_append]
  rw [Forest.cost] at hcost
  rw [Outline.forest, Forest.cost]
  omega

/-- A call of a routine that stands before a position makes no more steps than that position
allows.  The induction is on the position, and for each position on the bound: the arguments of a
call are evaluated with one less. -/
theorem affords_call (h : p.Ordered o) (position bound : Nat) :
    Affords (p.call bound) (p.StandsBefore position) (o.forest.callCost position) bound := by
  induction position generalizing bound with
  | zero =>
    intro name arguments line hname _ hbound
    have hpos := o.forest.callCost_pos 0
    obtain ⟨b, rfl⟩ : ∃ b, bound = b + 1 := ⟨bound - 1, by omega⟩
    rw [call]
    refine (Run.Within.afterTick (n := 0) ?_).mono (by omega)
    cases hget : p.routines.get? name with
    | none => exact .atLine _
    | some r => exact absurd (hname r hget) (Nat.not_lt_zero _)
  | succ position ihp =>
    induction bound with
    | zero =>
      intro name arguments line _ _ hbound
      have hpos := o.forest.callCost_pos (position + 1)
      omega
    | succ bound ihb =>
      intro name arguments line hname harguments hbound
      have hcost : o.forest.callCost (position + 1)
          = 3 + o.forest.cost (o.forest.callCost position) := rfl
      generalize o.forest.callCost (position + 1) = total at *
      rw [call]
      refine (Run.Within.afterTick (n := Expr.costArguments total arguments
        + (o.forest.cost (o.forest.callCost position) + 2)) ?_).mono (by omega)
      cases hget : p.routines.get? name with
      | none => exact (Run.Within.atLine _).mono (Nat.zero_le _)
      | some r =>
        obtain ⟨line', body, slots, hstands, hplain, hle⟩ := h.routine hget
        have hbefore : r.node ≤ position := Nat.le_of_lt_succ (hname r hget)
        -- what the body calls stands before the routine, so before the smaller position
        have hplain' : body.All (Construct.Plain (p.StandsBefore position)) :=
          hplain.imp fun c hc => ⟨hc.loop, fun other hother q hq =>
            Nat.lt_of_lt_of_le (hc.calls other hother q hq) hbefore⟩
        have hbody := within_block (spends_execute (ihp bound) (Nat.le_refl bound)) hstands hplain'
          (Nat.le_trans (hle _) (by omega))
        have hbind := within_bindAll ihb name r.heading.parameters arguments .empty harguments
          (by omega)
        dsimp only
        split
        · refine hbind.bind fun table => ?_
          refine ((hbody.mono (hle _)).inFrame).bind (k := 0) fun out => ?_
          exact .atLine _
        · exact (Run.Within.atLine _).mono (Nat.zero_le _)

/-- The items that are run are run once. -/
theorem within_runAll {statement : NodeId → Run Outcome}
    (hstatement : p.Spends S k bound statement) {f : Forest} {owner : Option NodeId}
    {linkage : Forest.Linkage} {start : Nat} (hlays : p.tree.Lays owner linkage start f)
    (hplain : f.All (Construct.Plain S)) (hbound : f.cost k ≤ bound) :
    Run.Within (f.cost k)
      (runAll statement ((f.roots start).filter (!p.isRoutine ·))) := by
  induction f generalizing linkage start with
  | nil => exact .pure _
  | cons c line body slots rest _ _ ih =>
    obtain ⟨hstands, hrest⟩ := hlays.parts
    obtain ⟨hc, hbody, hslots, hmore⟩ := hplain
    have hcost : (Forest.cons c line body slots rest).cost k
        = (Forest.cons c line body slots .nil).cost k + rest.cost k := rfl
    rw [hcost] at hbound ⊢
    have hothers := ih hrest hmore (by omega)
    rw [Forest.roots, List.filter_cons]
    split
    · rw [runAll]
      exact (hstatement hstands ⟨hc, hbody, hslots, trivial⟩ (by omega)).bind fun out => hothers
    · exact hothers.mono (by omega)

/-- A run makes at most so many steps. -/
theorem within_run (h : p.Ordered o) {bound : Nat}
    (hbound : o.forest.cost (o.forest.callCost p.tree.size) ≤ bound) :
    Run.Within (o.forest.cost (o.forest.callCost p.tree.size)) (p.run bound) := by
  generalize hk : o.forest.callCost p.tree.size = k at *
  have hspends : p.Spends (p.StandsBefore p.tree.size) k bound
      (p.execute (p.call bound) bound) :=
    spends_execute (hk ▸ h.affords_call p.tree.size bound) (Nat.le_refl bound)
  have hplain : o.forest.All (Construct.Plain (p.StandsBefore p.tree.size)) := by
    refine h.plain h.means.lays (h.means.lays.all fun id c _ _ _ name _ r hget => ?_)
    obtain ⟨line, body, slots, hstands, -⟩ := h.routine hget
    exact Tree.lt_size_of_construct? hstands.construct?_eq
  obtain ⟨-, hitems, ⟨-, hbody, -⟩, -⟩ := hplain
  have hcost : o.items.cost k + o.body.cost k ≤ o.forest.cost k := by
    simp only [Outline.forest, Forest.cost, Forest.block]
    omega
  unfold run
  dsimp only
  rw [h.means.root, h.means.children_unit, h.means.entryBlock_eq]
  have hrunItems := within_runAll hspends h.means.lays.parts.1.inBody hitems (by omega)
  have hrunBody := within_block hspends h.means.stands_entry hbody (by omega)
  refine (hrunItems.bind (k := o.body.cost k) fun _ => ?_).mono hcost
  exact hrunBody.bind (k := 0) fun _ => .pure _

end Ordered

/-- Without loops and calls of routines in their own bodies, a program is ordered. -/
theorem Means.ordered (h : p.Means o)
    (hloop : ∀ id scope condition, p.tree.construct? id ≠ some (.loop scope condition))
    (hself : ∀ id heading, p.tree.construct? id = some (.routine heading) →
      ¬ p.tree.CallsUnder id heading.name) : p.Ordered o := by
  refine ⟨h, hloop, fun r Γ hr line body slots hseats => ?_⟩
  refine (h.all_calls hr hseats).imp fun c hc name hname r' hget => ?_
  obtain ⟨hunder, heading, hcallable⟩ := hc name hname
  unfold Env.callable? at hcallable
  split at hcallable
  -- the routine was complete before this one
  · rename_i earlier hearlier
    have hname' : earlier.heading.name = name := by simpa using List.find?_some hearlier
    obtain ⟨before, _, _, _, _, hitems, hnode, rfl⟩ := hr
    rcases Env.mem_routines_afterAll (List.mem_of_find?_eq_some hearlier) with hmem | hitem
    · cases hmem
    obtain ⟨first, line', body', slots', later, rfl, hnode'⟩ := hitem
    rw [Forest.append_assoc] at hitems
    have hdeclares : o.Declares earlier (o.start.afterAll 1 first) :=
      ⟨first, line', body', slots', _, hitems, hnode', rfl⟩
    have hfound := (h.seats_routine hdeclares).1
    rw [hname', hget] at hfound
    cases hfound
    rw [hnode', hnode, Forest.size_append, Forest.size]
    exact Nat.add_lt_add_left (by omega) 1
  · obtain ⟨heq, hname'⟩ := Option.filter_eq_some_iff.1 hcallable
    cases heq
    have hsame : r.heading.name = name := eq_of_beq hname'
    exact absurd (hsame ▸ hunder) (hself r.node r.heading hseats.stands.construct?_eq)

/-- A program without loops whose routines do not call themselves comes to an end on every console,
and the number of steps that it makes, one at least for every statement that is executed and every
expression that is evaluated, is bounded by the program alone.  For what the body of a routine calls
is the routine itself or stands before it. -/
theorem ofSource_terminates {source : String} (h : ofSource source = .ok p)
    (hloop : ∀ id scope condition, p.tree.construct? id ≠ some (.loop scope condition))
    (hself : ∀ id heading, p.tree.construct? id = some (.routine heading) →
      ¬ p.tree.CallsUnder id heading.name) :
    (∀ id around name, p.tree.construct? id = some (.routine around) →
      p.tree.CallsUnder id name → ∃ id' heading, id' ≤ id ∧
        p.tree.construct? id' = some (.routine heading) ∧ heading.name = name) ∧
    ∃ N, ∀ (console : Console) (steps : Nat), N ≤ steps →
      (p.runOn steps console).1 ≠ .error .outOfSteps ∧
        steps ≤ Run.left (p.run steps { memory := .empty, console, steps }) + N := by
  obtain ⟨o, hmeans⟩ := ofSource_means h
  refine ⟨fun id around name haround hcalls => hmeans.exists_of_callsUnder haround hcalls, ?_⟩
  have hordered := hmeans.ordered hloop hself
  refine ⟨o.forest.cost (o.forest.callCost p.tree.size), fun console steps hsteps => ?_⟩
  obtain ⟨hstop, hleft⟩ := hordered.within_run hsteps { memory := .empty, console, steps } hsteps
  refine ⟨fun hout => ?_, hleft⟩
  rw [runOn_eq] at hout
  cases hrun : p.run steps { memory := .empty, console, steps } with
  | ok a m =>
    rw [hrun] at hout
    cases hout
  | error stop m =>
    rw [hrun] at hout
    cases hout
    exact hstop m hrun

/-- A procedure with a condition that calls a function, and is called with a value of that
function. -/
def orderedText : String :=
  "module m; function public twice(in integer n) : integer return n + n; end twice;\n" ++
  "procedure public show(in integer n) if n > 0 then output twice(n); end if; end show;\n" ++
  "beginning call show(twice(3)); end m."

/-- The construct at a node is no loop, and no routine that is called under its own node. -/
def isOrderedAt (p : Program) (id : NodeId) : Bool :=
  match p.tree.construct? id with
  | some (.loop ..) => false
  | some (.routine heading) => (List.range p.tree.size).all fun k =>
      !((p.tree.ancestors k).contains id &&
        (p.tree.construct? k).any (·.calls.contains heading.name))
  | _ => true

/-- The program repeats nothing, and its procedure is called and calls the function. -/
theorem exists_ordered : ∃ p, ofSource orderedText = .ok p ∧
    (∀ id scope condition, p.tree.construct? id ≠ some (.loop scope condition)) ∧
    (∀ id heading, p.tree.construct? id = some (.routine heading) →
      ¬ p.tree.CallsUnder id heading.name) ∧
    (∃ around, p.tree.construct? 3 = some (.routine around)) ∧ p.tree.CallsUnder 3 "twice" := by
  -- The program is read once, and everything is asked of it in one closed computation.
  have hall : (ofSource orderedText).toOption.any (fun p =>
      (List.range p.tree.size).all p.isOrderedAt && p.isRoutine 3 &&
        (p.tree.ancestors 5).contains 3 &&
        (p.tree.construct? 5).any (·.calls.contains "twice")) = true := by decide +kernel
  cases hp : ofSource orderedText with
  | error e =>
    rw [hp] at hall
    cases hall
  | ok p =>
    rw [hp] at hall
    simp only [Except.toOption, Option.any_some, Bool.and_eq_true, and_assoc] at hall
    obtain ⟨hordered, hroutine, haround, hcalls⟩ := hall
    have hat : ∀ id c, p.tree.construct? id = some c → p.isOrderedAt id = true :=
      fun id c hc =>
        List.all_eq_true.1 hordered id (List.mem_range.2 (Tree.lt_size_of_construct? hc))
    refine ⟨p, rfl, fun id scope condition hc => ?_, fun id heading hc hunder => ?_, ?_, ?_⟩
    · have hno := hat id _ hc
      unfold isOrderedAt at hno
      rw [hc] at hno
      cases hno
    · obtain ⟨k, c, hid, hk, hname⟩ := hunder
      have hno := hat id _ hc
      unfold isOrderedAt at hno
      rw [hc] at hno
      have hk' := List.all_eq_true.1 hno k (List.mem_range.2 (Tree.lt_size_of_construct? hk))
      rw [hk] at hk'
      simp [hid, hname] at hk'
    · cases hc : p.tree.construct? 3 with
      | none =>
        rw [isRoutine, hc] at hroutine
        cases hroutine
      | some c =>
        obtain ⟨heading, rfl⟩ := exists_of_isRoutine hc hroutine
        exact ⟨heading, rfl⟩
    · obtain ⟨c, hc, hname⟩ := (Option.any_eq_true _ _).1 hcalls
      exact ⟨5, c, List.contains_iff_mem.1 haround, hc, List.contains_iff_mem.1 hname⟩

/-- A function that calls an earlier one, without loops. -/
theorem orderedText_terminates : ∃ p, ofSource orderedText = .ok p ∧
    (∃ id' heading, id' ≤ 3 ∧ p.tree.construct? id' = some (.routine heading) ∧
      heading.name = "twice") ∧
    ∃ N, ∀ (console : Console) (steps : Nat), N ≤ steps →
      (p.runOn steps console).1 ≠ .error .outOfSteps := by
  obtain ⟨p, hp, hloop, hself, ⟨around, haround⟩, hcalls⟩ := exists_ordered
  obtain ⟨hearlier, N, hN⟩ := ofSource_terminates hp hloop hself
  exact ⟨p, hp, hearlier 3 around "twice" haround hcalls,
    N, fun console steps hsteps => (hN console steps hsteps).1⟩

end Program

end Primer
