import Primer.Proofs.Run.Triple

/-!
# Primer.Proofs.Run.Bounds — the bounds never end a run before its steps do.

`execute`, `call` and `repeatWhile` go by a bound, and every level below makes a step first.  So two
runs whose bounds are at least the steps that may still be made are the same run.  `Run.Agree n x y`
says that two runs are the same when they are started with at most `n` steps, and that no step is
gained on the way; it goes through all ways of composing runs, and a step lowers `n`.

So the bounds are no more than a way to define the recursion: a run on `steps` steps may be given
any bound from `steps` on.  The proofs follow the definitions; where a level makes its step,
`Agree.step` is used, and everywhere else `Agree.bind`.  The other side, that a bound of the number
of steps suffices, is how `Program.runOn` and `Context.call` choose theirs.

Main statement: `Program.agree_run`.
-/

namespace Primer

namespace Run

variable {α β : Type}

/-- The steps that are left behind a run. -/
def left : EStateM.Result Stop Machine α → Nat
  | .ok _ m => m.steps
  | .error _ m => m.steps

/-- Started with at most so many steps, the two runs come to the same end and gain no steps. -/
def Agree (n : Nat) (x y : Run α) : Prop :=
  ∀ m, m.steps ≤ n → x m = y m ∧ left (x m) ≤ m.steps

namespace Agree

variable {n k line : Nat} {x y : Run α} {f g : α → Run β}

theorem mono (h : Agree n x y) (hle : k ≤ n) : Agree k x y :=
  fun m hm => h m (Nat.le_trans hm hle)

theorem pure (a : α) : Agree n (Pure.pure a) (Pure.pure a) := fun _ _ => ⟨rfl, Nat.le_refl _⟩

/-- Two runs that are composed of the same two parts. -/
theorem bind (hx : Agree n x y) (hf : ∀ a, Agree n (f a) (g a)) : Agree n (x >>= f) (y >>= g) := by
  intro m hm
  obtain ⟨heq, hleft⟩ := hx m hm
  show EStateM.bind x f m = EStateM.bind y g m ∧ left (EStateM.bind x f m) ≤ m.steps
  unfold EStateM.bind
  rw [← heq]
  cases hrun : x m with
  | ok a m₁ =>
    rw [hrun] at hleft
    have hle : m₁.steps ≤ m.steps := hleft
    obtain ⟨hsame, hmore⟩ := hf a m₁ (Nat.le_trans hle hm)
    exact ⟨hsame, Nat.le_trans hmore hle⟩
  | error stop m₁ =>
    rw [hrun] at hleft
    exact ⟨rfl, hleft⟩

/-! ## Steps -/

theorem tick : Agree n Run.tick Run.tick := by
  rintro ⟨memory, console, steps⟩ -
  cases steps with
  | zero => exact ⟨rfl, Nat.le_refl _⟩
  | succ k => exact ⟨rfl, Nat.le_succ k⟩

theorem afterTick {f g : Unit → Run β} (h : Agree n (f ()) (g ())) :
    Agree n (Run.tick >>= f) (Run.tick >>= g) :=
  tick.bind fun _ => h

/-- A step leaves less to agree on. -/
theorem step {f g : Unit → Run β} (h : Agree n (f ()) (g ())) :
    Agree (n + 1) (Run.tick >>= f) (Run.tick >>= g) := by
  rintro ⟨memory, console, steps⟩ hsteps
  cases steps with
  | zero => exact ⟨rfl, Nat.le_refl _⟩
  | succ k =>
    have hk : k ≤ n := Nat.le_of_succ_le_succ hsteps
    obtain ⟨hsame, hleft⟩ := h { memory, console, steps := k } hk
    exact ⟨hsame, Nat.le_succ_of_le hleft⟩

/-- Without steps, a run that begins with one is the same as one that may not begin. -/
theorem exhausted (hx : ∀ m, m.steps = 0 → x m = .error .outOfSteps m)
    (hy : ∀ m, m.steps = 0 → y m = .error .outOfSteps m) : Agree 0 x y := by
  intro m hm
  have hzero : m.steps = 0 := Nat.le_zero.1 hm
  rw [hx m hzero, hy m hzero]
  exact ⟨rfl, Nat.le_refl _⟩

end Agree

theorem tick_exhausted {f : Unit → Run β} {m : Machine} (h : m.steps = 0) :
    (Run.tick >>= f) m = .error .outOfSteps m := by
  obtain ⟨memory, console, steps⟩ := m
  obtain rfl : steps = 0 := h
  rfl

namespace Agree

variable {n line : Nat}

/-! ## Memory and console -/

theorem atLine (result : Except Fault α) :
    Agree n (Run.atLine line result) (Run.atLine line result) := by
  intro m _
  cases result with
  | ok a => exact ⟨rfl, Nat.le_refl _⟩
  | error fault => exact ⟨rfl, Nat.le_refl _⟩

/-- A check of the memory whose result is used. -/
theorem bindMemory (check : Memory → Except Fault α) {f g : α → Run β}
    (hf : ∀ a, Agree n (f a) (g a)) :
    Agree n (do let s ← get; let a ← Run.atLine line (check s.memory); f a)
      (do let s ← get; let a ← Run.atLine line (check s.memory); g a) :=
  fun m hm => bind (atLine (check m.memory)) hf m hm

theorem load (id : String) : Agree n (Run.load id line) (Run.load id line) :=
  fun m hm => atLine (m.memory.load id) m hm

theorem store (id : String) (indices : List Integer) (value : Value) :
    Agree n (Run.store id indices value line) (Run.store id indices value line) := by
  refine fun m hm => ⟨rfl, ?_⟩
  rw [store_run]
  cases m.memory.store id indices value with
  | error fault => exact Nat.le_refl _
  | ok memory => exact (tick { m with memory } hm).2

theorem declare (v : Variable) : Agree n (Run.declare v) (Run.declare v) :=
  fun m hm => tick { m with memory := m.memory.declare v } hm

theorem readLine : Agree n (Run.readLine line) (Run.readLine line) := by
  refine fun m _ => ⟨rfl, ?_⟩
  rw [readLine_run]
  cases m.console.read with
  | ok read => exact Nat.le_refl _
  | error cause => exact Nat.le_refl _

theorem writeLine (text : String) :
    Agree n (Run.writeLine text line) (Run.writeLine text line) := by
  refine fun m _ => ⟨rfl, ?_⟩
  rw [writeLine_run]
  cases m.console.write text with
  | ok console => exact Nat.le_refl _
  | error cause => exact Nat.le_refl _

theorem inFrame {frame : Frame} {body body' : Run α} (h : Agree n body body') :
    Agree n (Run.inFrame frame body) (Run.inFrame frame body') := by
  intro m hm
  have hinside : Agree n (Run.tick >>= fun _ => body) (Run.tick >>= fun _ => body') := afterTick h
  obtain ⟨heq, hleft⟩ := hinside { m with memory := m.memory.push frame } hm
  unfold Run.inFrame
  rw [seqRight_eq_bind, seqRight_eq_bind, ← heq]
  refine ⟨rfl, ?_⟩
  cases hrun : (Run.tick >>= fun _ => body) { m with memory := m.memory.push frame } with
  | ok a m₁ =>
    rw [hrun] at hleft
    have hle : m₁.steps ≤ m.steps := hleft
    have hafter : Agree n (Run.tick >>= fun _ => Pure.pure a) (Run.tick >>= fun _ => Pure.pure a) :=
      afterTick (pure a)
    have hmore := (hafter { m₁ with memory := m₁.memory.pop } (Nat.le_trans hle hm)).2
    exact Nat.le_trans hmore hle
  | error stop m₁ =>
    rw [hrun] at hleft
    cases stop with
    | error e => exact hleft
    | outOfSteps => exact hleft

end Agree

/-! ## Expressions -/

/-- All calls agree. -/
def AgreeCalls (n : Nat) (calls calls' : Calls) : Prop :=
  ∀ name arguments line, Agree n (calls name arguments line) (calls' name arguments line)

/-- Fewer steps are easier to agree on, for all calls. -/
theorem AgreeCalls.mono {n k : Nat} {calls calls' : Calls} (h : AgreeCalls n calls calls')
    (hle : k ≤ n) : AgreeCalls k calls calls' :=
  fun name arguments line => (h name arguments line).mono hle

variable {n : Nat} {calls calls' : Calls}

mutual

/-- Expressions agree if the calls in them do. -/
theorem agree_evaluate (hcalls : AgreeCalls n calls calls') :
    ∀ e : Expr, Agree n (evaluate calls e) (evaluate calls' e)
  | .literal _ v => by
    rw [evaluate, evaluate]
    exact .afterTick (.pure v)
  | .ident line id => by
    rw [evaluate, evaluate]
    exact .afterTick (.load id)
  | .element line id indices => by
    rw [evaluate, evaluate]
    refine .afterTick (.bind (agree_evaluateIndices hcalls indices) fun path => ?_)
    exact .bind (.load id) fun v => .atLine _
  | .call line name arguments => by
    rw [evaluate, evaluate]
    exact .afterTick (hcalls name arguments line)
  | .unary line op operand => by
    rw [evaluate, evaluate]
    exact .afterTick (.bind (agree_evaluate hcalls operand) fun v => .atLine _)
  | .binary line op left right => by
    rw [evaluate, evaluate]
    refine .afterTick (.bind (agree_evaluate hcalls left) fun v => ?_)
    exact .bind (agree_evaluate hcalls right) fun w => .atLine _

theorem agree_evaluateIndices (hcalls : AgreeCalls n calls calls') :
    ∀ es : List Expr, Agree n (evaluateIndices calls es) (evaluateIndices calls' es)
  | [] => by
    rw [evaluateIndices, evaluateIndices]
    exact .pure []
  | e :: rest => by
    rw [evaluateIndices, evaluateIndices]
    refine .bind (agree_evaluate hcalls e) fun v => .bind (.atLine _) fun index => ?_
    exact .bind (agree_evaluateIndices hcalls rest) fun more => .pure _

end

theorem agree_truth (hcalls : AgreeCalls n calls calls') (condition : Expr) (line : Nat) :
    Agree n (truth calls condition line) (truth calls' condition line) :=
  .bind (agree_evaluate hcalls condition) fun _ => .atLine _

/-! ## Statements -/

theorem agree_sequence {statement statement' : NodeId → Run Outcome}
    (h : ∀ id, Agree n (statement id) (statement' id)) (ids : List NodeId) :
    Agree n (sequence statement ids) (sequence statement' ids) := by
  induction ids with
  | nil => exact .pure _
  | cons id rest ih =>
    rw [sequence, sequence]
    refine .bind (h id) fun out => ?_
    cases out with
    | completed => exact ih
    | returned v => exact .pure _

/-- A loop makes a step each time round, so a bound that is at least the steps is never met. -/
theorem agree_repeatWhile {condition condition' : Run Bool} {body body' : Run Outcome} {b b' : Nat}
    (hcondition : Agree n condition condition') (hbody : Agree n body body') (hb : n ≤ b)
    (hb' : n ≤ b') :
    Agree n (repeatWhile condition body b) (repeatWhile condition' body' b') := by
  induction n generalizing b b' with
  | zero =>
    have hexhausted (c : Run Bool) (x : Run Outcome) (bound : Nat) (m : Machine)
        (hm : m.steps = 0) : repeatWhile c x bound m = .error .outOfSteps m := by
      cases bound with
      | zero => rfl
      | succ bound => exact tick_exhausted hm
    exact .exhausted (hexhausted _ _ b) (hexhausted _ _ b')
  | succ n ih =>
    obtain ⟨c, rfl⟩ : ∃ c, b = c + 1 := ⟨b - 1, by omega⟩
    obtain ⟨c', rfl⟩ : ∃ c', b' = c' + 1 := ⟨b' - 1, by omega⟩
    rw [repeatWhile, repeatWhile]
    have hless : n ≤ n + 1 := Nat.le_succ n
    refine .step (.bind (hcondition.mono hless) fun holds => ?_)
    cases holds with
    | false => exact .pure _
    | true =>
      refine .bind (hbody.mono hless) fun out => ?_
      cases out with
      | completed =>
        exact ih (hcondition.mono hless) (hbody.mono hless) (by omega) (by omega)
      | returned v => exact .pure _

end Run

namespace Program

open Run (Agree AgreeCalls)

variable (p : Program) {n : Nat} {calls calls' : Calls}

theorem agree_input (target : String) (path : List Integer) (line : Nat) :
    Agree n (input target path line) (input target path line) := by
  unfold input
  refine .bindMemory (·.addressedType target path.length) fun type => ?_
  cases type with
  | scalar expected =>
    exact .bind .readLine fun text => .bind (.atLine _) fun v => .store target path v
  | array element dimensions => exact .atLine _

theorem agree_branches (hcalls : AgreeCalls n calls calls') {body body' : NodeId → Run Outcome}
    (hbody : ∀ id, Agree n (body id) (body' id)) (last : Option NodeId) (ids : List NodeId) :
    Agree n (p.branches calls body last ids) (p.branches calls' body' last ids) := by
  induction ids with
  | nil =>
    unfold branches
    cases last with
    | none => exact .pure _
    | some id => exact hbody id
  | cons id rest ih =>
    unfold branches
    split
    · refine .bind (Run.agree_truth hcalls _ _) fun holds => ?_
      cases holds with
      | true => exact hbody id
      | false => exact ih
    · exact ih

/-- Two bounds that are both at least the steps make no difference. -/
theorem agree_execute (hcalls : AgreeCalls n calls calls') {b b' : Nat} (hb : n ≤ b) (hb' : n ≤ b')
    (id : NodeId) : Agree n (p.execute calls b id) (p.execute calls' b' id) := by
  induction n generalizing b b' id with
  | zero =>
    -- without a step left, both runs stop before they look at their bounds
    have hexhausted (calls : Calls) (bound : Nat) (m : Machine) (hm : m.steps = 0) :
        p.execute calls bound id m = .error .outOfSteps m := by
      cases bound with
      | zero => rfl
      | succ bound => exact Run.tick_exhausted hm
    exact .exhausted (hexhausted calls b) (hexhausted calls' b')
  | succ n ih =>
    obtain ⟨c, rfl⟩ : ∃ c, b = c + 1 := ⟨b - 1, by omega⟩
    obtain ⟨c', rfl⟩ : ∃ c', b' = c' + 1 := ⟨b' - 1, by omega⟩
    have hcalls' : AgreeCalls n calls calls' := hcalls.mono (Nat.le_succ n)
    -- one step is taken by the statement itself, so its parts have one step less and one bound less
    have hbody (id : NodeId) :
        Agree n (p.block (p.execute calls c) id) (p.block (p.execute calls' c') id) :=
      Run.agree_sequence (ih hcalls' (by omega) (by omega)) _
    rw [execute, execute]
    refine .step ?_
    cases p.tree.node? id with
    | none => exact .pure _
    | some node =>
      dsimp only
      cases node.construct with
      | declaration d =>
        dsimp only
        cases d.initializer with
        | computed e =>
          refine .bind (Run.agree_evaluate hcalls' e) fun v => .bind (.atLine _) fun w => ?_
          exact .bind (.declare _) fun _ => .pure _
        | fixed v =>
          refine .bind (.pure v) fun v => .bind (.atLine _) fun w => ?_
          exact .bind (.declare _) fun _ => .pure _
      | assignment target indices value =>
        refine .bind (Run.agree_evaluate hcalls' value) fun v => ?_
        refine .bind (Run.agree_evaluateIndices hcalls' indices) fun path => ?_
        exact .bind (.store target path v) fun _ => .pure _
      | loop scope condition =>
        exact Run.agree_repeatWhile (Run.agree_truth hcalls' _ _) (hbody id) (by omega) (by omega)
      | conditional scope condition elseIfs last =>
        refine .bind (Run.agree_truth hcalls' _ _) fun holds => ?_
        cases holds with
        | true => exact hbody id
        | false => exact p.agree_branches hcalls' hbody last elseIfs
      | call name arguments => exact .bind (hcalls' name arguments node.line) fun _ => .pure _
      | input target indices =>
        refine .bind (Run.agree_evaluateIndices hcalls' indices) fun path => ?_
        exact .bind (agree_input target path node.line) fun _ => .pure _
      | output value =>
        refine .bind (Run.agree_evaluate hcalls' value) fun v => ?_
        exact .bind (.writeLine v.text) fun _ => .pure _
      | result value =>
        cases value with
        | none => exact .pure _
        | some value => exact .bind (Run.agree_evaluate hcalls' value) fun v => .pure _
      | entry | elseIf | otherwise => exact hbody id
      | unit | routine => exact .pure _

/-! ## Calls -/

theorem agree_bind (hcalls : AgreeCalls n calls calls') (routine : String) (parameter : Parameter)
    (argument : Argument) :
    Agree n (bind calls routine parameter argument) (bind calls' routine parameter argument) := by
  cases argument with
  | value e =>
    exact .bind (Run.agree_evaluate hcalls e) fun v => .bind (.atLine _) fun w => .pure _
  | reference line id =>
    refine .bindMemory (·.find id) fun slot => ?_
    obtain ⟨place, type, old⟩ := slot
    dsimp only
    split
    · exact .pure _
    · exact .atLine _

theorem agree_bindAll (hcalls : AgreeCalls n calls calls') (routine : String)
    (parameters : List Parameter) (arguments : List Argument) (table : Table Binding) :
    Agree n (bindAll calls routine parameters arguments table)
      (bindAll calls' routine parameters arguments table) := by
  induction parameters generalizing arguments table with
  | nil =>
    unfold bindAll
    exact .pure _
  | cons parameter more ih =>
    cases arguments with
    | nil => exact .pure _
    | cons argument rest =>
      unfold bindAll
      exact .bind (agree_bind hcalls routine parameter argument) fun binding => ih rest _

/-- Two bounds that are both large enough for the steps give the same calls. -/
theorem agree_call {b b' : Nat} (hb : n ≤ b) (hb' : n ≤ b') :
    AgreeCalls n (p.call b) (p.call b') := by
  induction n generalizing b b' with
  | zero =>
    intro name arguments line
    have hexhausted (bound : Nat) (m : Machine) (hm : m.steps = 0) :
        p.call bound name arguments line m = .error .outOfSteps m := by
      cases bound with
      | zero => rfl
      | succ bound => exact Run.tick_exhausted hm
    exact .exhausted (hexhausted b) (hexhausted b')
  | succ n ih =>
    intro name arguments line
    obtain ⟨c, rfl⟩ : ∃ c, b = c + 1 := ⟨b - 1, by omega⟩
    obtain ⟨c', rfl⟩ : ∃ c', b' = c' + 1 := ⟨b' - 1, by omega⟩
    have hc : n ≤ c := Nat.le_of_succ_le_succ hb
    have hc' : n ≤ c' := Nat.le_of_succ_le_succ hb'
    have hdeeper := ih hc hc'
    rw [call, call]
    refine .step ?_
    cases p.routines.get? name with
    | none => exact .atLine _
    | some r =>
      dsimp only
      split
      · refine .bind (agree_bindAll hdeeper _ _ _ _) fun table => ?_
        have hbody := Run.agree_sequence (p.agree_execute hdeeper hc hc') (p.tree.children r.node)
        exact .bind (.inFrame hbody) fun out => .atLine _
      · exact .atLine _

/-! ## Whole programs -/

theorem agree_runAll {statement statement' : NodeId → Run Outcome}
    (h : ∀ id, Agree n (statement id) (statement' id)) (ids : List NodeId) :
    Agree n (runAll statement ids) (runAll statement' ids) := by
  induction ids with
  | nil => exact .pure _
  | cons id rest ih =>
    rw [runAll, runAll]
    exact .bind (h id) fun out => ih

/-- A run does not depend on its bound, as long as that is at least its steps. -/
theorem agree_run {b b' : Nat} (hb : n ≤ b) (hb' : n ≤ b') : Agree n (p.run b) (p.run b') := by
  have hstatement := p.agree_execute (p.agree_call hb hb') hb hb'
  unfold run
  refine .bind (agree_runAll hstatement _) fun _ => ?_
  cases p.entry? with
  | none => exact .pure _
  | some entry => exact .bind (Run.agree_sequence hstatement _) fun out => .pure _

end Program

end Primer
