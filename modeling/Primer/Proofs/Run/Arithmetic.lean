import Primer.Proofs.Run.Constants

/-!
# Primer.Proofs.Run.Arithmetic — arithmetic on integers is exact, or it fails where it first must.

An expression of integer literals, variables that hold integers, negation and the four operations
has a value in whole numbers without bounds, unless something in it is divided by zero
(`Expr.whole?`).  Its parts are computed one after another, operands first and from left to right.
The first part whose divisor is zero or whose value is out of range is where the evaluation fails
(`Expr.firstFault?`); if there is none, it answers the exact value.

An evaluation of such an expression does not change the memory, so it has one answer, whatever the
number of steps, as long as they suffice (`Run.SettlesIn`).  The answer is computed along the
expression as an `Except` value; `Expr.Computes` says that this value is the exact one or the fault
of the first part that has one.  The cases for a negation and for an operation show that nothing is
looked at behind the first fault.

Main statement: `Context.computesExactly`.
-/

namespace Primer

/-- The whole number that a variable or parameter holds. -/
def Memory.whole? (m : Memory) (id : String) : Option Int :=
  match m.load id with
  | .ok (.integer i) => some i.val
  | _ => none

/-- The operation is one of the four on numbers. -/
def BinaryOp.IsArithmetic : BinaryOp → Prop
  | add | subtract | multiply | divide => True
  | _ => False

namespace Expr

/-! ## Whole numbers -/

/-- Integer literals, variables that hold integers, and what negation and the four operations make
of them. -/
inductive IsWhole (m : Memory) : Expr → Prop
  | literal (line : Nat) (i : Integer) : IsWhole m (.literal line (.integer i))
  | variable (line : Nat) {id : String} {i : Integer} (h : m.load id = .ok (.integer i)) :
      IsWhole m (.ident line id)
  | negation (line : Nat) {operand : Expr} (h : IsWhole m operand) :
      IsWhole m (.unary line .negate operand)
  | operation (line : Nat) {op : BinaryOp} {left right : Expr} (hop : op.IsArithmetic)
      (hleft : IsWhole m left) (hright : IsWhole m right) :
      IsWhole m (.binary line op left right)

/-- The value in whole numbers without bounds, quotients going toward zero.  There is none if
something is divided by zero. -/
def whole? (m : Memory) : Expr → Option Int
  | literal _ (.integer i) => some i.val
  | ident _ id => m.whole? id
  | unary _ .negate operand => (whole? m operand).map (-·)
  | binary _ op left right =>
    (whole? m left).bind fun a => (whole? m right).bind fun b => op.whole? a b
  | _ => none

/-- The parts of an expression in the order in which they are computed: operands first and from left
to right. -/
def postorder : Expr → List Expr
  | unary line op operand => postorder operand ++ [unary line op operand]
  | binary line op left right => postorder left ++ postorder right ++ [binary line op left right]
  | e => [e]

/-- The part is a quotient whose divisor is zero. -/
def dividesByZero (m : Memory) : Expr → Bool
  | binary _ .divide _ right => whole? m right == some 0
  | _ => false

/-- Why the part cannot be computed, if its operands can. -/
def fault? (m : Memory) (part : Expr) : Option Fault :=
  if part.dividesByZero m then some .divisionByZero
  else (part.whole? m).bind fun n =>
    if -2147483648 ≤ n ∧ n ≤ 2147483647 then none else some .overflow

/-- The first fault among the parts, at the line of its part. -/
def firstFault? (m : Memory) (e : Expr) : Option RuntimeError :=
  e.postorder.findSome? fun part => (part.fault? m).map (⟨·, part.line⟩)

/-- The answer is the first fault, or else the exact value. -/
def Computes (m : Memory) (e : Expr) (answer : Except RuntimeError Value) : Prop :=
  match e.firstFault? m with
  | some fault => answer = .error fault
  | none => ∃ i : Integer, answer = .ok (.integer i) ∧ e.whole? m = some i.val

variable {m : Memory} {e left right operand : Expr} {answer answer' : Except RuntimeError Value}
  {line : Nat} {op : BinaryOp}

/-- Either there is a fault and it is the answer, or there is none and the answer is exact. -/
theorem Computes.cases (h : e.Computes m answer) :
    (∃ fault, e.firstFault? m = some fault ∧ answer = .error fault) ∨
    ∃ i : Integer, e.firstFault? m = none ∧ answer = .ok (.integer i) ∧
      e.whole? m = some i.val := by
  unfold Computes at h
  split at h
  · exact .inl ⟨_, ‹_›, h⟩
  · obtain ⟨i, hanswer, hi⟩ := h
    exact .inr ⟨i, ‹_›, hanswer, hi⟩

theorem Computes.unique (h : e.Computes m answer) (h' : e.Computes m answer') :
    answer = answer' := by
  obtain ⟨fault, hfault, rfl⟩ | ⟨i, hfault, rfl, hi⟩ := h.cases
  · rw [Computes, hfault] at h'
    exact h'.symm
  · rw [Computes, hfault] at h'
    obtain ⟨j, rfl, hj⟩ := h'
    obtain rfl : i = j := Integer.ext (Option.some.inj (hi.symm.trans hj))
    rfl

/-! ## One part after another -/

/-- The fault of the expression itself, at its line. -/
def ownFault? (m : Memory) (e : Expr) : Option RuntimeError :=
  (e.fault? m).map (⟨·, e.line⟩)

theorem firstFault?_unary (m : Memory) (line : Nat) (op : UnaryOp) (operand : Expr) :
    (unary line op operand).firstFault? m
      = (operand.firstFault? m).or ((unary line op operand).ownFault? m) := by
  unfold firstFault?
  rw [postorder, List.findSome?_append]
  congr 1
  cases h : (unary line op operand).fault? m <;> simp [ownFault?, h]

/-- The left operand fails before the right one, and both before the operation. -/
theorem firstFault?_binary (m : Memory) (line : Nat) (op : BinaryOp) (left right : Expr) :
    (binary line op left right).firstFault? m
      = ((left.firstFault? m).or (right.firstFault? m)).or
          ((binary line op left right).ownFault? m) := by
  unfold firstFault?
  rw [postorder, List.findSome?_append, List.findSome?_append]
  congr 1
  cases h : (binary line op left right).fault? m <;> simp [ownFault?, h]

/-- A leaf is an integer already. -/
theorem computes_leaf {i : Integer} (hparts : e.postorder = [e])
    (hdivides : e.dividesByZero m = false) (hexact : e.whole? m = some i.val) :
    e.Computes m (.ok (.integer i)) := by
  have hfault : e.firstFault? m = none := by
    have hrange := And.intro i.lower i.upper
    simp [firstFault?, hparts, fault?, hdivides, hexact, hrange]
  rw [Computes, hfault]
  exact ⟨i, rfl, hexact⟩

/-- What a part comes to whose operands have been computed: its exact value, or an overflow. -/
theorem ownFault?_of_exact {n : Int} (hdivides : e.dividesByZero m = false)
    (hexact : e.whole? m = some n) :
    match e.ownFault? m with
    | some fault => Except.reported e.line (Integer.orOverflow (Integer.ofInt? n)) = .error fault
    | none => ∃ i : Integer, Except.reported e.line (Integer.orOverflow (Integer.ofInt? n))
        = .ok (.integer i) ∧ e.whole? m = some i.val := by
  have hown : e.ownFault? m
      = if -2147483648 ≤ n ∧ n ≤ 2147483647 then none else some ⟨.overflow, e.line⟩ := by
    rw [ownFault?, fault?, hdivides, if_neg Bool.false_ne_true, hexact, Option.bind_some]
    split <;> rfl
  rw [hown]
  by_cases hn : -2147483648 ≤ n ∧ n ≤ 2147483647
  · rw [if_pos hn]
    have hgate : Integer.ofInt? n = some ⟨n, hn.1, hn.2⟩ := Integer.ofInt?_eq_some_iff.2 rfl
    exact ⟨⟨n, hn.1, hn.2⟩, by rw [hgate]; rfl, hexact⟩
  · rw [if_neg hn]
    have hgate : Integer.ofInt? n = none := Integer.ofInt?_eq_none_iff.2 (by omega)
    show Except.reported e.line (Integer.orOverflow (Integer.ofInt? n)) = .error ⟨.overflow, e.line⟩
    rw [hgate]
    rfl

/-- A negation is computed from its operand, or fails with it. -/
theorem computes_negation (h : operand.Computes m answer) :
    (unary line .negate operand).Computes m
      (do Except.reported line (UnaryOp.negate.apply (← answer))) := by
  rw [Computes, firstFault?_unary]
  obtain ⟨fault, hfault, rfl⟩ | ⟨i, hfault, rfl, hi⟩ := h.cases
  · rw [hfault]
    rfl
  · have hexact : (unary line .negate operand).whole? m = some (-i.val) := by
      rw [whole?, hi]
      rfl
    rw [hfault]
    exact ownFault?_of_exact rfl hexact

/-- An operation on two integers: the quotient by zero is the only one without a value. -/
theorem computes_integers {i j : Integer} (hop : op.IsArithmetic)
    (hi : left.whole? m = some i.val) (hj : right.whole? m = some j.val) :
    match (binary line op left right).ownFault? m with
    | some fault => Except.reported line (op.apply (.integer i) (.integer j)) = .error fault
    | none => ∃ k : Integer, Except.reported line (op.apply (.integer i) (.integer j))
        = .ok (.integer k) ∧ (binary line op left right).whole? m = some k.val := by
  have hexact : (binary line op left right).whole? m = op.whole? i.val j.val := by
    rw [whole?, hi, hj]
    rfl
  by_cases hzero : op = .divide ∧ j.val = 0
  · obtain ⟨rfl, hzero⟩ := hzero
    have hdivides : (binary line .divide left right).dividesByZero m = true := by
      rw [dividesByZero, hj, hzero]
      rfl
    rw [ownFault?, fault?, if_pos hdivides]
    simp [BinaryOp.apply, BinaryOp.arithmetic, BinaryOp.arithmetic?, BinaryOp.onIntegers?, hzero,
      Except.reported, Except.mapError, Expr.line]
  · have hdivides : (binary line op left right).dividesByZero m = false := by
      cases op with
      | divide => simpa [dividesByZero, hj] using hzero
      | _ => rfl
    obtain ⟨n, hn⟩ : ∃ n, op.whole? i.val j.val = some n := by
      cases op with
      | add | subtract | multiply => exact ⟨_, rfl⟩
      | divide => exact ⟨_, if_neg fun hj => hzero ⟨rfl, hj⟩⟩
      | _ => exact hop.elim
    rw [BinaryOp.apply_integers hn]
    exact ownFault?_of_exact hdivides (hexact.trans hn)

/-- An operation is computed from its operands, or fails with the first that does. -/
theorem computes_operation (hop : op.IsArithmetic) (hleft : left.Computes m answer)
    (hright : right.Computes m answer') :
    (binary line op left right).Computes m (do
      let v ← answer
      let w ← answer'
      Except.reported line (op.apply v w)) := by
  rw [Computes, firstFault?_binary]
  obtain ⟨fault, hfault, rfl⟩ | ⟨i, hfault, rfl, hi⟩ := hleft.cases
  · rw [hfault]
    rfl
  obtain ⟨fault, hfault', rfl⟩ | ⟨j, hfault', rfl, hj⟩ := hright.cases
  · rw [hfault, hfault']
    rfl
  · rw [hfault, hfault']
    exact computes_integers hop hi hj

end Expr

/-! ## Evaluation -/

namespace Run

variable {α β : Type}

/-- Started in this memory, the run answers this and leaves the memory as it was, if it does not run
out of steps. -/
def SettlesIn (memory : Memory) (x : Run α) (r : Except RuntimeError α) : Prop :=
  ∀ m : Machine, m.memory = memory → match x m with
    | .ok a m' => r = .ok a ∧ m'.memory = memory
    | .error (.error e) _ => r = .error e
    | .error .outOfSteps _ => True

namespace SettlesIn

variable {memory : Memory} {x : Run α} {r : Except RuntimeError α} {line : Nat}

theorem pure (a : α) : SettlesIn memory (Pure.pure a) (.ok a) := fun _ hm => ⟨rfl, hm⟩

theorem atLine (result : Except Fault α) :
    SettlesIn memory (Run.atLine line result) (Except.reported line result) := by
  intro m hm
  cases result with
  | ok a => exact ⟨rfl, hm⟩
  | error fault => exact rfl

theorem load (id : String) :
    SettlesIn memory (Run.load id line) (Except.reported line (memory.load id)) := by
  rintro m rfl
  exact atLine (m.memory.load id) m rfl

/-- One part after another: the second is not looked at where the first fails. -/
theorem bind {f : α → Run β} {g : α → Except RuntimeError β} (hx : SettlesIn memory x r)
    (hf : ∀ a, SettlesIn memory (f a) (g a)) : SettlesIn memory (x >>= f) (r >>= g) := by
  intro m hm
  have h := hx m hm
  show match EStateM.bind x f m with
    | .ok b m' => r >>= g = .ok b ∧ m'.memory = memory
    | .error (.error e) _ => r >>= g = .error e
    | .error .outOfSteps _ => True
  unfold EStateM.bind
  cases hrun : x m with
  | ok a m₁ =>
    rw [hrun] at h
    obtain ⟨rfl, hm₁⟩ := h
    exact hf a m₁ hm₁
  | error stop m₁ =>
    rw [hrun] at h
    cases stop with
    | error e =>
      subst h
      rfl
    | outOfSteps => trivial

/-- A step in front changes nothing but the number of steps left. -/
theorem afterTick {f : Unit → Run α} (hf : SettlesIn memory (f ()) r) :
    SettlesIn memory (Run.tick >>= f) r := by
  rintro ⟨_, console, steps⟩ rfl
  cases steps with
  | zero => trivial
  | succ steps => exact hf _ rfl

end SettlesIn

end Run

namespace Expr.IsWhole

variable {m : Memory} {e : Expr}

/-- There are no calls in such an expression. -/
theorem calls_eq_nil (h : e.IsWhole m) : e.calls = [] := by
  induction h with
  | literal | «variable» => simp [calls]
  | negation _ _ ih => simp [calls, ih]
  | operation _ _ _ _ ihleft ihright => simp [calls, ihleft, ihright]

/-- The evaluator computes the parts one after another, and stops at the first fault. -/
theorem settlesIn (h : e.IsWhole m) (calls : Calls) :
    ∃ answer, e.Computes m answer ∧ Run.SettlesIn m (Run.evaluate calls e) answer := by
  induction h with
  | literal line i =>
    refine ⟨_, computes_leaf (i := i) rfl rfl rfl, ?_⟩
    rw [Run.evaluate]
    exact .afterTick (.pure _)
  | @«variable» line id i hload =>
    have hexact : (ident line id).whole? m = some i.val := by
      rw [whole?, Memory.whole?, hload]
    refine ⟨_, computes_leaf rfl rfl hexact, ?_⟩
    rw [Run.evaluate]
    have hsettles : Run.SettlesIn m (Run.load id line) (Except.reported line (m.load id)) :=
      .load id
    rw [hload] at hsettles
    exact .afterTick hsettles
  | negation line _ ih =>
    obtain ⟨answer, hcomputes, hsettles⟩ := ih
    refine ⟨_, computes_negation hcomputes, ?_⟩
    rw [Run.evaluate]
    exact .afterTick (hsettles.bind fun v => .atLine _)
  | operation line hop _ _ ihleft ihright =>
    obtain ⟨answer, hcomputes, hsettles⟩ := ihleft
    obtain ⟨answer', hcomputes', hsettles'⟩ := ihright
    refine ⟨_, computes_operation hop hcomputes hcomputes', ?_⟩
    rw [Run.evaluate]
    exact .afterTick (hsettles.bind fun v => hsettles'.bind fun w => .atLine _)

end Expr.IsWhole

namespace Context

/-- In this context the expression has one answer, which some number of steps reaches: the first
fault of its parts, or else this value. -/
def ComputesExactly (c : Context) (e : Expr) (value : Option Int) : Prop :=
  ∃ answer : Except RuntimeError Value,
    (∃ steps, (c.eval steps e).1 = answer.mapError .error) ∧
    (∀ steps other, (c.eval steps e).1 = Except.mapError .error other → other = answer) ∧
    match e.firstFault? c.memory with
    | some fault => answer = .error fault
    | none => ∃ i : Integer, answer = .ok (.integer i) ∧ value = some i.val

/-- A request with one answer gives it, or runs out of steps. -/
theorem serve_of_settlesIn {α : Type} (c : Context) (steps : Nat) {x : Run α}
    {r : Except RuntimeError α} (hx : x.SettlesIn c.memory r) :
    (c.serve steps x).1 = r.mapError .error ∨ (c.serve steps x).1 = .error .outOfSteps := by
  have hend := hx { memory := c.memory, console := c.console, steps } rfl
  unfold serve EStateM.run
  cases hrun : x { memory := c.memory, console := c.console, steps } with
  | ok a m =>
    rw [hrun] at hend
    obtain ⟨rfl, -⟩ := hend
    exact .inl rfl
  | error stop m =>
    rw [hrun] at hend
    cases stop with
    | error e =>
      subst hend
      exact .inl rfl
    | outOfSteps => exact .inr rfl

/-- Arithmetic on integers is exact, or fails at the first part that cannot be computed. -/
theorem computesExactly (c : Context) {e : Expr} (h : e.IsWhole c.memory) :
    c.ComputesExactly e (e.whole? c.memory) := by
  -- no step count changes what the calls do, since there are none
  obtain ⟨answer, hcomputes, -⟩ := h.settlesIn (c.program.call 0)
  have hserve (steps : Nat) : (c.eval steps e).1 = answer.mapError .error ∨
      (c.eval steps e).1 = .error .outOfSteps := by
    obtain ⟨answer', hcomputes', hsettles⟩ := h.settlesIn (c.program.call steps)
    obtain rfl := hcomputes.unique hcomputes'
    exact c.serve_of_settlesIn steps hsettles
  have haffords : Affords (c.program.call (e.cost 0)) (fun _ => False) 0 (e.cost 0) :=
    fun _ _ _ hnone => hnone.elim
  have hwithin := Run.within_evaluate haffords e (by simp [h.calls_eq_nil]) le_rfl
  refine ⟨answer, ⟨e.cost 0, (hserve _).resolve_right (c.serve_ne_outOfSteps hwithin)⟩, ?_,
    hcomputes⟩
  intro steps other hother
  rcases hserve steps with hanswer | hstop
  · have hsame := hanswer.symm.trans hother
    cases answer <;> cases other <;> cases hsame <;> rfl
  · have hstopped := hstop.symm.trans hother
    cases other <;> cases hstopped

end Context

end Primer
