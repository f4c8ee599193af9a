import Primer.Context
import Primer.Proofs.Run.Termination
import Primer.Proofs.Value.Exact

/-!
# Primer.Proofs.Run.Constants — constants at run time and as sizes of arrays.

A constant is computed twice: by the reader of a program where it is a size, and by the evaluator.
It touches neither memory nor console, so what it comes to depends on nothing else
(`Expr.Yields`, `Context.eval_iff`).  The evaluator stays in 32 bits and gives up where a part
overflows; the reader computes in 64.  Main statement: `Grammar.arraySize_iff_eval`.

`Expr.Yields` computes a constant without a machine, along the expression.  That the evaluator does
the same is `Run.settles_evaluate`, and with enough steps it does it to the end.  The two
computations then differ in one thing: an integer out of range.  Where the evaluator gives an
integer the reader computes the same one, and where it overflows the reader goes on
(`gives_or_overflows_of_amounts`).
-/

namespace Primer

/-! ## What a constant comes to -/

/-- What a check gives, with its fault reported at a line. -/
def Except.reported {α : Type} (line : Nat) (x : Except Fault α) : Except RuntimeError α :=
  x.mapError (⟨·, line⟩)

namespace Expr

/-- Literals, and what negation and the operators make of them. -/
inductive IsConstant : Expr → Prop
  | literal (line : Nat) (v : Value) : IsConstant (.literal line v)
  | negation (line : Nat) {operand : Expr} (h : IsConstant operand) :
      IsConstant (.unary line .negate operand)
  | operation (line : Nat) (op : BinaryOp) {left right : Expr} (hleft : IsConstant left)
      (hright : IsConstant right) : IsConstant (.binary line op left right)

/-- What a constant comes to, operands first and from left to right. -/
inductive Yields : Expr → Except RuntimeError Value → Prop
  | literal (line : Nat) (v : Value) : Yields (.literal line v) (.ok v)
  | negation (line : Nat) {operand : Expr} {r : Except RuntimeError Value}
      (h : Yields operand r) :
      Yields (.unary line .negate operand) (do Except.reported line (UnaryOp.negate.apply (← r)))
  | operation (line : Nat) (op : BinaryOp) {left right : Expr} {r r' : Except RuntimeError Value}
      (hleft : Yields left r) (hright : Yields right r') :
      Yields (.binary line op left right) (do
        let v ← r
        let w ← r'
        Except.reported line (op.apply v w))

variable {e : Expr} {r : Except RuntimeError Value} {n : Int}

/-- A constant comes to something, be it a fault. -/
theorem IsConstant.exists_yields (h : e.IsConstant) : ∃ r, e.Yields r := by
  induction h with
  | literal line v => exact ⟨_, .literal line v⟩
  | negation line _ ih =>
    obtain ⟨r, hr⟩ := ih
    exact ⟨_, .negation line hr⟩
  | operation line op _ _ ihleft ihright =>
    obtain ⟨r, hr⟩ := ihleft
    obtain ⟨r', hr'⟩ := ihright
    exact ⟨_, .operation line op hr hr'⟩

theorem Yields.calls_eq_nil (h : e.Yields r) : e.calls = [] := by
  induction h with
  | literal => simp [calls]
  | negation _ _ ih => simp [calls, ih]
  | operation _ _ _ _ ihleft ihright => simp [calls, ihleft, ihright]

end Expr

/-! ## Its integers -/

/-- The answer is this integer. -/
def Gives (r : Except RuntimeError Value) (n : Int) : Prop :=
  ∃ i : Integer, r = .ok (.integer i) ∧ i.val = n

/-- The answer is an overflow. -/
def Overflows (r : Except RuntimeError Value) : Prop := ∃ line, r = .error ⟨.overflow, line⟩

theorem gives_reported_iff {line : Nat} {x : Except Fault Value} {n : Int} :
    Gives (Except.reported line x) n ↔ ∃ i : Integer, x = .ok (.integer i) ∧ i.val = n := by
  cases x <;> simp [Gives, Except.reported, Except.mapError]

/-- What two parts in a row give is what the second gives. -/
theorem gives_bind_iff {r : Except RuntimeError Value} {f : Value → Except RuntimeError Value}
    {n : Int} : Gives (r >>= f) n ↔ ∃ v, r = .ok v ∧ Gives (f v) n := by
  cases r <;> simp [Gives, bind, Except.bind]

/-- A whole number is an integer or overflows. -/
theorem gives_or_overflows (n : Int) (line : Nat) :
    Gives (Except.reported line (Integer.orOverflow (Integer.ofInt? n))) n ∨
      Overflows (Except.reported line (Integer.orOverflow (Integer.ofInt? n))) := by
  cases h : Integer.ofInt? n with
  | some i => exact .inl (gives_reported_iff.2 ⟨i, rfl, Integer.ofInt?_eq_some_iff.1 h⟩)
  | none => exact .inr ⟨line, rfl⟩

/-- A whole number is given if it is in range of the language. -/
theorem gives_orOverflow_iff {n m : Int} {line : Nat} :
    Gives (Except.reported line (Integer.orOverflow (Integer.ofInt? n))) m ↔
      n = m ∧ InBits 32 m := by
  rw [gives_reported_iff]
  constructor
  · rintro ⟨i, hi, rfl⟩
    obtain ⟨a, ha, rfl⟩ := Integer.orOverflow_eq_ok_iff.1 hi
    cases ha
    exact ⟨rfl, i.inBits⟩
  · rintro ⟨rfl, hn⟩
    obtain ⟨hlower, hupper⟩ := inBits_32_iff.1 hn
    exact ⟨⟨n, hlower, hupper⟩, Integer.orOverflow_eq_ok_iff.2 ⟨_, rfl, rfl⟩, rfl⟩

namespace Expr.Yields

variable {e : Expr} {r : Except RuntimeError Value} {n : Int}

/-- An integer is what the expression amounts to in 32 bits. -/
theorem gives_iff (h : e.Yields r) : Gives r n ↔ e.Amounts 32 n := by
  induction h generalizing n with
  | literal line v =>
    rw [amounts_literal_iff]
    constructor
    · rintro ⟨i, hi, rfl⟩
      cases hi
      exact ⟨i, rfl, rfl, i.inBits⟩
    · rintro ⟨i, rfl, hi, -⟩
      exact ⟨i, rfl, hi⟩
  | negation line _ ih =>
    rw [amounts_unary_iff, gives_bind_iff, ← ih]
    constructor
    · rintro ⟨v, hv, hn⟩
      -- of all values only an integer has an opposite that is one
      cases v with
      | integer i =>
        obtain ⟨rfl, hbits⟩ := gives_orOverflow_iff.1 hn
        exact ⟨rfl, ⟨i, hv, (Int.neg_neg _).symm⟩, hbits⟩
      | _ =>
        obtain ⟨j, hj, -⟩ := gives_reported_iff.1 hn
        cases hj
    · rintro ⟨-, ⟨i, hi, hval⟩, hbits⟩
      exact ⟨_, hi, gives_orOverflow_iff.2 ⟨by omega, hbits⟩⟩
  | operation line op _ _ ihleft ihright =>
    rw [amounts_binary_iff, gives_bind_iff]
    constructor
    · rintro ⟨v, hv, hn⟩
      obtain ⟨w, hw, hn⟩ := gives_bind_iff.1 hn
      obtain ⟨i, hi, rfl⟩ := gives_reported_iff.1 hn
      obtain ⟨a, b, rfl, rfl, hop⟩ := BinaryOp.exists_of_apply hi
      exact ⟨_, _, ihleft.1 ⟨a, hv, rfl⟩, ihright.1 ⟨b, hw, rfl⟩, hop, i.inBits⟩
    · rintro ⟨_, _, hleft, hright, hop, hbits⟩
      obtain ⟨a, ha, rfl⟩ := ihleft.2 hleft
      obtain ⟨b, hb, rfl⟩ := ihright.2 hright
      refine ⟨_, ha, gives_bind_iff.2 ⟨_, hb, ?_⟩⟩
      rw [BinaryOp.apply_integers hop]
      exact gives_orOverflow_iff.2 ⟨rfl, hbits⟩

/-- What needs more than 32 bits overflows. -/
theorem gives_or_overflows_of_amounts (h : e.Yields r) (hn : e.Amounts 64 n) :
    Gives r n ∨ Overflows r := by
  induction h generalizing n with
  | literal line v =>
    obtain ⟨i, rfl, hi, -⟩ := amounts_literal_iff.1 hn
    exact .inl ⟨i, rfl, hi⟩
  | negation line _ ih =>
    obtain ⟨-, hoperand, -⟩ := amounts_unary_iff.1 hn
    rcases ih hoperand with ⟨i, rfl, hi⟩ | ⟨_, rfl⟩
    · -- the operand is an integer, and its opposite is one or overflows
      have hneg : -i.val = n := by omega
      subst hneg
      exact gives_or_overflows (-i.val) line
    · exact .inr ⟨_, rfl⟩
  | operation line op _ _ ihleft ihright =>
    obtain ⟨a, b, hleft, hright, hop, -⟩ := amounts_binary_iff.1 hn
    rcases ihleft hleft with ⟨i, rfl, rfl⟩ | ⟨_, rfl⟩
    · rcases ihright hright with ⟨j, rfl, rfl⟩ | ⟨_, rfl⟩
      · show Gives (Except.reported line (op.apply (.integer i) (.integer j))) n ∨
          Overflows (Except.reported line (op.apply (.integer i) (.integer j)))
        rw [BinaryOp.apply_integers hop]
        exact gives_or_overflows n line
      · exact .inr ⟨_, rfl⟩
    · exact .inr ⟨_, rfl⟩

end Expr.Yields

/-! ## Its evaluation -/

namespace Run

variable {α β : Type}

/-- However the run is started, this is what it answers, if it does not run out of steps. -/
def Settles (x : Run α) (r : Except RuntimeError α) : Prop :=
  ∀ m, match x m with
    | .ok a _ => r = .ok a
    | .error (.error e) _ => r = .error e
    | .error .outOfSteps _ => True

namespace Settles

variable {x : Run α} {r : Except RuntimeError α} {line : Nat}

theorem pure (a : α) : Settles (Pure.pure a) (.ok a) := fun _ => rfl

theorem atLine (result : Except Fault α) :
    Settles (Run.atLine line result) (Except.reported line result) := by
  intro m
  cases result <;> rfl

theorem bind {f : α → Run β} {g : α → Except RuntimeError β} (hx : Settles x r)
    (hf : ∀ a, Settles (f a) (g a)) : Settles (x >>= f) (r >>= g) := by
  intro m
  have h := hx m
  show match EStateM.bind x f m with
    | .ok b _ => r >>= g = .ok b
    | .error (.error e) _ => r >>= g = .error e
    | .error .outOfSteps _ => True
  unfold EStateM.bind
  cases hrun : x m with
  | ok a m₁ =>
    rw [hrun] at h
    subst h
    exact hf a m₁
  | error stop m₁ =>
    rw [hrun] at h
    cases stop with
    | error e =>
      subst h
      rfl
    | outOfSteps => trivial

theorem afterTick {f : Unit → Run α} (hf : Settles (f ()) r) :
    Settles (Run.tick >>= f) r := by
  rintro ⟨memory, console, steps⟩
  cases steps with
  | zero => trivial
  | succ steps => exact hf ⟨memory, console, steps⟩

end Settles

/-- The evaluator gives a constant what it comes to. -/
theorem settles_evaluate {e : Expr} {r : Except RuntimeError Value} (calls : Calls)
    (h : e.Yields r) : Settles (evaluate calls e) r := by
  induction h with
  | literal line v =>
    rw [evaluate]
    exact .afterTick (.pure v)
  | negation line _ ih =>
    rw [evaluate]
    exact .afterTick (ih.bind fun v => .atLine _)
  | operation line op _ _ ihleft ihright =>
    rw [evaluate]
    exact .afterTick (ihleft.bind fun v => ihright.bind fun w => .atLine _)

end Run

namespace Context

variable {α : Type} {e : Expr} {r answer : Except RuntimeError Value}

/-- A request with one answer gives it, or runs out of steps. -/
theorem serve_of_settles (c : Context) (steps : Nat) {x : Run α} {r : Except RuntimeError α}
    (hx : x.Settles r) :
    (c.serve steps x).1 = r.mapError .error ∨ (c.serve steps x).1 = .error .outOfSteps := by
  have hend := hx { memory := c.memory, console := c.console, steps }
  unfold serve EStateM.run
  cases hrun : x { memory := c.memory, console := c.console, steps } with
  | ok a m =>
    rw [hrun] at hend
    subst hend
    exact .inl rfl
  | error stop m =>
    rw [hrun] at hend
    cases stop with
    | error e =>
      subst hend
      exact .inl rfl
    | outOfSteps => exact .inr rfl

/-- With enough steps, steps do not run out. -/
theorem serve_ne_outOfSteps (c : Context) {x : Run α} {steps : Nat} (hx : x.Within steps) :
    (c.serve steps x).1 ≠ .error .outOfSteps := by
  obtain ⟨hstop, -⟩ := hx { memory := c.memory, console := c.console, steps } le_rfl
  unfold serve EStateM.run
  cases hrun : x { memory := c.memory, console := c.console, steps } with
  | ok a m => simp
  | error stop m =>
    intro h
    cases h
    exact hstop m hrun

/-- In every context, a constant has one answer, and some number of steps reaches it. -/
theorem eval_iff (c : Context) (h : e.Yields r) :
    (∃ steps, (c.eval steps e).1 = answer.mapError .error) ↔ r = answer := by
  have hserve (steps : Nat) :=
    c.serve_of_settles steps (Run.settles_evaluate (c.program.call steps) h)
  constructor
  · rintro ⟨steps, heval⟩
    rcases hserve steps with hanswer | hstop
    · have hsame := hanswer.symm.trans heval
      cases r <;> cases answer <;> cases hsame <;> rfl
    · have hstopped := hstop.symm.trans heval
      cases answer <;> cases hstopped
  · rintro rfl
    -- a constant calls nothing, so its own operations bound its steps
    have haffords : Affords (c.program.call (e.cost 0)) (fun _ => False) 0 (e.cost 0) :=
      fun _ _ _ hnone => hnone.elim
    have hwithin := Run.within_evaluate haffords e (by simp [h.calls_eq_nil]) le_rfl
    exact ⟨e.cost 0, (hserve _).resolve_right (c.serve_ne_outOfSteps hwithin)⟩

end Context

/-! ## Sizes of arrays -/

namespace Grammar

/-- A constant is the size of an array if its value at run time is a positive integer.  It is also
one if the evaluation overflows, but no part leaves the range of 64 bits. -/
theorem arraySize_iff_eval {e : Expr} (h : e.IsConstant) (c : Context) (n : Nat) :
    arraySize e = .ok n ↔ 1 ≤ n ∧
      ((∃ steps, ∃ i : Integer, (c.eval steps e).1 = .ok (.integer i) ∧ i.val = n) ∨
        (∃ steps line, (c.eval steps e).1 = .error (.error ⟨.overflow, line⟩)) ∧
          e.Amounts 64 n) := by
  obtain ⟨r, hr⟩ := h.exists_yields
  have hgives : (∃ steps, ∃ i : Integer, (c.eval steps e).1 = .ok (.integer i) ∧ i.val = n) ↔
      Gives r n := by
    rw [exists_comm]
    apply exists_congr
    intro i
    rw [exists_and_right, ← Context.eval_iff c hr]
    rfl
  have hoverflows : (∃ steps line, (c.eval steps e).1 = .error (.error ⟨.overflow, line⟩)) ↔
      Overflows r := by
    rw [exists_comm]
    apply exists_congr
    intro line
    rw [← Context.eval_iff c hr]
    rfl
  rw [hgives, hoverflows, arraySize_eq_ok]
  apply and_congr_right
  intro _
  constructor
  · intro hn
    rcases hr.gives_or_overflows_of_amounts hn with hint | hover
    · exact .inl hint
    · exact .inr ⟨hover, hn⟩
  · rintro (hint | ⟨-, hn⟩)
    · exact (hr.gives_iff.1 hint).widen
    · exact hn

/-- An expression that comes to five, although the sum in it is no integer. -/
def sizeBeyond : Expr :=
  .binary 1 .subtract
    (.binary 1 .add (.literal 1 (.integer ⟨2147483647, by decide, by decide⟩))
      (.literal 1 (.integer ⟨5, by decide, by decide⟩)))
    (.literal 1 (.integer ⟨2147483647, by decide, by decide⟩))

theorem isConstant_sizeBeyond : sizeBeyond.IsConstant :=
  .operation 1 _ (.operation 1 _ (.literal 1 _) (.literal 1 _)) (.literal 1 _)

/-- It is the size of an array, but its evaluation overflows. -/
theorem arraySize_sizeBeyond :
    sizeBeyond.IsConstant ∧ arraySize sizeBeyond = .ok 5 ∧
      ∀ (c : Context) (steps : Nat) (i : Integer),
        (c.eval steps sizeBeyond).1 ≠ .ok (.integer i) := by
  have hyields : sizeBeyond.Yields (.error ⟨.overflow, 1⟩) :=
    .operation 1 _ (.operation 1 _ (.literal 1 _) (.literal 1 _)) (.literal 1 _)
  refine ⟨isConstant_sizeBeyond, rfl, fun c steps i heval => ?_⟩
  have hanswer : (.error ⟨.overflow, 1⟩ : Except RuntimeError Value) = .ok (.integer i) :=
    (Context.eval_iff c hyields).1 ⟨steps, heval⟩
  cases hanswer

/-- A size that a run could not compute, since a part of it overflows. -/
theorem arraySize_sizeBeyond_iff_eval :
    sizeBeyond.IsConstant ∧ (arraySize sizeBeyond = .ok 5 ↔ 1 ≤ 5 ∧
      ((∃ steps, ∃ i : Integer, ((Context.fresh (.ofTree .empty 0) (.ofInput [] none)).eval steps
          sizeBeyond).1 = .ok (.integer i) ∧ i.val = (5 : Nat)) ∨
        (∃ steps line, ((Context.fresh (.ofTree .empty 0) (.ofInput [] none)).eval steps
          sizeBeyond).1 = .error (.error ⟨.overflow, line⟩)) ∧
          sizeBeyond.Amounts 64 (5 : Nat))) :=
  ⟨isConstant_sizeBeyond, arraySize_iff_eval isConstant_sizeBeyond _ 5⟩

end Grammar

end Primer
