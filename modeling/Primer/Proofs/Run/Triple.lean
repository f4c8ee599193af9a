import Primer.Execution
import Primer.Proofs.Run.Storage

/-!
# Primer.Proofs.Run.Triple — what may come of a run.

`Triple P x Q` says that `x`, started in a sound memory with `P`, ends in a sound memory whatever
the end is, that an answer satisfies `Q` and has cost no place, and that an error is never about a
name.  A run that is stopped is only asked for a sound memory; since every change is followed by a
step, this is said of all memories that a run passes through.

There is one rule for each way of composing runs and one for each access to memory and console.

The precondition has to last while places are added (`Memory.Lasting`), since a first part may add
some before the second starts; for the postcondition of the first part no such thing is asked, it
holds at the moment where the second starts.  Faults about names are excluded in the meaning of
`Triple` itself, so a rule for an access asks that the access `Meets` what is expected of it.
-/

namespace Primer

/-- What is known of a memory remains true while places are added and values change. -/
def Memory.Lasting (P : Memory → Prop) : Prop := ∀ {m m' : Memory}, m.Le m' → P m → P m'

namespace Run

variable {α β : Type}

/-! ## The accesses, step by step -/

/-- A store changes the memory and makes a step, or reports. -/
theorem store_run (id : String) (indices : List Integer) (value : Value) (line : Nat)
    (m : Machine) :
    Run.store id indices value line m =
      match m.memory.store id indices value with
      | .ok memory => Run.tick { m with memory }
      | .error fault => .error (.error ⟨fault, line⟩) m := by
  show EStateM.bind (Run.atLine line (m.memory.store id indices value)) _ m = _
  cases m.memory.store id indices value <;> rfl

theorem writeLine_run (text : String) (line : Nat) (m : Machine) :
    Run.writeLine text line m =
      match m.console.write text with
      | .ok console => .ok () { m with console }
      | .error cause => .error (.error ⟨.io cause, line⟩) m := by
  show EStateM.bind (Run.consoleAt line (m.console.write text)) _ m = _
  cases m.console.write text <;> rfl

theorem readLine_run (line : Nat) (m : Machine) :
    Run.readLine line m =
      match m.console.read with
      | .ok (text, console) => .ok text { m with console }
      | .error cause => .error (.error ⟨.io cause, line⟩) m := by
  show EStateM.bind (Run.consoleAt line m.console.read) _ m = _
  cases m.console.read <;> rfl

/-! ## Ends -/

/-- A good end of a run that was started in this memory. -/
def Ends (m : Memory) (Q : α → Memory → Prop) : EStateM.Result Stop Machine α → Prop
  | .ok a m' => m'.memory.Sound ∧ m.Le m'.memory ∧ Q a m'.memory
  | .error (.error e) m' => m'.memory.Sound ∧ ¬ e.fault.IsUnbound
  | .error .outOfSteps m' => m'.memory.Sound

/-- A good end remains one for an earlier start and for less that is asked of the answer. -/
theorem Ends.imp {m m₀ : Memory} {Q Q' : α → Memory → Prop} {r : EStateM.Result Stop Machine α}
    (h : Ends m Q r) (hle : m₀.Le m) (hpost : ∀ a m', m.Le m' → Q a m' → Q' a m') :
    Ends m₀ Q' r := by
  cases r with
  | ok a m' => exact ⟨h.1, hle.trans h.2.1, hpost a _ h.2.1 h.2.2⟩
  | error stop m' =>
    cases stop with
    | error e => exact h
    | outOfSteps => exact h

/-- Every run from a sound memory with this property comes to a good end. -/
def Triple (P : Memory → Prop) (x : Run α) (Q : α → Memory → Prop) : Prop :=
  ∀ m : Machine, m.memory.Sound → P m.memory → Ends m.memory Q (x m)

theorem ends_tick {m : Memory} {m₁ : Machine} (hsound : m₁.memory.Sound) (hle : m.Le m₁.memory)
    {Q : Unit → Memory → Prop} (hq : Q () m₁.memory) : Ends m Q (Run.tick m₁) := by
  obtain ⟨memory, console, steps⟩ := m₁
  cases steps with
  | zero => exact hsound
  | succ n => exact ⟨hsound, hle, hq⟩

namespace Triple

variable {P P' : Memory → Prop} {x : Run α} {f : α → Run β} {Q Q' : α → Memory → Prop}
  {R : β → Memory → Prop} {φ : α → Prop} {line : Nat}

/-! ## Composition -/

theorem mono (hx : Triple P x Q) (hpre : ∀ m, P' m → P m) (hpost : ∀ a m, Q a m → Q' a m) :
    Triple P' x Q' :=
  fun m hm hp => (hx m hm (hpre _ hp)).imp (.refl _) fun a m' _ hq => hpost a m' hq

/-- What is only said of the values may be taken out of the precondition. -/
theorem lift {p : Prop} (h : p → Triple P x Q) : Triple (fun m => P m ∧ p) x Q :=
  fun m hm hp => h hp.2 m hm hp.1

theorem pure {a : α} (h : ∀ m, P m → Q a m) : Triple P (Pure.pure a) Q :=
  fun _ hm hp => ⟨hm, .refl _, h _ hp⟩

/-- Two parts in a row, with what the first has answered. -/
theorem bind (hP : Memory.Lasting P) (hx : Triple P x Q)
    (hf : ∀ a, Triple (fun m => P m ∧ Q a m) (f a) R) : Triple P (x >>= f) R := by
  intro m hm hp
  have h := hx m hm hp
  show Ends m.memory R (EStateM.bind x f m)
  unfold EStateM.bind
  cases hrun : x m with
  | ok a m₁ =>
    rw [hrun] at h
    obtain ⟨hm₁, hle, hq⟩ := h
    exact (hf a m₁ hm₁ ⟨hP hle hp, hq⟩).imp hle fun _ _ _ hr => hr
  | error stop m₁ =>
    rw [hrun] at h
    cases stop with
    | error e => exact h
    | outOfSteps => exact h

/-- What was known before is known after. -/
theorem keep (hP : Memory.Lasting P) (hx : Triple P x Q) :
    Triple P x fun a m => Q a m ∧ P m :=
  fun m hm hp => (hx m hm hp).imp (.refl _) fun _ _ hle hq => ⟨hq, hP hle hp⟩

/-- The common case of `bind`: the first run is only known by its value. -/
theorem bindValue (hP : Memory.Lasting P) (hx : Triple P x fun a _ => φ a)
    (hf : ∀ a, φ a → Triple P (f a) R) : Triple P (x >>= f) R :=
  hx.bind hP fun a => lift fun ha => hf a ha

/-! ## Steps and checks -/

theorem outOfSteps : Triple P (Run.outOfSteps : Run α) Q := fun _ hm _ => hm

theorem tick : Triple P Run.tick fun _ => P := fun _ hm hp => ends_tick hm (.refl _) hp

theorem afterTick {f : Unit → Run β} (hP : Memory.Lasting P) (hf : Triple P (f ()) R) :
    Triple P (Run.tick >>= f) R :=
  tick.bind hP fun _ => hf.mono (fun _ hp => hp.1) fun _ _ h => h

theorem atLine {result : Except Fault α} (h : Meets result φ) :
    Triple P (Run.atLine line result) fun a _ => φ a := by
  intro m hm hp
  cases result with
  | ok a => exact ⟨hm, .refl _, h⟩
  | error fault => exact ⟨hm, h⟩

/-- A check of the memory. -/
theorem atMemory {check : Memory → Except Fault α}
    (h : ∀ m, m.Sound → P m → Meets (check m) (Q · m)) :
    Triple P (do Run.atLine line (check (← get).memory)) Q := by
  intro m hm hp
  have hmeets := h m.memory hm hp
  show Ends m.memory Q ((Run.atLine line (check m.memory) : Run α) m)
  cases hcheck : check m.memory with
  | ok a =>
    rw [hcheck] at hmeets
    exact ⟨hm, .refl _, hmeets⟩
  | error fault =>
    rw [hcheck] at hmeets
    exact ⟨hm, hmeets⟩

/-- A check of the memory whose result is used. -/
theorem bindMemory (hP : Memory.Lasting P) {check : Memory → Except Fault α}
    (h : ∀ m, m.Sound → P m → Meets (check m) (Q · m))
    (hf : ∀ a, Triple (fun m => P m ∧ Q a m) (f a) R) :
    Triple P (do let s ← get; let a ← Run.atLine line (check s.memory); f a) R := by
  have hcheck : Triple P (do Run.atLine line (check (← get).memory)) Q := atMemory h
  have hall := bind hP hcheck hf
  rwa [bind_assoc] at hall

/-! ## Memory and console -/

theorem load {id : String} {φ : Value → Prop} (h : ∀ m, m.Sound → P m → Meets (m.load id) φ) :
    Triple P (Run.load id line) fun v _ => φ v :=
  atMemory h

/-- A store, with what it makes of the memory. -/
theorem store {id : String} {indices : List Integer} {value : Value}
    (h : ∀ m, m.Sound → P m → Meets (m.store id indices value) fun m' => m'.Sound ∧ m.Le m') :
    Triple P (Run.store id indices value line) fun _ _ => True := by
  intro m hm hp
  have hmeets := h m.memory hm hp
  rw [store_run]
  cases hstore : m.memory.store id indices value with
  | ok memory =>
    rw [hstore] at hmeets
    exact ends_tick hmeets.1 hmeets.2 trivial
  | error fault =>
    rw [hstore] at hmeets
    exact ⟨hm, hmeets⟩

/-- A declaration, with what it makes of the memory. -/
theorem declare {v : Variable}
    (h : ∀ m, m.Sound → P m → (m.declare v).Sound ∧ m.Le (m.declare v) ∧ P' (m.declare v)) :
    Triple P (Run.declare v) fun _ => P' := by
  intro m hm hp
  obtain ⟨hsound, hle, hp'⟩ := h m.memory hm hp
  exact ends_tick hsound hle hp'

theorem readLine : Triple P (Run.readLine line) fun _ _ => True := by
  intro m hm hp
  rw [readLine_run]
  cases m.console.read with
  | ok read => exact ⟨hm, .refl _, trivial⟩
  | error cause => exact ⟨hm, id⟩

theorem writeLine {text : String} : Triple P (Run.writeLine text line) fun _ => P := by
  intro m hm hp
  rw [writeLine_run]
  cases m.console.write text with
  | ok console => exact ⟨hm, .refl _, hp⟩
  | error cause => exact ⟨hm, id⟩

/-- The body of a call starts in the memory with its frame on top. -/
theorem inFrame {f : Frame} {body : Run α} {B : Memory → Prop} (hB : Memory.Lasting B)
    (henter : ∀ m, m.Sound → P m → (m.push f).Sound ∧ B (m.push f))
    (hbody : Triple B body fun a _ => φ a) : Triple P (Run.inFrame f body) fun a _ => φ a := by
  intro m hm hp
  obtain ⟨hsound, hb⟩ := henter m.memory hm hp
  -- the step that shows the new frame belongs to the body
  have h := afterTick (f := fun _ => body) hB hbody { m with memory := m.memory.push f } hsound hb
  unfold Run.inFrame
  rw [seqRight_eq_bind]
  cases hrun : (Run.tick >>= fun _ => body) { m with memory := m.memory.push f } with
  | ok a m₁ =>
    rw [hrun] at h
    obtain ⟨hm₁, hle, ha⟩ := h
    -- the step behind the call shows the memory without its frame
    obtain ⟨memory, console, steps⟩ := m₁
    cases steps with
    | zero => exact hm₁.pop
    | succ n => exact ⟨hm₁.pop, hle.pop, ha⟩
  | error stop m₁ =>
    rw [hrun] at h
    cases stop with
    | error e => exact ⟨h.1.pop, h.2⟩
    | outOfSteps => exact h

end Triple

end Run

end Primer
