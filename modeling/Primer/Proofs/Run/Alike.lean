import Mathlib.Data.Set.Basic
import Primer.Proofs.Run.Shape

/-!
# Primer.Proofs.Run.Alike — two runs side by side.

Two memories agree but for some variables of an area (`Memory.AgreesBut`).  A run ignores these
variables if, started in both memories, it comes to the same end and writes and reads the same
lines, and the memories still agree (`Run.Ignores`).  In between, the two may come to agree on more
variables: those that are declared anew.  The ones that are still left are known to be untouched.

The rules follow the composition of runs.  What programs they apply to is the subject of
`Primer.Proofs.Run.Leftovers`.

That two memories agree is kept by every access that does not touch the variables in question, with
the same answer in both.  An access to one of them is excluded by the precondition of the run, which
`Ignores` carries along together with the set of variables that are still left out; a declaration
takes its variable out of the set.
-/

namespace Primer

/-! ## Two memories -/

namespace Memory

/-- The same memory but for these variables of an area.  Of them nothing is known: a variable may be
there in only one of the memories, and it may hold anything. -/
structure AgreesBut (area : Area) (ids : Set String) (m m' : Memory) : Prop where
  size : m'.frames.size = m.frames.size
  parameters : ∀ k name, m'.parameterAt? k name = m.parameterAt? k name
  elsewhere : ∀ a id, ¬ (a = area ∧ id ∈ ids) → m'.variableAt? a id = m.variableAt? a id

namespace AgreesBut

variable {area : Area} {ids ids' : Set String} {m m' m'' : Memory}

theorem refl (m : Memory) : m.AgreesBut area ids m := ⟨rfl, fun _ _ => rfl, fun _ _ _ => rfl⟩

theorem symm (h : m.AgreesBut area ids m') : m'.AgreesBut area ids m :=
  ⟨h.size.symm, fun k name => (h.parameters k name).symm,
    fun a id hid => (h.elsewhere a id hid).symm⟩

theorem trans (h : m.AgreesBut area ids m') (h' : m'.AgreesBut area ids m'') :
    m.AgreesBut area ids m'' :=
  ⟨h'.size.trans h.size, fun k name => (h'.parameters k name).trans (h.parameters k name),
    fun a id hid => (h'.elsewhere a id hid).trans (h.elsewhere a id hid)⟩

theorem mono (h : m.AgreesBut area ids m') (hsub : ids ⊆ ids') : m.AgreesBut area ids' m' :=
  ⟨h.size, h.parameters, fun a id hid => h.elsewhere a id fun hin => hid ⟨hin.1, hsub hin.2⟩⟩

/-- A memory with one more declaration. -/
theorem declared (m : Memory) (v : Variable) : m.AgreesBut m.area {v.id} (m.declare v) := by
  refine ⟨m.size_declare v, fun k name => m.parameterAt?_declare v k name, fun a id hid => ?_⟩
  rw [Set.mem_singleton_iff] at hid
  rw [variableAt?_declare, if_neg hid]

theorem area_eq (h : m.AgreesBut area ids m') : m'.area = m.area := area_of_size_eq h.size

/-- A place is the same in both unless it is that of one of these variables. -/
theorem slot?_eq (h : m.AgreesBut area ids m') {place : Location}
    (hplace : ∀ id, place = area.place id → id ∉ ids) : m'.slot? place = m.slot? place := by
  have hvariable (a : Area) (id : String) (heq : place = a.place id) :
      m'.slot? place = m.slot? place := by
    have hsame : m'.variableAt? a id = m.variableAt? a id := by
      refine h.elsewhere a id ?_
      rintro ⟨rfl, hid⟩
      exact hplace id heq hid
    rw [heq, slot?_place, slot?_place, hsame]
  cases place with
  | global id => exact hvariable .globals id rfl
  | localIn k id => exact hvariable (.frame k) id rfl
  | parameterIn k name => rw [slot?_parameterIn, slot?_parameterIn, h.parameters]

/-- Writing the same value to the same place in both. -/
theorem write (h : m.AgreesBut area ids m') (place : Location) (value : Value) :
    (m.write place value).AgreesBut area ids (m'.write place value) := by
  refine ⟨?_, fun k name => ?_, fun a id hid => ?_⟩
  · rw [size_frames_write, size_frames_write, h.size]
  · rw [parameterAt?_write, parameterAt?_write, h.parameters]
  · rw [variableAt?_write, variableAt?_write, h.elsewhere a id hid]

/-- Of a variable that is declared again nothing old is left. -/
theorem declare (h : m.AgreesBut area ids m') (v : Variable) :
    (m.declare v).AgreesBut area {id ∈ ids | ¬ (m.area = area ∧ id = v.id)} (m'.declare v) := by
  refine ⟨?_, fun k name => ?_, fun a id hid => ?_⟩
  · rw [size_declare, size_declare, h.size]
  · rw [parameterAt?_declare, parameterAt?_declare, h.parameters]
  · rw [variableAt?_declare, variableAt?_declare, h.area_eq]
    split
    · rfl
    · rename_i hother
      refine h.elsewhere a id ?_
      rintro ⟨rfl, hin⟩
      exact hid ⟨rfl, hin, fun hnew => hother ⟨hnew.1.symm, hnew.2⟩⟩

theorem push (h : m.AgreesBut area ids m') (f : Frame) :
    (m.push f).AgreesBut area ids (m'.push f) := by
  refine ⟨?_, fun k name => ?_, fun a id hid => ?_⟩
  · rw [size_push, size_push, h.size]
  · rw [parameterAt?_push, parameterAt?_push, h.parameters, h.size]
  · rw [variableAt?_push, variableAt?_push, h.elsewhere a id hid, h.size]

theorem pop (h : m.AgreesBut area ids m') : m.pop.AgreesBut area ids m'.pop := by
  rw [pop_eq_cut, pop_eq_cut, h.size]
  refine ⟨?_, fun k name => ?_, fun a id hid => ?_⟩
  · rw [size_cut, size_cut, h.size]
  · rw [parameterAt?_cut, parameterAt?_cut, h.parameters]
  · rw [variableAt?_cut, variableAt?_cut, h.elsewhere a id hid]

end AgreesBut

/-- A variable below the latest frame is still there when the frame is gone. -/
theorem variableAt?_pop {m : Memory} {a : Area} (h : a.Below (m.frames.size - 1)) (id : String) :
    m.pop.variableAt? a id = m.variableAt? a id := by
  rw [pop_eq_cut, variableAt?_cut, if_pos h]

end Memory

/-! ## Two runs -/

/-- Two machines whose memories agree but for some variables of an area.  In the first memory these
variables are as they were at first. -/
structure Machine.Alike (area : Area) (first : String → Option Variable) (ids : Set String)
    (m m' : Machine) : Prop where
  console : m'.console = m.console
  steps : m'.steps = m.steps
  memory : m.memory.AgreesBut area ids m'.memory
  untouched : ∀ id ∈ ids, m.memory.variableAt? area id = first id

namespace Machine.Alike

variable {area : Area} {first : String → Option Variable} {ids : Set String} {m m' : Machine}

/-- A frame above the area is entered in both. -/
theorem push (h : m.Alike area first ids m') (hbelow : area.Below m.memory.frames.size)
    (f : Frame) :
    Machine.Alike area first ids { m with memory := m.memory.push f }
      { m' with memory := m'.memory.push f } := by
  have hnew : area ≠ .frame m.memory.frames.size := by
    rintro rfl
    exact Nat.lt_irrefl _ hbelow
  refine ⟨h.console, h.steps, h.memory.push f, fun id hid => ?_⟩
  show (m.memory.push f).variableAt? area id = _
  rw [Memory.variableAt?_push, if_neg hnew]
  exact h.untouched id hid

/-- A frame above the area is left in both. -/
theorem pop (h : m.Alike area first ids m') (hbelow : area.Below (m.memory.frames.size - 1)) :
    Machine.Alike area first ids { m with memory := m.memory.pop }
      { m' with memory := m'.memory.pop } := by
  refine ⟨h.console, h.steps, h.memory.pop, fun id hid => ?_⟩
  show m.memory.pop.variableAt? area id = _
  rw [Memory.variableAt?_pop hbelow, h.untouched id hid]

end Machine.Alike

namespace Run

variable {α β : Type}

/-- The same end of two runs.  The variables in which the memories may still differ are among those
in which they did at first. -/
inductive Matched (area : Area) (first : String → Option Variable)
    (Q : α → Set String → Memory → Prop) (ids : Set String) :
    EStateM.Result Stop Machine α → EStateM.Result Stop Machine α → Prop
  | ok {a : α} {m m' : Machine} {left : Set String} (sub : left ⊆ ids)
      (alike : m.Alike area first left m') (post : Q a left m.memory) :
      Matched area first Q ids (.ok a m) (.ok a m')
  | error {stop : Stop} {m m' : Machine} {left : Set String} (sub : left ⊆ ids)
      (alike : m.Alike area first left m') :
      Matched area first Q ids (.error stop m) (.error stop m')

/-- From any two machines that agree but for some variables, the run comes to the same end. -/
def Ignores (area : Area) (first : String → Option Variable) (P : Set String → Memory → Prop)
    (x : Run α) (Q : α → Set String → Memory → Prop) : Prop :=
  ∀ m m' ids, m.Alike area first ids m' → P ids m.memory →
    Matched area first Q ids (x m) (x m')

variable {area : Area} {first : String → Option Variable}

/-- Two runs that are matched, with a weaker promise. -/
theorem Matched.imp {Q Q' : α → Set String → Memory → Prop} {ids ids' : Set String}
    {r r' : EStateM.Result Stop Machine α} (h : Matched area first Q ids r r') (hsub : ids ⊆ ids')
    (himp : ∀ a left m, r = .ok a m → left ⊆ ids → Q a left m.memory → Q' a left m.memory) :
    Matched area first Q' ids' r r' := by
  cases h with
  | ok sub alike post => exact .ok (sub.trans hsub) alike (himp _ _ _ rfl sub post)
  | error sub alike => exact .error (sub.trans hsub) alike

/-- One more step of both. -/
theorem matched_tick {Q : Unit → Set String → Memory → Prop} {ids left : Set String}
    {m m' : Machine} (hsub : left ⊆ ids) (h : m.Alike area first left m')
    (hq : Q () left m.memory) :
    Matched area first Q ids (Run.tick m) (Run.tick m') := by
  obtain ⟨memory, console, steps⟩ := m
  obtain ⟨memory', console', steps'⟩ := m'
  obtain ⟨rfl, rfl, hmemory, huntouched⟩ := h
  cases steps' with
  | zero => exact .error hsub ⟨rfl, rfl, hmemory, huntouched⟩
  | succ n => exact .ok hsub ⟨rfl, rfl, hmemory, huntouched⟩ hq

namespace Ignores

variable {P P' : Set String → Memory → Prop} {Q Q' : α → Set String → Memory → Prop}
  {R : β → Set String → Memory → Prop} {x : Run α} {f : α → Run β} {line : Nat}

theorem mono (hx : Ignores area first P x Q) (hpre : ∀ ids m, P' ids m → P ids m)
    (hpost : ∀ a ids m, Q a ids m → Q' a ids m) : Ignores area first P' x Q' :=
  fun m m' ids halike hp =>
    (hx m m' ids halike (hpre _ _ hp)).imp (fun _ h => h) fun a left _ _ _ hq => hpost a left _ hq

/-- Runs in a row ignore what each of them ignores. -/
theorem bind (hx : Ignores area first P x Q) (hf : ∀ a, Ignores area first (Q a) (f a) R) :
    Ignores area first P (x >>= f) R := by
  intro m m' ids halike hp
  have h := hx m m' ids halike hp
  show Matched area first R ids (EStateM.bind x f m) (EStateM.bind x f m')
  unfold EStateM.bind
  generalize x m = r at h ⊢
  generalize x m' = r' at h ⊢
  cases h with
  | ok sub alike post => exact (hf _ _ _ _ alike post).imp sub fun _ _ _ _ _ h => h
  | error sub alike => exact .error sub alike

/-- What holds at first holds in the end, if the run keeps it. -/
theorem keep {I : Set String → Memory → Prop} (hx : Ignores area first P x Q)
    (hkeeps : Keeps Memory.Grows x)
    (hI : ∀ {ids left : Set String} {m m' : Memory}, left ⊆ ids → m.Grows m' → I ids m →
      I left m') :
    Ignores area first (fun ids m => P ids m ∧ I ids m) x fun a ids m => Q a ids m ∧ I ids m := by
  intro m m' ids halike hp
  refine (hx m m' ids halike hp.1).imp (fun _ h => h) fun a left m₁ hrun hsub hq => ⟨hq, ?_⟩
  have hleaves := hkeeps m
  rw [hrun] at hleaves
  exact hI hsub hleaves hp.2

theorem outOfSteps : Ignores area first P (Run.outOfSteps : Run α) Q :=
  fun _ _ _ halike _ => .error (fun _ h => h) halike

theorem tick : Ignores area first P Run.tick fun _ => P :=
  fun _ _ _ halike hp => matched_tick (fun _ h => h) halike hp

/-- A run that only looks at the console. -/
theorem console (answer : Console → Except RuntimeError (α × Console))
    (hx : ∀ m, x m = match answer m.console with
      | .ok (a, console) => .ok a { m with console }
      | .error e => .error (.error e) m) : Ignores area first P x fun _ => P := by
  intro m m' ids halike hp
  rw [hx, hx, halike.console]
  cases answer m.console with
  | ok found =>
    exact .ok (fun _ h => h) ⟨rfl, halike.steps, halike.memory, halike.untouched⟩ hp
  | error e => exact .error (fun _ h => h) halike

theorem atLine (result : Except Fault α) :
    Ignores area first P (Run.atLine line result) fun _ => P := by
  refine console (fun console => (result.mapError (⟨·, line⟩)).map (·, console)) fun m => ?_
  cases result <;> rfl

theorem pure {a : α} (h : ∀ ids m, P ids m → Q a ids m) : Ignores area first P (Pure.pure a) Q :=
  fun _ _ ids halike hp => .ok (fun _ hid => hid) halike (h ids _ hp)

theorem readLine : Ignores area first P (Run.readLine line) fun _ => P := by
  refine console (fun console => console.read.mapError (⟨.io ·, line⟩)) fun m => ?_
  rw [readLine_run]
  cases m.console.read <;> rfl

theorem writeLine (text : String) : Ignores area first P (Run.writeLine text line) fun _ => P := by
  refine console (fun console => ((console.write text).mapError (⟨.io ·, line⟩)).map ((), ·))
    fun m => ?_
  rw [writeLine_run]
  cases m.console.write text <;> rfl

theorem fails (fault : Fault) :
    Ignores area first P (Run.atLine line (.error fault) : Run α) Q :=
  fun _ _ _ halike _ => .error (fun _ h => h) halike

/-- A check of the memory that says the same of both. -/
theorem look (check : Memory → Except Fault α)
    (hsame : ∀ ids m m', P ids m → m.AgreesBut area ids m' → check m' = check m)
    (hQ : ∀ ids m a, P ids m → check m = .ok a → Q a ids m) :
    Ignores area first P (do Run.atLine line (check (← get).memory)) Q := by
  intro m m' ids halike hp
  show Matched area first Q ids (Run.atLine line (check m.memory) m)
    (Run.atLine line (check m'.memory) m')
  rw [hsame ids _ _ hp halike.memory]
  cases hcheck : check m.memory with
  | ok a => exact .ok (fun _ h => h) halike (hQ ids _ a hp hcheck)
  | error fault => exact .error (fun _ h => h) halike

/-- The body of a call is run in a frame above the area, and the frame is left again. -/
theorem inFrame {frame : Frame} {body : Run α} {B : Set String → Memory → Prop}
    (hP : ∀ {ids left : Set String} {m m' : Memory}, left ⊆ ids → m.Grows m' → P ids m → P left m')
    (hbelow : ∀ ids m, P ids m → area.Below m.frames.size)
    (henter : ∀ ids m, P ids m → B ids (m.push frame)) (hkeeps : Keeps Memory.Grows body)
    (hbody : Ignores area first B body Q) :
    Ignores area first P (Run.inFrame frame body) fun _ => P := by
  intro m m' ids halike hp
  have hinside : Ignores area first B (Run.tick *> body) Q := tick.bind fun _ => hbody
  have h := hinside _ _ ids (halike.push (hbelow ids _ hp) frame) (henter ids _ hp)
  have hgrows : Keeps Memory.Grows (Run.tick *> body) := .afterTick hkeeps
  have hleaves := hgrows { m with memory := m.memory.push frame }
  -- the area is still below the frame when the frame is left
  have hstill {m₁ : Machine} (hsize : (m.memory.push frame).Grows m₁.memory) :
      area.Below (m₁.memory.frames.size - 1) := by
    rw [hsize.size, Memory.size_push, Nat.add_sub_cancel]
    exact hbelow ids _ hp
  unfold Run.inFrame
  generalize (Run.tick *> body) { m with memory := m.memory.push frame } = r at h hleaves ⊢
  generalize (Run.tick *> body) { m' with memory := m'.memory.push frame } = r' at h ⊢
  cases h with
  | @ok a m₁ m₁' left sub alike post =>
    have hout : Ignores area first P (Run.tick *> Pure.pure a) fun _ => P :=
      tick.bind fun _ => pure fun _ _ h => h
    have hpop : m.memory.Grows m₁.memory.pop := hleaves.pop.grows
    exact (hout _ _ left (alike.pop (hstill hleaves)) (hP sub hpop hp)).imp sub
      fun _ _ _ _ _ h => h
  | @error stop m₁ m₁' left sub alike =>
    cases stop with
    | error e => exact .error sub (alike.pop (hstill hleaves))
    | outOfSteps => exact .error sub alike

end Ignores

end Run

end Primer
