import Primer.Proofs.Run.Bounds
import Primer.Proofs.Run.Points
import Primer.Proofs.Run.Step

/-!
# Primer.Proofs.Run.Trace — the memories that a run passes, one after another.

A run that is stopped after `n` steps shows the memory that a longer run passes through.  Here it is
proved that between the memories after `n` and after `n + 1` steps there is one `Memory.Step`.
Whatever is to be said of all memories of a run, or of two of them, is then proved step by step.

`Run.Traces p P x Q` is the invariant of the proof: it compares `x` with itself for one step more,
and follows the composition of runs.  Main statement: `Context.step_stateAt`.

A run that is stopped after `n` steps and one that is stopped after `n + 1` do the same until the
first stops; the second makes one step more, and stops or goes on to an end.  `Traces` says this for
all numbers of steps at once, so the induction on the composition of runs is made once.  The memory
at the end of a run counts as the last one that is passed.
-/

namespace Primer

/-! ## One step more -/

/-- The machine with one step more to make. -/
def Machine.more (m : Machine) : Machine := { m with steps := m.steps + 1 }

namespace Run

variable {α β : Type} {p : Program}

/-- What may become of this memory before the next step: nothing if the run answers, frames may be
left if it fails, and one change if it is stopped. -/
def Reaches (p : Program) (m : Memory) : EStateM.Result Stop Machine α → Prop
  | .ok _ m' => m'.memory = m ∧ m'.steps = 0
  | .error (.error _) m' => ∃ k, m'.memory = m.cut k
  | .error .outOfSteps m' => m.Step p m'.memory

/-- The second result is what comes of the first one with one step more. -/
def Continues (p : Program) :
    EStateM.Result Stop Machine α → EStateM.Result Stop Machine α → Prop
  | .ok a m, r => r = .ok a m.more
  | .error (.error e) m, r => r = .error (.error e) m.more
  | .error .outOfSteps m, r => Reaches p m.memory r

/-- The memory at the end of a run. -/
def lastMemory : EStateM.Result Stop Machine α → Memory
  | .ok _ m => m.memory
  | .error _ m => m.memory

/-- What is reached at once is one step away. -/
theorem Reaches.step {m : Memory} {r : EStateM.Result Stop Machine α} (h : Reaches p m r) :
    m.Step p (lastMemory r) := by
  cases r with
  | ok a m' =>
    rw [lastMemory, h.1]
    exact .stay p m
  | error stop m' =>
    cases stop with
    | error e =>
      obtain ⟨k, hk⟩ := h
      rw [lastMemory, hk]
      exact .cut k
    | outOfSteps => exact h

/-- What follows an answer begins without a step. -/
theorem Reaches.bind {s : Memory} {x : Run α} {f : α → Run β} {m : Machine}
    (h : Reaches p s (x m))
    (hf : ∀ a m', x m = .ok a m' → m'.steps = 0 → Reaches p m'.memory (f a m')) :
    Reaches p s ((x >>= f) m) := by
  show Reaches p s (EStateM.bind x f m)
  unfold EStateM.bind
  cases hrun : x m with
  | ok a m' =>
    rw [hrun] at h
    obtain ⟨hmemory, hzero⟩ := h
    rw [← hmemory]
    exact hf a m' hrun hzero
  | error stop m' =>
    rw [hrun] at h
    cases stop with
    | error e => exact h
    | outOfSteps => exact h

/-- There is no step left for a body to leave its frame, unless it fails. -/
theorem Reaches.inFrame {s : Memory} {frame : Frame} {body : Run α} {m : Machine}
    (h : Reaches p s ((tick *> body) { m with memory := m.memory.push frame })) :
    Reaches p s (Run.inFrame frame body m) := by
  unfold Run.inFrame
  cases hrun : (tick *> body) { m with memory := m.memory.push frame } with
  | ok a m' =>
    rw [hrun] at h
    obtain ⟨memory, console, steps⟩ := m'
    obtain ⟨hmemory, hzero⟩ := h
    obtain rfl : memory = s := hmemory
    obtain rfl : steps = 0 := hzero
    show memory.Step p memory.pop
    rw [Memory.pop_eq_cut]
    exact .cut _
  | error stop m' =>
    rw [hrun] at h
    cases stop with
    | error e =>
      obtain ⟨k, hk⟩ := h
      refine ⟨min k ((s.cut k).frames.size - 1), ?_⟩
      show m'.memory.pop = _
      rw [hk, Memory.pop_eq_cut, Memory.cut_cut]
    | outOfSteps => exact h

/-- What is continued with one step more is one step away. -/
theorem Continues.step {r r' : EStateM.Result Stop Machine α} (h : Continues p r r') :
    (lastMemory r).Step p (lastMemory r') := by
  cases r with
  | ok a m =>
    obtain rfl : r' = .ok a m.more := h
    exact .stay p m.memory
  | error stop m =>
    cases stop with
    | error e =>
      obtain rfl : r' = .error (.error e) m.more := h
      exact .stay p m.memory
    | outOfSteps => exact Reaches.step h

/-- The run passes from memory to memory by steps, from the memory that it is started in on. -/
structure Traces (p : Program) (P : Memory → Prop) (x : Run α) (Q : α → Memory → Prop) : Prop where
  begins : ∀ m, P m.memory → m.steps = 0 → Reaches p m.memory (x m)
  continues : ∀ m, P m.memory → Continues p (x m) (x m.more)
  answers : ∀ m a m', P m.memory → x m = .ok a m' → Q a m'.memory

namespace Traces

variable {P P' : Memory → Prop} {Q Q' : α → Memory → Prop} {R : β → Memory → Prop} {x : Run α}
  {f : α → Run β} {line : Nat}

theorem mono (hx : Traces p P x Q) (hpre : ∀ m, P' m → P m) (hpost : ∀ a m, Q a m → Q' a m) :
    Traces p P' x Q' where
  begins m hp := hx.begins m (hpre _ hp)
  continues m hp := hx.continues m (hpre _ hp)
  answers m a m' hp h := hpost a _ (hx.answers m a m' (hpre _ hp) h)

/-- Two parts in a row: the step is made in the one or in the other. -/
theorem bind (hx : Traces p P x Q) (hf : ∀ a, Traces p (Q a) (f a) R) :
    Traces p P (x >>= f) R where
  begins m hp hsteps := (hx.begins m hp hsteps).bind fun a m' hrun hzero =>
    (hf a).begins m' (hx.answers m a m' hp hrun) hzero
  continues m hp := by
    have h := hx.continues m hp
    show Continues p (EStateM.bind x f m) (EStateM.bind x f m.more)
    unfold EStateM.bind
    cases hrun : x m with
    | ok a m₁ =>
      rw [hrun] at h
      have hmore : x m.more = .ok a m₁.more := h
      rw [hmore]
      exact (hf a).continues m₁ (hx.answers m a m₁ hp hrun)
    | error stop m₁ =>
      rw [hrun] at h
      cases stop with
      | error e =>
        have hmore : x m.more = .error (.error e) m₁.more := h
        rw [hmore]
        rfl
      | outOfSteps =>
        -- the step that was missing is the last one, so what follows begins without any
        have hmore : Reaches p m₁.memory (x m.more) := h
        exact hmore.bind fun a m₂ hrun' hzero =>
          (hf a).begins m₂ (hx.answers m.more a m₂ hp hrun') hzero
  answers m b m' hp h := by
    have hbind : EStateM.bind x f m = .ok b m' := h
    unfold EStateM.bind at hbind
    cases hrun : x m with
    | ok a m₁ =>
      rw [hrun] at hbind
      exact (hf a).answers m₁ b m' (hx.answers m a m₁ hp hrun) hbind
    | error stop m₁ =>
      rw [hrun] at hbind
      cases hbind

/-- What the shape keeps is kept by a run that keeps the shape. -/
theorem keep {I : Memory → Prop} (hx : Traces p P x Q) (hkeeps : Keeps Memory.SameShape x)
    (hI : ∀ {m m'}, Memory.SameShape m m' → I m → I m') :
    Traces p (fun m => P m ∧ I m) x fun a m => Q a m ∧ I m where
  begins m hp := hx.begins m hp.1
  continues m hp := hx.continues m hp.1
  answers m a m' hp h := by
    refine ⟨hx.answers m a m' hp.1 h, ?_⟩
    have hleaves := hkeeps m
    rw [h] at hleaves
    exact hI hleaves hp.2

end Traces

/-! ## Runs that make no step -/

/-- The run leaves the memory as it is and makes no step. -/
def Still (x : Run α) : Prop :=
  ∀ m, (∃ a console, x m = .ok a { m with console } ∧ x m.more = .ok a { m.more with console }) ∨
    ∃ e, x m = .error (.error e) m ∧ x m.more = .error (.error e) m.more

theorem still_pure (a : α) : Still (pure a) := fun m => Or.inl ⟨a, m.console, rfl, rfl⟩

theorem still_atLine (line : Nat) (result : Except Fault α) : Still (atLine line result) := by
  intro m
  cases result with
  | ok a => exact Or.inl ⟨a, m.console, rfl, rfl⟩
  | error fault => exact Or.inr ⟨⟨fault, line⟩, rfl, rfl⟩

theorem still_readLine (line : Nat) : Still (readLine line) := by
  intro m
  have hmore : m.more.console = m.console := rfl
  rw [readLine_run, readLine_run, hmore]
  cases m.console.read with
  | ok read => exact Or.inl ⟨read.1, read.2, rfl, rfl⟩
  | error cause => exact Or.inr ⟨⟨.io cause, line⟩, rfl, rfl⟩

theorem still_writeLine (text : String) (line : Nat) : Still (writeLine text line) := by
  intro m
  have hmore : m.more.console = m.console := rfl
  rw [writeLine_run, writeLine_run, hmore]
  cases m.console.write text with
  | ok console => exact Or.inl ⟨(), console, rfl, rfl⟩
  | error cause => exact Or.inr ⟨⟨.io cause, line⟩, rfl, rfl⟩

namespace Traces

variable {P : Memory → Prop} {Q : α → Memory → Prop} {R : β → Memory → Prop} {x : Run α}
  {f : α → Run β} {line : Nat}

/-- A run that makes no step is traced by standing still. -/
theorem still (hx : Still x) (hanswers : ∀ m a m', P m.memory → x m = .ok a m' → Q a m'.memory) :
    Traces p P x Q where
  begins m hp hsteps := by
    rcases hx m with ⟨a, console, h, -⟩ | ⟨e, h, -⟩
    · rw [h]
      exact ⟨rfl, hsteps⟩
    · rw [h]
      exact ⟨m.memory.frames.size, (m.memory.cut_of_size_le (Nat.le_refl _)).symm⟩
  continues m hp := by
    rcases hx m with ⟨a, console, h, h'⟩ | ⟨e, h, h'⟩
    · rw [h, h']
      rfl
    · rw [h, h']
      rfl
  answers := hanswers

/-- A run that makes no step, when nothing is said of its answer. -/
theorem still_same (hx : Still x) : Traces p P x fun _ => P := by
  refine still hx fun m a m' hp h => ?_
  rcases hx m with ⟨b, console, h', -⟩ | ⟨e, h', -⟩
  · cases h.symm.trans h'
    exact hp
  · cases h.symm.trans h'

theorem pure {a : α} (h : ∀ m, P m → Q a m) : Traces p P (Pure.pure a) Q := by
  refine still (still_pure a) fun m b m' hp hrun => ?_
  cases hrun
  exact h _ hp

/-- A check of the memory whose result is used. -/
theorem bindMemory (check : Memory → Except Fault α)
    (h : ∀ m a, P m → check m = .ok a → Q a m) (hf : ∀ a, Traces p (Q a) (f a) R) :
    Traces p P (do let s ← get; let a ← Run.atLine line (check s.memory); f a) R := by
  have hcheck : Traces p P (do Run.atLine line (check (← get).memory)) Q := by
    refine still (fun m => still_atLine line (check m.memory) m) fun m a m' hp hrun => ?_
    have hrun' : (Run.atLine line (check m.memory) : Run α) m = .ok a m' := hrun
    cases hresult : check m.memory with
    | ok b =>
      rw [hresult] at hrun'
      cases hrun'
      exact h _ _ hp hresult
    | error fault =>
      rw [hresult] at hrun'
      cases hrun'
  have hall := hcheck.bind hf
  rwa [bind_assoc] at hall

/-! ## Steps and changes -/

theorem outOfSteps : Traces p P (Run.outOfSteps : Run α) Q where
  begins m _ _ := .stay p m.memory
  continues m _ := Memory.Step.stay p m.memory
  answers m a m' _ h := by cases h

theorem tick : Traces p P Run.tick fun _ => P where
  begins m _ hsteps := by
    obtain ⟨memory, console, steps⟩ := m
    obtain rfl : steps = 0 := hsteps
    exact .stay p memory
  continues m _ := by
    obtain ⟨memory, console, steps⟩ := m
    cases steps with
    | zero => exact ⟨rfl, rfl⟩
    | succ n => rfl
  answers m a m' hp h := by
    obtain ⟨memory, console, steps⟩ := m
    cases steps with
    | zero => cases h
    | succ n =>
      cases h
      exact hp

/-- A change of the memory with the step behind it. -/
theorem change {x : Run Unit} {Q : Unit → Memory → Prop}
    {g : Memory → Except RuntimeError Memory}
    (hx : ∀ m, x m = match g m.memory with
      | .ok memory => Run.tick { m with memory }
      | .error e => .error (.error e) m)
    (hg : ∀ m m', P m → g m = .ok m' → m.Step p m' ∧ Q () m') :
    Traces p P x Q where
  begins m hp hsteps := by
    rw [hx]
    cases h : g m.memory with
    | ok memory =>
      obtain ⟨_, console, steps⟩ := m
      -- The change is made, and then there is no step left for its tick.
      obtain rfl : steps = 0 := hsteps
      exact (hg _ _ hp h).1
    | error e => exact ⟨m.memory.frames.size, (m.memory.cut_of_size_le (Nat.le_refl _)).symm⟩
  continues m hp := by
    have hmore : m.more.memory = m.memory := rfl
    rw [hx, hx, hmore]
    cases h : g m.memory with
    | ok memory => exact (tick (P := fun _ => True)).continues { m with memory } trivial
    | error e => rfl
  answers m a m' hp h := by
    rw [hx] at h
    cases hgm : g m.memory with
    | ok memory =>
      rw [hgm] at h
      obtain ⟨_, console, steps⟩ := m
      cases steps with
      | zero => cases h
      | succ n =>
        cases h
        exact (hg _ _ hp hgm).2
    | error e =>
      rw [hgm] at h
      cases h

/-- The body of a call is run in the frame that was entered; the frame is left with the step behind
it, or when the body fails. -/
theorem inFrame {frame : Frame} {body : Run α} {B : Memory → Prop}
    (hP : ∀ {m m' : Memory}, m.SameShape m' → P m → P m') (hkeeps : Keeps Memory.Grows body)
    (henter : ∀ m, P m → m.Step p (m.push frame) ∧ B (m.push frame)) (hbody : Traces p B body Q) :
    Traces p P (Run.inFrame frame body) fun _ => P where
  begins m hp hsteps := by
    obtain ⟨memory, console, steps⟩ := m
    obtain rfl : steps = 0 := hsteps
    exact (henter memory hp).1
  continues m hp := by
    -- The frame costs one step on the way in and one on the way out.
    have hinside : Traces p B (Run.tick *> body) Q := tick.bind fun _ => hbody
    have h := hinside.continues { m with memory := m.memory.push frame } (henter _ hp).2
    have hmore : ({ m.more with memory := m.more.memory.push frame } : Machine)
        = Machine.more { m with memory := m.memory.push frame } := rfl
    rw [Run.inFrame]
    cases hrun : (Run.tick *> body) { m with memory := m.memory.push frame } with
    | ok a m₁ =>
      rw [hrun] at h
      have hrun' : (Run.tick *> body) (Machine.more _) = .ok a m₁.more := h
      rw [Run.inFrame, hmore, hrun']
      have hleave : Traces p (fun _ => True) (Run.tick *> Pure.pure a) fun _ _ => True :=
        tick.bind fun _ => pure fun _ _ => trivial
      exact hleave.continues { m₁ with memory := m₁.memory.pop } trivial
    | error stop m₁ =>
      rw [hrun] at h
      cases stop with
      | error e =>
        have hrun' : (Run.tick *> body) (Machine.more _) = .error (.error e) m₁.more := h
        rw [Run.inFrame, hmore, hrun']
        rfl
      | outOfSteps =>
        have hreaches : Reaches p m₁.memory ((Run.tick *> body) (Machine.more _)) := h
        exact hreaches.inFrame
  answers m a m' hp h := by
    have hleaves : Leaves Memory.SameShape m.memory (Run.inFrame frame body m) :=
      Keeps.inFrame hkeeps m
    rw [h] at hleaves
    exact hP hleaves hp

end Traces

end Run

namespace Program

variable {p : Program} {Γ Δ : Env} {calls : Calls}

/-! ## Arguments -/

/-- The memory runs code of the point, and the table binds these parameters. -/
def Prepared (Γ : Env) (parameters : List Parameter) (table : Table Binding) (m : Memory) : Prop :=
  m.Runs Γ.heading ∧ m.BindsAll m.Mine parameters table.get?

/-- What was prepared for a call stays prepared while the shape is kept. -/
theorem Prepared.keep {parameters : List Parameter} {table : Table Binding} {m m' : Memory}
    (h : m.SameShape m') (hprepared : Prepared Γ parameters table m) :
    Prepared Γ parameters table m' :=
  ⟨hprepared.1.mono h.grows.le, hprepared.2.keep h⟩

theorem traces_bind {parameters : List Parameter} {table : Table Binding}
    (hshapely : Run.ShapelyCalls calls) (routine : String) (parameter : Parameter)
    (argument : Argument) (hfit : Expr.FitArgument Γ.names parameter.mode argument)
    (hvalue : ∀ e, argument = .value e → Run.Traces p (·.Runs Γ.heading) (Run.evaluate calls e)
      fun _ m => m.Runs Γ.heading) :
    Run.Traces p (Prepared Γ parameters table) (bind calls routine parameter argument)
      fun b m => Prepared Γ parameters table m ∧ m.Suits m.Mine parameter b := by
  cases argument with
  | value e =>
    obtain ⟨hmode, -⟩ := hfit
    have hevaluate := (hvalue e rfl).keep (Run.keeps_evaluate hshapely e)
      (I := fun m => m.BindsAll m.Mine parameters table.get?) fun h hbinds => hbinds.keep h
    refine hevaluate.bind fun v => ?_
    refine (Run.Traces.still_same (Run.still_atLine _ _)).bind fun w => ?_
    exact .pure fun m h => ⟨h, hmode, rfl⟩
  | reference line id =>
    obtain ⟨hmode, hwrites⟩ := hfit
    refine .bindMemory (Q := fun found m =>
      Prepared Γ parameters table m ∧ m.Mine found.1 ∧ m.slot? found.1 = some found.2)
      (·.find id) (fun m found h hfind => ?_) fun found => ?_
    · obtain ⟨hlocate, hslot⟩ := Memory.slot?_of_find hfind
      exact ⟨h, Memory.mine_of_locate h.1 hwrites hlocate, hslot⟩
    · obtain ⟨place, type, old⟩ := found
      dsimp only
      split
      · rename_i htype
        exact .pure fun m h => ⟨h.1, hmode, h.2.1, old, htype ▸ h.2.2⟩
      · exact .still (Run.still_atLine _ _) fun m a m' _ hrun => by cases hrun

theorem traces_bindAll (hshapely : Run.ShapelyCalls calls) (routine : String)
    (before : List Parameter) {parameters : List Parameter} {arguments : List Argument}
    (hfit : Expr.Fit Γ.names parameters arguments)
    (hvalues : ∀ e, .value e ∈ arguments → Run.Traces p (·.Runs Γ.heading) (Run.evaluate calls e)
      fun _ m => m.Runs Γ.heading)
    (hnodup : ((before ++ parameters).map (·.name)).Nodup) (table : Table Binding) :
    Run.Traces p (Prepared Γ before table) (bindAll calls routine parameters arguments table)
      fun table' m => Prepared Γ (before ++ parameters) table' m := by
  induction arguments generalizing parameters before table with
  | nil =>
    obtain rfl : parameters = [] := hfit
    rw [List.append_nil]
    exact .pure fun _ h => h
  | cons argument rest ih =>
    obtain ⟨parameter, more, rfl, hargument, hrest⟩ := hfit
    have hsplit : before ++ parameter :: more = (before ++ [parameter]) ++ more := by simp
    have hname : ∀ other ∈ before, other.name ≠ parameter.name := by
      intro other hother heq
      rw [List.map_append, List.map_cons, List.nodup_append] at hnodup
      exact hnodup.2.2 _ (List.mem_map_of_mem hother) _ List.mem_cons_self heq
    rw [hsplit] at hnodup ⊢
    unfold bindAll
    refine (traces_bind hshapely routine parameter argument hargument fun e he => ?_).bind
      fun b => ?_
    · exact hvalues e (he ▸ List.mem_cons_self)
    · have hmore := ih (before ++ [parameter]) hrest
        (fun e he => hvalues e (List.mem_cons_of_mem _ he)) hnodup (table.insert parameter.name b)
      exact hmore.mono (fun m h => ⟨h.1.1, h.1.2.insert h.2 hname⟩) fun _ _ h => h

/-! ## Every run of a program -/

/-- Behind what is run inside a block or forgotten, the memory fits the point in front of it: what
was declared on the way need not be known, since no place is lost. -/
theorem traces_back {α : Type} {x : Run α} {Γ Γ' Δ : Env} (hgrows : Run.Keeps Memory.Grows x)
    (hx : Run.Traces p (·.Runs Γ'.heading) x fun _ m => m.Runs Δ.heading)
    (hheading : Γ'.heading = Γ.heading) :
    Run.Traces p (·.Runs Γ.heading) x fun _ m => m.Runs Γ.heading := by
  rw [hheading] at hx
  refine ⟨hx.begins, hx.continues, fun m a m' hp hrun => ?_⟩
  have hleaves := hgrows m
  rw [hrun] at hleaves
  exact hp.mono hleaves.le

/-- A store into a variable that may be written is one step, and it writes a place of the routine or
a global one. -/
theorem traces_store {Γ : Env} {id : String} (hwrites : Γ.names.writes id) (indices : List Integer)
    (value : Value) (line : Nat) :
    Run.Traces p (·.Runs Γ.heading) (Run.store id indices value line)
      fun _ m => m.Runs Γ.heading := by
  refine .change (g := fun m => (m.store id indices value).mapError (⟨·, line⟩))
    (fun m => ?_) fun m m' hruns hstore => ?_
  · rw [Run.store_run]
    cases m.memory.store id indices value <;> rfl
  · cases hresult : m.store id indices value with
    | error fault =>
      rw [hresult] at hstore
      cases hstore
    | ok written =>
      rw [hresult] at hstore
      cases hstore
      obtain ⟨place, slot, v, hfind, rfl⟩ := Memory.exists_write_of_store hresult
      have hmine := Memory.mine_of_locate hruns hwrites (Memory.slot?_of_find hfind).1
      exact ⟨.write v hmine, hruns.mono (m.sameShape_write place v).grows.le⟩

/-- A run at a point of an accepted program goes from memory to memory by steps. -/
theorem Leads.traces {α : Type} {x : Run α} (h : p.Leads Γ x Δ) :
    Run.Traces p (·.Runs Γ.heading) x fun _ m => m.Runs Δ.heading := by
  induction h with
  | pure a => exact .pure fun _ h => h
  | bind _ _ ihx ihf => exact ihx.bind ihf
  | outOfSteps => exact .outOfSteps
  | tick => exact .tick
  | atLine result => exact .still_same (Run.still_atLine _ result)
  | look => exact .still_same fun m => Run.still_atLine _ _ m
  | store writes indices value => exact traces_store writes indices value _
  | @declare Γ name v id_eq =>
    refine .change (g := fun m => .ok (m.declare v)) (fun m => rfl) fun m m' hruns hdeclare => ?_
    cases hdeclare
    rw [Env.heading_declare]
    exact ⟨.declare v, hruns.mono (m.grows_declare v).le⟩
  | readLine => exact .still_same (Run.still_readLine _)
  | writeLine text => exact .still_same (Run.still_writeLine text _)
  | inside scope body ih => exact traces_back body.grows ih rfl
  | forget more ih => exact traces_back more.grows ih rfl
  | routines rs _ ih => exact ih
  | @call Γ Γ' Δ calls r arguments body found scope names distinct fit shapely values inside ihv
      ihb =>
    have hbind := traces_bindAll shapely r.heading.name [] fit ihv distinct .empty
    refine .bind (hbind.mono (fun m hruns => ⟨hruns, m.bindsAll_nil _⟩) fun _ _ h => h)
      fun table => ?_
    have hcall := Run.Traces.inFrame (P := Prepared Γ r.heading.parameters table)
      (fun h hprepared => hprepared.keep h) inside.grows
      (fun m hprepared => ⟨Memory.Step.enter found hprepared.2,
        _, Array.back?_push, hprepared.2.binds⟩) ihb
    exact hcall.mono (fun _ h => h) fun _ _ h => h.1

end Program

/-! ## The run of a context -/

namespace Context

/-- The memory after a number of steps of a run. -/
def stateAt (c : Context) (n : Nat) : Memory := (c.run n).2.memory

/-- The state after so many steps does not depend on the bound. -/
theorem stateAt_eq (c : Context) (n : Nat) {b : Nat} (hb : n ≤ b) :
    c.stateAt n = Run.lastMemory
      (c.program.run b { memory := c.memory, console := c.console, steps := n }) := by
  have hagree := (c.program.agree_run (Nat.le_refl n) hb
    { memory := c.memory, console := c.console, steps := n } (Nat.le_refl n)).1
  unfold stateAt Context.run serve EStateM.run
  rw [hagree]
  cases c.program.run b { memory := c.memory, console := c.console, steps := n } <;> rfl

variable {c : Context} {source : String}

/-- The run of an accepted program goes by steps. -/
theorem traces_run (h : Program.ofSource source = .ok c.program) (bound : Nat) :
    Run.Traces c.program (·.frames.size = 0) (c.program.run bound) fun _ _ => True := by
  obtain ⟨o, hmeans⟩ := Program.ofSource_means h
  exact (Program.leads_run hmeans bound).traces.mono (fun _ hframes => hframes) fun _ _ _ => trivial

/-- The run of an accepted program begins with at most one change. -/
theorem step_stateAt_zero (h : Program.ofSource source = .ok c.program)
    (hframes : c.memory.frames.size = 0) : c.memory.Step c.program (c.stateAt 0) := by
  rw [c.stateAt_eq 0 (Nat.le_refl 0)]
  exact ((traces_run h 0).begins
    { memory := c.memory, console := c.console, steps := 0 } hframes rfl).step

/-- From one state of a run of an accepted program to the next there is one step. -/
theorem step_stateAt (h : Program.ofSource source = .ok c.program)
    (hframes : c.memory.frames.size = 0) (n : Nat) :
    (c.stateAt n).Step c.program (c.stateAt (n + 1)) := by
  rw [c.stateAt_eq n (Nat.le_succ n), c.stateAt_eq (n + 1) (Nat.le_refl (n + 1))]
  exact ((traces_run h (n + 1)).continues
    { memory := c.memory, console := c.console, steps := n } hframes).step

end Context

end Primer
