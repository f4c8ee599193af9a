import Primer.Proofs.Run.Bounds
import Primer.Proofs.Run.Governed
import Primer.Proofs.Run.Safety

/-!
# Primer.Proofs.Run.Consoles — one program on several consoles.

A program knows its console by the lines it reads and by the first refusal.  So two runs of it, on
consoles that differ in what is left to be read at the end and in how many lines they take, go hand
in hand until one of them is refused something, and there it ends.  `Run.Aligned` relates the ends
of two such runs; the rules of `Regime.Governs` keep it.

Where a line is refused, the run stands at an output statement.  To say so of a whole run, it is
stopped a few steps earlier: `Program.ComesToOutput` says that with some of the steps the run gets
to the front of an expression, and that with the rest the expression has a value.  That this may be
put together from the parts of a run is due to `Run.Needs`: a part that answers takes a fixed number
of steps, however many are left for what comes behind.

Main statement: `Program.runOn_console`.
-/

namespace Primer

/-! ## Two consoles -/

/-- The console with another limit and with more lines to be read after its own. -/
def Console.offering (limit : Option Nat) (more : List String) (c : Console) : Console :=
  { c with input := c.input ++ more, limit }

/-- The machine with such a console in the place of its own. -/
def Machine.onConsole (limit : Option Nat) (more : List String) (m : Machine) : Machine :=
  { m with console := m.console.offering limit more }

/-- The context with such a console in the place of its own. -/
def Context.onConsole (limit : Option Nat) (more : List String) (c : Context) : Context :=
  { c with console := c.console.offering limit more }

/-- The console of the machine takes every line, and what was written so far keeps a limit. -/
structure Machine.Fits (limit : Option Nat) (m : Machine) : Prop where
  unlimited : m.console.limit = none
  room : ∀ n, limit = some n → m.console.output.size ≤ n

namespace Run

variable {α β : Type}

/-- The machine that a run ended with. -/
def machine : EStateM.Result Stop Machine α → Machine
  | .ok _ m => m
  | .error _ m => m

/-- The same end on another console. -/
def onConsole (limit : Option Nat) (more : List String) :
    EStateM.Result Stop Machine α → EStateM.Result Stop Machine α
  | .ok a m => .ok a (m.onConsole limit more)
  | .error stop m => .error stop (m.onConsole limit more)

/-- What is left of a run after its first part has ended. -/
def resume (f : α → Run β) : EStateM.Result Stop Machine α → EStateM.Result Stop Machine β
  | .ok a m => f a m
  | .error stop m => .error stop m

/-- A run with two parts, of which the second is what is left. -/
theorem bind_run (x : Run α) (f : α → Run β) (m : Machine) : (x >>= f) m = resume f (x m) := by
  show EStateM.bind x f m = _
  unfold EStateM.bind
  cases x m <;> rfl

/-- How a call ends when its body has ended. -/
def leave : EStateM.Result Stop Machine α → EStateM.Result Stop Machine α
  | .ok a m => (Run.tick >>= fun _ => pure a : Run α) { m with memory := m.memory.pop }
  | .error (.error e) m => .error (.error e) { m with memory := m.memory.pop }
  | .error .outOfSteps m => .error .outOfSteps m

theorem inFrame_run (f : Frame) (body : Run α) (m : Machine) :
    inFrame f body m
      = leave ((Run.tick >>= fun _ => body) { m with memory := m.memory.push f }) := by
  unfold inFrame
  rw [seqRight_eq_bind]
  cases (Run.tick >>= fun _ => body) { m with memory := m.memory.push f } with
  | ok a m' => simp only [seqRight_eq_bind, leave]
  | error stop m' => cases stop <;> rfl

theorem console_tick (m : Machine) : (machine (Run.tick m)).console = m.console := by
  obtain ⟨memory, console, steps⟩ := m
  cases steps <;> rfl

theorem console_leave (r : EStateM.Result Stop Machine α) :
    (machine (leave r)).console = (machine r).console := by
  cases r with
  | ok a m =>
    obtain ⟨memory, console, steps⟩ := m
    cases steps <;> rfl
  | error stop m => cases stop <;> rfl

/-- The ends of two runs of which the second had a limit and more to read.  They are the same; or
the second one was refused the line that the first one wrote there, and stopped with what had been
written by then; or the first one had nothing left to read.  Of a refusal something is known besides
(`refuses`): of the line of the program, of the text, and of the console as it was. -/
inductive Aligned (refuses : Nat → String → Console → Prop) (limit : Option Nat)
    (more : List String) :
    EStateM.Result Stop Machine α → EStateM.Result Stop Machine α → Prop
  | same {r : EStateM.Result Stop Machine α} (fits : (machine r).Fits limit) :
      Aligned refuses limit more r (onConsole limit more r)
  | refused {r : EStateM.Result Stop Machine α} {m : Machine} {n line : Nat} {text : String}
      (limited : limit = some n) (known : refuses line text m.console)
      (next : (machine r).console.output.toList[n]? = some text)
      (output : m.console.output.toList = (machine r).console.output.toList.take n) :
      Aligned refuses limit more r (.error (.error ⟨.io .closed, line⟩) m)
  | starved {r : EStateM.Result Stop Machine α} {m : Machine} {line : Nat} (longer : more ≠ []) :
      Aligned refuses limit more (.error (.error ⟨.io .noMoreInput, line⟩) m) r

end Run

/-! ## The steps that a run takes -/

namespace Run

/-- A run that answers takes so many steps, and with them it answers whatever is left besides. -/
def Needs {α : Type} (x : Run α) : Prop :=
  ∀ m a m', x m = .ok a m' → ∃ taken, m.steps = taken + m'.steps ∧
    ∀ left, x { m with steps := taken + left } = .ok a { m' with steps := left }

namespace Needs

variable {α β : Type} {x : Run α} {f : α → Run β}

/-- A run that makes no step and does not ask how many are left. -/
theorem none (h : ∀ m a m', x m = .ok a m' →
    m'.steps = m.steps ∧ ∀ steps, x { m with steps } = .ok a { m' with steps }) : Needs x := by
  intro m a m' hrun
  obtain ⟨hsteps, hsame⟩ := h m a m' hrun
  refine ⟨0, by rw [hsteps, Nat.zero_add], fun left => ?_⟩
  rw [Nat.zero_add]
  exact hsame left

theorem pure (a : α) : Needs (Pure.pure a : Run α) := by
  refine none fun m b m' hrun => ?_
  cases hrun
  exact ⟨rfl, fun _ => rfl⟩

theorem bind (hx : Needs x) (hf : ∀ a m m', x m = .ok a m' → Needs (f a)) : Needs (x >>= f) := by
  intro m b m'' hrun
  rw [bind_run] at hrun
  cases hfirst : x m with
  | error stop m' =>
    rw [hfirst] at hrun
    cases hrun
  | ok a m' =>
    rw [hfirst] at hrun
    obtain ⟨taken, hsteps, hsame⟩ := hx m a m' hfirst
    obtain ⟨more, hsteps', hsame'⟩ := hf a m m' hfirst m' b m'' hrun
    refine ⟨taken + more, by omega, fun left => ?_⟩
    rw [bind_run, Nat.add_assoc, hsame]
    exact hsame' left

theorem tick : Needs Run.tick := by
  rintro ⟨memory, console, steps⟩ u m' hrun
  cases steps with
  | zero => cases hrun
  | succ n =>
    cases hrun
    refine ⟨1, Nat.add_comm n 1, fun left => ?_⟩
    rw [Nat.add_comm 1 left]
    rfl

theorem atLine {line : Nat} {result : Except Fault α} : Needs (Run.atLine line result) := by
  refine none fun m a m' hrun => ?_
  cases result with
  | ok b =>
    cases hrun
    exact ⟨rfl, fun _ => rfl⟩
  | error fault => cases hrun

theorem look {line : Nat} {check : Memory → Except Fault α} :
    Needs (do Run.atLine line (check (← get).memory)) :=
  fun m a m' hrun => atLine m a m' hrun

theorem store {line : Nat} {id : String} {path : List Integer} {v : Value} :
    Needs (Run.store id path v line) := by
  intro m u m' hrun
  rw [store_run] at hrun
  cases hstore : m.memory.store id path v with
  | error fault =>
    rw [hstore] at hrun
    cases hrun
  | ok memory =>
    rw [hstore] at hrun
    obtain ⟨taken, hsteps, hsame⟩ := tick { m with memory } u m' hrun
    refine ⟨taken, hsteps, fun left => ?_⟩
    rw [store_run, hstore]
    exact hsame left

theorem declare {v : Variable} : Needs (Run.declare v) :=
  fun m u m' hrun => tick { m with memory := m.memory.declare v } u m' hrun

theorem readLine {line : Nat} : Needs (Run.readLine line) := by
  refine none fun m text m' hrun => ?_
  rw [readLine_run] at hrun
  cases hread : m.console.read with
  | error cause =>
    rw [hread] at hrun
    cases hrun
  | ok answer =>
    rw [hread] at hrun
    cases hrun
    refine ⟨rfl, fun steps => ?_⟩
    rw [readLine_run, hread]

theorem writeLine {text : String} {line : Nat} : Needs (Run.writeLine text line) := by
  refine none fun m u m' hrun => ?_
  rw [writeLine_run] at hrun
  cases hwrite : m.console.write text with
  | error cause =>
    rw [hwrite] at hrun
    cases hrun
  | ok console =>
    rw [hwrite] at hrun
    cases hrun
    refine ⟨rfl, fun steps => ?_⟩
    rw [writeLine_run, hwrite]

/-- A call takes the steps of its body, one to enter it and one to leave it. -/
theorem inFrame {frame : Frame} {body : Run α} (h : Needs body) :
    Needs (Run.inFrame frame body) := by
  intro m a m'' hrun
  have hinside : Needs (Run.tick >>= fun _ => body) := tick.bind fun _ _ _ _ => h
  rw [inFrame_run] at hrun
  cases hbody : (Run.tick >>= fun _ => body) { m with memory := m.memory.push frame } with
  | error stop m' =>
    rw [hbody] at hrun
    cases stop <;> cases hrun
  | ok b m' =>
    rw [hbody] at hrun
    have hafter : Needs (Run.tick >>= fun _ => (Pure.pure b : Run α)) :=
      tick.bind fun _ _ _ _ => pure b
    obtain ⟨taken, hsteps, hsame⟩ := hinside _ b m' hbody
    obtain ⟨more, hsteps', hsame'⟩ := hafter { m' with memory := m'.memory.pop } a m'' hrun
    refine ⟨taken + more, ?_, fun left => ?_⟩
    · have hpushed : m.steps = taken + m'.steps := hsteps
      have hpopped : m'.steps = more + m''.steps := hsteps'
      omega
    · have hsame₁ := hsame (more + left)
      rw [inFrame_run, Nat.add_assoc]
      dsimp only at hsame₁ ⊢
      rw [hsame₁]
      exact hsame' left

end Needs

end Run

/-! ## On the way to an output -/

/-- The run comes to an output statement of the program: when it is stopped after some steps, it
stands in front of the expression of the statement, and the steps that are left give the expression
a value.  What is said of it is the line of the statement, the text of the value, and the console
that is then to take the text. -/
inductive Program.ComesToOutput {α : Type} (p : Program) (x : Run α) (m : Machine) :
    Nat → String → Console → Prop
  | intro {taken bound : Nat} {id : NodeId} {node : Node} {e : Expr} {v : Value} {m₀ m₁ : Machine}
      (less : taken < m.steps) (stands : x { m with steps := taken } = .error .outOfSteps m₀)
      (found : p.tree.node? id = some node) (output : node.construct = .output e)
      (value : Run.evaluate (p.call bound) e { m₀ with steps := m.steps - taken } = .ok v m₁) :
      ComesToOutput p x m node.line v.text m₁.console

namespace Program.ComesToOutput

variable {α β : Type} {p : Program} {x : Run α} {f : α → Run β} {m m' : Machine} {a : α}
  {line : Nat} {text : String} {console : Console}

/-- A run comes to an output if its first part does. -/
theorem bind (h : p.ComesToOutput x m line text console) :
    p.ComesToOutput (x >>= f) m line text console := by
  cases h with
  | intro less stands found output value =>
    refine .intro less ?_ found output value
    rw [Run.bind_run, stands]
    rfl

/-- Behind a first part that answers. -/
theorem behind (hx : Run.Needs x) (hrun : x m = .ok a m')
    (h : p.ComesToOutput (f a) m' line text console) :
    p.ComesToOutput (x >>= f) m line text console := by
  obtain ⟨before, hsteps, hsame⟩ := hx m a m' hrun
  cases h with
  | @intro taken bound id node e v m₀ m₁ less stands found output value =>
    have hless : before + taken < m.steps := by omega
    have hleft : m.steps - (before + taken) = m'.steps - taken := by omega
    refine .intro hless ?_ found output (hleft ▸ value)
    rw [Run.bind_run, hsame]
    exact stands

/-- Inside of a call. -/
theorem inFrame {frame : Frame}
    (h : p.ComesToOutput (Run.tick >>= fun _ => x) { m with memory := m.memory.push frame } line
      text console) :
    p.ComesToOutput (Run.inFrame frame x) m line text console := by
  cases h with
  | intro less stands found output value =>
    refine .intro less ?_ found output value
    rw [Run.inFrame_run]
    dsimp only at stands ⊢
    rw [stands]
    rfl

/-- Without a step, no expression has a value. -/
theorem evaluate_exhausted (calls : Calls) (e : Expr) (h : m.steps = 0) :
    Run.evaluate calls e m = .error .outOfSteps m := by
  cases e <;> rw [Run.evaluate] <;> exact Run.tick_exhausted h

/-- In front of the expression itself. -/
theorem here {f : Value → Run β} {bound : Nat} {id : NodeId} {node : Node} {e : Expr} {v : Value}
    (found : p.tree.node? id = some node) (output : node.construct = .output e)
    (hrun : Run.evaluate (p.call bound) e m = .ok v m') :
    p.ComesToOutput (Run.evaluate (p.call bound) e >>= f) m node.line v.text m'.console := by
  have hless : 0 < m.steps := by
    refine Nat.pos_of_ne_zero fun hzero => ?_
    rw [evaluate_exhausted _ e hzero] at hrun
    cases hrun
  have hstands : (Run.evaluate (p.call bound) e >>= f) { m with steps := 0 }
      = .error .outOfSteps { m with steps := 0 } := by
    rw [Run.bind_run, evaluate_exhausted _ e rfl]
    rfl
  exact .intro hless hstands found output hrun

end Program.ComesToOutput

/-! ## Runs of any program -/

theorem Run.Aligned.imp {α : Type} {refuses refuses' : Nat → String → Console → Prop}
    {limit : Option Nat} {more : List String} {r r' : EStateM.Result Stop Machine α}
    (h : Run.Aligned refuses limit more r r')
    (hknown : ∀ line text console, refuses line text console → refuses' line text console) :
    Run.Aligned refuses' limit more r r' := by
  cases h with
  | same fits => exact .same fits
  | refused limited known next output =>
    exact .refused limited (hknown _ _ _ known) next output
  | starved longer => exact .starved longer

/-- The regime that asks nothing but that lines are written by output statements. -/
def Regime.free (p : Program) : Regime where
  value _ := True
  text _ := True
  fault _ := True
  writes calls e line := ∃ bound id node, calls = p.call bound ∧ p.tree.node? id = some node ∧
    node.construct = .output e ∧ node.line = line

namespace Regime

variable {p : Program} {α β : Type} {Q : α → Prop} {x : Run α}

theorem passes_free {result : Except Fault Value} : (free p).Passes result fun _ => True := by
  cases result <;> trivial

theorem lawful_free : (free p).Lawful where
  integer _ := trivial
  widened _ := trivial
  initial _ := trivial
  items _ _ := ⟨fun _ _ _ => trivial, fun _ => trivial⟩
  unary _ _ _ := passes_free
  binary _ _ _ _ _ := passes_free
  input _ _ _ := passes_free
  fault _ _ := trivial

theorem suits_free : (free p).Suits p where
  literals _ _ _ _ _ := trivial
  writes bound id node _ hnode hconstruct := ⟨bound, id, node, rfl, hnode, hconstruct, rfl⟩

theorem admits_free (m : Machine) : (free p).Admits m := by
  refine ⟨⟨fun _ _ _ _ => trivial, fun _ _ b _ => ?_⟩, fun _ _ => trivial⟩
  cases b <;> trivial

/-- An answer has the property that the rules give it. -/
theorem Governs.answer (h : (free p).Governs x Q) {m m' : Machine} {a : α} (hrun : x m = .ok a m') :
    Q a := by
  have hends := h.ends lawful_free m (admits_free m)
  rw [hrun] at hends
  exact hends.1

/-- Of what a first part has written nothing is lost if the rest loses nothing. -/
theorem prefix_resume {f : α → Run β} {r : EStateM.Result Stop Machine α}
    (hf : ∀ a m, r = .ok a m →
      m.console.output.toList <+: (Run.machine (f a m)).console.output.toList) :
    (Run.machine r).console.output.toList
      <+: (Run.machine (Run.resume f r)).console.output.toList := by
  cases r with
  | ok a m => exact hf a m rfl
  | error stop m => exact List.prefix_rfl

/-- A line that is written is the last one. -/
theorem output_grows_writeLine (text : String) (line : Nat) (m : Machine) :
    m.console.output.toList
      <+: (Run.machine (Run.writeLine text line m)).console.output.toList := by
  rw [Run.writeLine_run]
  cases hwrite : m.console.write text with
  | error cause => exact List.prefix_rfl
  | ok console =>
    obtain ⟨-, rfl⟩ := Console.write_eq_ok_iff.1 hwrite
    show _ <+: (m.console.output.push text).toList
    rw [Array.toList_push]
    exact List.prefix_append _ _

/-- Lines that were written stay written. -/
theorem Governs.output_grows (h : (free p).Governs x Q) (m : Machine) :
    m.console.output.toList <+: (Run.machine (x m)).console.output.toList := by
  have hconsole {m m' : Machine} (heq : m'.console = m.console) :
      m.console.output.toList <+: m'.console.output.toList :=
    heq ▸ List.prefix_rfl
  induction h generalizing m with
  | pure => exact List.prefix_rfl
  | @bind α β Q S x f first _ ihx ihf =>
    rw [Run.bind_run]
    refine (ihx m).trans (prefix_resume fun a m' hrun => ?_)
    exact ihf a (first.answer hrun) m'
  | outOfSteps => exact List.prefix_rfl
  | tick => exact hconsole (Run.console_tick m)
  | @atLine α Q line result => cases result <;> exact List.prefix_rfl
  | @look α Q line check =>
    show _ <+: (Run.machine (Run.atLine line (check m.memory) m)).console.output.toList
    cases check m.memory <;> exact List.prefix_rfl
  | @store line id path v =>
    rw [Run.store_run]
    cases m.memory.store id path v with
    | ok memory => exact hconsole (Run.console_tick _)
    | error fault => exact List.prefix_rfl
  | declare => exact hconsole (Run.console_tick _)
  -- Reading a line changes the input, not the output.
  | readLine =>
    rw [Run.readLine_run]
    cases hread : m.console.read with
    | error cause => exact List.prefix_rfl
    | ok answer =>
      obtain ⟨-, houtput, -⟩ := Console.read_eq_ok_iff.1 hread
      show _ <+: answer.2.output.toList
      exact houtput ▸ List.prefix_rfl
  | output _ _ ih =>
    rw [Run.bind_run]
    exact (ih m).trans (prefix_resume fun v m' _ => output_grows_writeLine v.text _ m')
  | @inFrame α Q f body frame _ ih =>
    rw [Run.inFrame_run, Run.console_leave, Run.bind_run]
    have htick := hconsole (Run.console_tick { m with memory := m.memory.push f })
    exact htick.trans (prefix_resume fun _ m' _ => ih m')

/-- Every run of a program needs the steps that it takes, and no others. -/
theorem Governs.needs (h : (free p).Governs x Q) : Run.Needs x := by
  induction h with
  | pure => exact .pure _
  | bind first _ ihx ihf => exact ihx.bind fun a _ _ hrun => ihf a (first.answer hrun)
  | outOfSteps => exact fun _ _ _ hrun => nomatch hrun
  | tick => exact .tick
  | atLine => exact .atLine
  | look => exact .look
  | store => exact .store
  | declare => exact .declare
  | readLine => exact .readLine
  | output _ _ ih => exact ih.bind fun _ _ _ _ => .writeLine
  | inFrame _ _ ih => exact .inFrame ih

/-! ## Two runs hand in hand -/

variable {refuses refuses' : Nat → String → Console → Prop} {limit : Option Nat}
  {more : List String}

/-- A step is made on both consoles or on none. -/
theorem aligned_tick {m : Machine} (hm : m.Fits limit) :
    Run.Aligned refuses limit more (Run.tick m) (Run.tick (m.onConsole limit more)) := by
  obtain ⟨memory, console, steps⟩ := m
  cases steps with
  | zero => exact .same hm
  | succ n => exact .same ⟨hm.unlimited, hm.room⟩

theorem aligned_atLine {m : Machine} (hm : m.Fits limit) (line : Nat) (result : Except Fault α) :
    Run.Aligned refuses limit more (Run.atLine line result m)
      (Run.atLine line result (m.onConsole limit more)) := by
  cases result with
  | ok a => exact .same hm
  | error fault => exact .same hm

/-- A run that goes on is aligned if its first part is, and so is every way in which it may go
on. -/
theorem aligned_resume {f : α → Run β} {r r' : EStateM.Result Stop Machine α}
    (h : Run.Aligned refuses limit more r r')
    (hearlier : (Run.machine r).console.output.toList
      <+: (Run.machine (Run.resume f r)).console.output.toList)
    (hknown : ∀ line text console, refuses line text console → refuses' line text console)
    (hf : ∀ a m, r = .ok a m → r' = .ok a (m.onConsole limit more) → m.Fits limit →
      Run.Aligned refuses' limit more (f a m) (f a (m.onConsole limit more))) :
    Run.Aligned refuses' limit more (Run.resume f r) (Run.resume f r') := by
  cases h with
  | same fits =>
    cases r with
    | ok a m => exact hf a m rfl rfl fits
    | error stop m => exact .same fits
  | @refused r m n line text limited known next output =>
    -- the lines before the refused one are still the first that the whole run writes
    obtain ⟨rest, hrest⟩ := hearlier
    have hlength := (List.getElem?_eq_some_iff.1 next).1
    refine .refused limited (hknown _ _ _ known) ?_ ?_
    · rw [← hrest, List.getElem?_append_left hlength]
      exact next
    · rw [output, ← hrest, List.take_append_of_le_length (Nat.le_of_lt hlength)]
  | starved longer => exact .starved longer

theorem aligned_leave {r r' : EStateM.Result Stop Machine α}
    (h : Run.Aligned refuses limit more r r')
    (hknown : ∀ line text console, refuses line text console → refuses' line text console) :
    Run.Aligned refuses' limit more (Run.leave r) (Run.leave r') := by
  cases h with
  | same fits =>
    cases r with
    | ok a m =>
      obtain ⟨memory, console, steps⟩ := m
      cases steps with
      | zero => exact .same ⟨fits.unlimited, fits.room⟩
      | succ n => exact .same ⟨fits.unlimited, fits.room⟩
    | error stop m =>
      cases stop with
      | error e => exact .same ⟨fits.unlimited, fits.room⟩
      | outOfSteps => exact .same fits
  | refused limited known next output =>
    refine .refused limited (hknown _ _ _ known) ?_ ?_
    · rw [Run.console_leave]
      exact next
    · rw [Run.console_leave]
      exact output
  | starved longer => exact .starved longer

/-- Only where nothing is left does it matter that there is more. -/
theorem aligned_readLine {m : Machine} (hm : m.Fits limit) (line : Nat) :
    Run.Aligned refuses limit more (Run.readLine line m)
      (Run.readLine line (m.onConsole limit more)) := by
  rw [Run.readLine_run, Run.readLine_run]
  obtain ⟨memory, ⟨input, output, none'⟩, steps⟩ := m
  cases input with
  | cons text rest => exact .same ⟨hm.unlimited, hm.room⟩
  | nil =>
    -- only here can the additional lines make a difference
    cases more with
    | nil => exact .same hm
    | cons text rest => exact .starved (List.cons_ne_nil text rest)

/-- The limited console takes a line while fewer are written than its limit. -/
theorem accepts_onConsole (m : Machine) (n : Nat) :
    (m.onConsole (some n) more).console.accepts = true ↔ m.console.output.size < n := by
  unfold Console.accepts Machine.onConsole Console.offering
  exact decide_eq_true_iff

/-- Where the limited console takes a line, there is room for it. -/
theorem fits_push {m : Machine} (hm : m.Fits limit)
    (haccepts : (m.onConsole limit more).console.accepts = true) (text : String) :
    Machine.Fits limit
      { m with console := { m.console with output := m.console.output.push text } } := by
  refine ⟨hm.unlimited, fun n hn => ?_⟩
  rw [hn, accepts_onConsole] at haccepts
  show (m.console.output.push text).size ≤ n
  rw [Array.size_push]
  exact haccepts

/-- Where it refuses one, as many lines were written as the limit allows. -/
theorem exists_limit_of_refused {m : Machine} (hm : m.Fits limit)
    (hrefuses : ¬ (m.onConsole limit more).console.accepts = true) :
    ∃ n, limit = some n ∧ m.console.output.toList.length = n := by
  cases limit with
  | none => exact absurd rfl hrefuses
  | some n =>
    rw [accepts_onConsole, Nat.not_lt] at hrefuses
    refine ⟨n, rfl, ?_⟩
    rw [Array.length_toList]
    exact Nat.le_antisymm (hm.room n rfl) hrefuses

/-- A line that is refused is the next one that the other run writes. -/
theorem aligned_writeLine {m : Machine} (hm : m.Fits limit) {line : Nat} {text : String}
    (hknown : refuses line text (m.onConsole limit more).console) :
    Run.Aligned refuses limit more (Run.writeLine text line m)
      (Run.writeLine text line (m.onConsole limit more)) := by
  have hwrite : m.console.write text
      = .ok { m.console with output := m.console.output.push text } := by
    rw [Console.write_eq_ok_iff]
    refine ⟨?_, rfl⟩
    rw [Console.accepts, hm.unlimited]
  rw [Run.writeLine_run, Run.writeLine_run, hwrite]
  by_cases haccepts : (m.onConsole limit more).console.accepts = true
  · rw [Console.write_eq_ok_iff.2 ⟨haccepts, rfl⟩]
    exact .same (fits_push hm haccepts text)
  · rw [Console.write, if_neg haccepts]
    obtain ⟨n, hlimit, hlength⟩ := exists_limit_of_refused hm haccepts
    refine .refused hlimit hknown ?_ ?_
    · show (m.console.output.push text).toList[n]? = some text
      rw [Array.toList_push, ← hlength, List.getElem?_concat_length]
    · show m.console.output.toList = (m.console.output.push text).toList.take n
      rw [Array.toList_push, ← hlength, List.take_left]

/-- Started in the same state on two consoles, a run comes to two ends that are aligned. -/
theorem Governs.aligned (h : (free p).Governs x Q) {m : Machine} (hm : m.Fits limit) :
    Run.Aligned (p.ComesToOutput x (m.onConsole limit more)) limit more (x m)
      (x (m.onConsole limit more)) := by
  induction h generalizing m with
  | pure => exact .same hm
  | @bind α β Q S x f first rest ihx ihf =>
    rw [Run.bind_run, Run.bind_run]
    refine aligned_resume (ihx hm) (prefix_resume fun a m' hrun => ?_) (fun _ _ _ h => h.bind)
      fun a m' hrun hrun' hm' => ?_
    · exact (rest a (first.answer hrun)).output_grows m'
    · exact (ihf a (first.answer hrun) hm').imp fun _ _ _ h => .behind first.needs hrun' h
  | outOfSteps => exact .same hm
  | tick => exact aligned_tick hm
  | atLine => exact aligned_atLine hm _ _
  | look => exact aligned_atLine hm _ _
  | @store line id path v =>
    -- The limits are of the console: both runs have the same memory and store alike.
    rw [Run.store_run, Run.store_run]
    have hmemory : (m.onConsole limit more).memory = m.memory := rfl
    rw [hmemory]
    cases m.memory.store id path v with
    | ok memory => exact aligned_tick ⟨hm.unlimited, hm.room⟩
    | error fault => exact .same hm
  | declare => exact aligned_tick ⟨hm.unlimited, hm.room⟩
  | readLine => exact aligned_readLine hm _
  | output writes _ ih =>
    obtain ⟨bound, id, node, rfl, hnode, houtput, rfl⟩ := writes
    rw [Run.bind_run, Run.bind_run]
    refine aligned_resume (ih hm) (prefix_resume fun v m' _ => ?_) (fun _ _ _ h => h.bind)
      fun v m' _ hrun' hm' => ?_
    · exact output_grows_writeLine v.text _ m'
    · exact aligned_writeLine hm' (.here hnode houtput hrun')
  | @inFrame α Q f body frame inside ih =>
    rw [Run.inFrame_run, Run.inFrame_run]
    -- The frame is pushed before the tick and popped behind the body, in both runs.
    have hpushed : Machine.Fits limit { m with memory := m.memory.push f } :=
      ⟨hm.unlimited, hm.room⟩
    have hinside : Run.Aligned
        (p.ComesToOutput (Run.tick >>= fun _ => body)
          { m.onConsole limit more with memory := m.memory.push f }) limit more
        ((Run.tick >>= fun _ => body) { m with memory := m.memory.push f })
        ((Run.tick >>= fun _ => body)
          { m.onConsole limit more with memory := m.memory.push f }) := by
      have htick : Run.Aligned (fun _ _ _ => False) limit more
          (Run.tick { m with memory := m.memory.push f })
          (Run.tick { m.onConsole limit more with memory := m.memory.push f }) :=
        aligned_tick hpushed
      rw [Run.bind_run, Run.bind_run]
      refine aligned_resume htick (prefix_resume fun _ m' _ => ?_) (fun _ _ _ h => h.elim)
        fun _ m' _ hrun' hm' => ?_
      · exact inside.output_grows m'
      · exact (ih hm').imp fun _ _ _ h => .behind .tick hrun' h
    exact aligned_leave hinside fun _ _ _ h => h.inFrame

end Regime

/-! ## Whole programs -/

namespace Program

/-- What a host is told of the end of a run. -/
def report (p : Program) : EStateM.Result Stop Machine Unit → Except Stop Unit × Context
  | .ok a m => (.ok a, ⟨p, m.memory, m.console⟩)
  | .error stop m => (.error stop, ⟨p, m.memory, m.console⟩)

/-- What a host is told is the end of the run. -/
theorem runOn_eq_report (p : Program) (steps : Nat) (console : Console) :
    p.runOn steps console = p.report (p.run steps { memory := .empty, console, steps }) := by
  rw [runOn_eq]
  cases p.run steps { memory := .empty, console, steps } <;> rfl

theorem console_report (p : Program) (r : EStateM.Result Stop Machine Unit) :
    (p.report r).2.console = (Run.machine r).console := by
  cases r <;> rfl

/-- What a host is told on another console. -/
theorem report_onConsole (p : Program) (limit : Option Nat) (more : List String)
    (r : EStateM.Result Stop Machine Unit) :
    p.report (Run.onConsole limit more r)
      = ((p.report r).1, (p.report r).2.onConsole limit more) := by
  cases r <;> rfl

/-- The run of the program on the console comes to an output statement in this line: stopped after
some of its steps it stands in front of the expression of the statement, and there the steps that
are left give the expression a value, whose text the console afterwards is to take. -/
inductive WritesAt (p : Program) (steps : Nat) (console : Console) : Nat → String → Console → Prop
  | intro {taken bound : Nat} {id : NodeId} {node : Node} {e : Expr} {v : Value} {c : Context}
      (less : taken < steps) (stands : (p.runOn taken console).1 = .error .outOfSteps)
      (found : p.tree.node? id = some node) (output : node.construct = .output e)
      (value : (p.runOn taken console).2.serve (steps - taken) (Run.evaluate (p.call bound) e)
        = (.ok v, c)) :
      WritesAt p steps console node.line v.text c.console

/-- Where the run comes to an output statement, so does the program. -/
theorem ComesToOutput.writesAt {p : Program} {steps line : Nat} {text : String}
    {console after : Console}
    (h : p.ComesToOutput (p.run steps) { memory := .empty, console, steps } line text after) :
    p.WritesAt steps console line text after := by
  cases h with
  | @intro taken bound id node e v m₀ m₁ less stands found output value =>
    -- fewer steps are a smaller bound as well, and that makes no difference
    have hagree := (p.agree_run (Nat.le_refl taken) (Nat.le_of_lt less)
      { memory := .empty, console, steps := taken } (Nat.le_refl taken)).1
    have hstopped : p.runOn taken console = (.error .outOfSteps, ⟨p, m₀.memory, m₀.console⟩) := by
      rw [runOn_eq_report, hagree, stands]
      rfl
    have hvalue : (p.runOn taken console).2.serve (steps - taken) (Run.evaluate (p.call bound) e)
        = (.ok v, ⟨p, m₁.memory, m₁.console⟩) := by
      rw [hstopped]
      unfold Context.serve EStateM.run
      rw [value]
    exact .intro less (by rw [hstopped]) found output hvalue

/-- A run without a limit, and the same run on a console with a limit and more to be read. -/
theorem aligned_run (p : Program) (steps : Nat) (lines more : List String) (limit : Option Nat) :
    Run.Aligned (p.WritesAt steps (.ofInput (lines ++ more) limit)) limit more
      (p.run steps { memory := .empty, console := .ofInput lines none, steps })
      (p.run steps { memory := .empty, console := .ofInput (lines ++ more) limit, steps }) := by
  have hgoverns : (Regime.free p).Governs (p.run steps) fun _ => True :=
    governs_run Regime.lawful_free Regime.suits_free steps
  have hfits : Machine.Fits limit { memory := .empty, console := .ofInput lines none, steps } :=
    ⟨rfl, fun n _ => Nat.zero_le n⟩
  exact (hgoverns.aligned hfits).imp fun _ _ _ h => h.writesAt

/-- A program on three consoles.  Where the console takes only so many lines, and they are as many
as the run without a limit writes, nothing is different.  Where they are fewer, the run comes to an
output statement whose text is the next line that the run without a limit writes; there it fails, in
the line of that statement, and exactly the lines before are written.  Where there is more to be
read, and the shorter input has sufficed, nothing is different but that the additional lines are
left. -/
theorem runOn_console (p : Program) (steps : Nat) (lines : List String) :
    let alone := p.runOn steps (.ofInput lines none)
    let written := alone.2.console.output
    (∀ n, written.size ≤ n →
      p.runOn steps (.ofInput lines (some n))
        = (alone.1, alone.2.onConsole (some n) [])) ∧
    (∀ n, n < written.size →
      ∃ line text, written.toList[n]? = some text ∧
        p.WritesAt steps (.ofInput lines (some n)) line text
          (p.runOn steps (.ofInput lines (some n))).2.console ∧
        (p.runOn steps (.ofInput lines (some n))).1 = .error (.error ⟨.io .closed, line⟩) ∧
        (p.runOn steps (.ofInput lines (some n))).2.console.output.toList
          = written.toList.take n) ∧
    ((∀ line, alone.1 ≠ .error (.error ⟨.io .noMoreInput, line⟩)) →
      ∀ more, p.runOn steps (.ofInput (lines ++ more) none)
        = (alone.1, alone.2.onConsole none more)) := by
  have hbounded (n : Nat) := p.aligned_run steps lines [] (some n)
  have hlonger (more : List String) := p.aligned_run steps lines more none
  dsimp only
  simp only [runOn_eq_report, console_report, List.append_nil] at hbounded hlonger ⊢
  generalize p.run steps { memory := .empty, console := .ofInput lines none, steps } = r
    at hbounded hlonger ⊢
  refine ⟨fun n hn => ?_, fun n hn => ?_, fun hread more => ?_⟩
  · have haligned := hbounded n
    generalize p.run steps { memory := .empty, console := .ofInput lines (some n), steps } = r'
      at haligned ⊢
    -- there was room for all that was written, so nothing was refused
    cases haligned with
    | same => exact p.report_onConsole (some n) [] r
    | refused limited _ next =>
      cases limited
      have hlength := (List.getElem?_eq_some_iff.1 next).1
      rw [Array.length_toList] at hlength
      exact absurd hlength (Nat.not_lt.2 hn)
    | starved longer => exact absurd rfl longer
  · have haligned := hbounded n
    generalize p.run steps { memory := .empty, console := .ofInput lines (some n), steps } = r'
      at haligned ⊢
    cases haligned with
    | same fits => exact absurd hn (Nat.not_lt.2 (fits.room n rfl))
    | refused limited known next output =>
      cases limited
      exact ⟨_, _, next, known, rfl, output⟩
    | starved longer => exact absurd rfl longer
  · have haligned := hlonger more
    generalize p.run steps
      { memory := .empty, console := .ofInput (lines ++ more) none, steps } = r' at haligned ⊢
    cases haligned with
    | same => exact p.report_onConsole none more r
    | refused limited => cases limited
    | starved => exact absurd rfl (hread _)

/-- Two lines are read and written again. -/
def echoText : String :=
  "module m; variable string s;\n" ++
  "beginning input s; output s;\n" ++
  "input s; output s; end m."

/-- A program that reads two lines and writes them. -/
theorem echoText_console : ∃ p, ofSource echoText = .ok p ∧
    let alone := p.runOn 50 (.ofInput ["a", "b"] none)
    p.runOn 50 (.ofInput ["a", "b"] (some 2)) = (alone.1, alone.2.onConsole (some 2) []) ∧
    (∃ line text, alone.2.console.output.toList[1]? = some text ∧
      p.WritesAt 50 (.ofInput ["a", "b"] (some 1)) line text
        (p.runOn 50 (.ofInput ["a", "b"] (some 1))).2.console ∧
      (p.runOn 50 (.ofInput ["a", "b"] (some 1))).1 = .error (.error ⟨.io .closed, line⟩) ∧
      (p.runOn 50 (.ofInput ["a", "b"] (some 1))).2.console.output.toList
        = alone.2.console.output.toList.take 1) ∧
    p.runOn 50 (.ofInput (["a", "b"] ++ ["c"]) none)
      = (alone.1, alone.2.onConsole none ["c"]) := by
  have hends : (ofSource echoText).toOption.any (fun p =>
      (p.runOn 50 (.ofInput ["a", "b"] none)).1.isOk &&
        (p.runOn 50 (.ofInput ["a", "b"] none)).2.console.output.size == 2) = true := by
    decide +kernel
  cases hp : ofSource echoText with
  | error e =>
    rw [hp] at hends
    cases hends
  | ok p =>
    rw [hp] at hends
    simp only [Except.toOption, Option.any_some, Bool.and_eq_true, beq_iff_eq] at hends
    obtain ⟨hok, hsize⟩ := hends
    obtain ⟨hwide, hnarrow, hlonger⟩ := p.runOn_console 50 ["a", "b"]
    refine ⟨p, rfl, hwide 2 hsize.le, hnarrow 1 (by rw [hsize]; decide),
      hlonger (fun line hfailed => ?_) ["c"]⟩
    rw [hfailed] at hok
    cases hok

end Program

end Primer
