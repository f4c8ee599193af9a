import Primer.Context
import Primer.Proofs.Run.Triple
import Primer.Proofs.Run.View
import Primer.Proofs.Value.Regime

/-!
# Primer.Proofs.Run.Governed — every run is composed of accesses that respect a regime.

`R.Governs x Q` says that `x` is composed of steps, looks at the memory, stores, declarations,
requests to the console and calls in frames of their own, and of nothing else; that it stores values
of the regime only, provided that all values in storage are such; and that an answer has the
property `Q`.  For a lawful regime this holds of the run of any program whose literals are values of
the regime.  What holds along every run is proved by induction on the rules; the program itself is
gone through once, in this module.

The rules of `Governs` are those by which the interpreter is written, so the walk through the
program is a composition of rules without a thought about states; states come in where a rule is
interpreted, as in `Governs.ends`.  Other modules interpret the same rules in other ways, for the
lines that are written, say, without going through the interpreter again.

Main statements: `Program.governs_run` and `Regime.Governs.ends`.
-/

namespace Primer

/-! ## Values in storage -/

/-- A value that was passed has a property. -/
def Binding.All (V : Value → Prop) : Binding → Prop
  | value _ v => V v
  | reference _ => True

/-- Every value in a frame has a property. -/
structure Frame.All (V : Value → Prop) (f : Frame) : Prop where
  locals : ∀ id v, f.locals.get? id = some v → V v.value
  parameters : ∀ name b, f.parameters.get? name = some b → b.All V

namespace Memory

/-- Every value in storage has a property. -/
structure All (V : Value → Prop) (m : Memory) : Prop where
  stored : ∀ a id v, m.variableAt? a id = some v → V v.value
  passed : ∀ k name b, m.parameterAt? k name = some b → b.All V

variable {V : Value → Prop} {m : Memory}

theorem all_empty : empty.All V := by
  refine ⟨fun a id v h => ?_, fun k name b h => ?_⟩
  · cases a <;> cases h
  · cases h

namespace All

/-- What a slot holds is a value in storage. -/
theorem slot (h : m.All V) {place : Location} {type : SlotType} {v : Value}
    (hslot : m.slot? place = some (type, v)) : V v := by
  have hvariable (a : Area) (id : String) (heq : place = a.place id) : V v := by
    rw [heq, slot?_place, Option.map_eq_some_iff] at hslot
    obtain ⟨w, hw, hwv⟩ := hslot
    cases hwv
    exact h.stored a id w hw
  cases place with
  | global id => exact hvariable .globals id rfl
  | localIn k id => exact hvariable (.frame k) id rfl
  | parameterIn k name =>
    rw [slot?_parameterIn] at hslot
    split at hslot
    · rename_i hb
      cases hslot
      exact h.passed k name _ hb
    · cases hslot

theorem write (h : m.All V) (place : Location) {v : Value} (hv : V v) :
    (m.write place v).All V := by
  refine ⟨fun a id w hw => ?_, fun k name b hb => ?_⟩
  · rw [variableAt?_write] at hw
    split at hw
    · obtain ⟨old, -, rfl⟩ := Option.map_eq_some_iff.1 hw
      exact hv
    · exact h.stored a id w hw
  · rw [parameterAt?_write] at hb
    split at hb
    · obtain ⟨old, -, rfl⟩ := Option.map_eq_some_iff.1 hb
      cases old with
      | value type w => exact hv
      | reference place => trivial
    · exact h.passed k name b hb

/-- Declaring a variable with such an initial value. -/
theorem declare (h : m.All V) {v : Variable} (hv : V v.value) : (m.declare v).All V := by
  refine ⟨fun a id w hw => ?_, fun k name b hb => ?_⟩
  · rw [variableAt?_declare] at hw
    split at hw
    · cases hw
      exact hv
    · exact h.stored a id w hw
  · rw [parameterAt?_declare] at hb
    exact h.passed k name b hb

theorem push (h : m.All V) {f : Frame} (hf : f.All V) : (m.push f).All V := by
  refine ⟨fun a id w hw => ?_, fun k name b hb => ?_⟩
  · rw [variableAt?_push] at hw
    split at hw
    · exact hf.locals id w hw
    · exact h.stored a id w hw
  · rw [parameterAt?_push] at hb
    split at hb
    · exact hf.parameters name b hb
    · exact h.passed k name b hb

theorem pop (h : m.All V) : m.pop.All V := by
  rw [pop_eq_cut]
  refine ⟨fun a id w hw => ?_, fun k name b hb => ?_⟩
  · rw [variableAt?_cut] at hw
    split at hw
    · exact h.stored a id w hw
    · cases hw
  · rw [parameterAt?_cut] at hb
    split at hb
    · exact h.passed k name b hb
    · cases hb

end All

end Memory

namespace Regime

variable {R : Regime} {α β : Type}

namespace Lawful

variable (hR : R.Lawful) {m : Memory} (hm : m.All R.value)
include hR hm

/-- What is found has a value of the regime. -/
theorem passes_find (name : String) : R.Passes (m.find name) fun found => R.value found.2.2 := by
  unfold Memory.find
  split
  · exact hR.fault _ id
  · split
    · exact hR.fault _ id
    · rename_i slot hslot
      exact hm.slot hslot

theorem passes_load (name : String) : R.Passes (m.load name) R.value :=
  (hR.passes_find hm name).map fun _ h => h

theorem passes_addressedType (name : String) (depth : Nat) :
    R.Passes (m.addressedType name depth) fun _ => True := by
  refine (hR.passes_find hm name).bind fun found _ => ?_
  obtain ⟨place, type, old⟩ := found
  dsimp only
  split
  · trivial
  · exact hR.fault _ id

/-- A store of a value of the regime leaves such values in storage. -/
theorem passes_memoryStore {v : Value} (hv : R.value v) (name : String) (path : List Integer) :
    R.Passes (m.store name path v) (Memory.All R.value) := by
  refine (hR.passes_find hm name).bind fun found hold => ?_
  obtain ⟨place, type, old⟩ := found
  dsimp only
  split
  · refine (hR.passes_coerce hv type).bind fun w hw => ?_
    exact hm.write place hw
  · refine (hR.passes_asGrid hold).bind fun grid hgrid => ?_
    refine (hR.passes_store hgrid hv path).bind fun stored hstored => ?_
    exact hm.write place hstored

end Lawful

/-! ## Runs under a regime -/

/-- The run is composed of accesses that respect the regime, and its answer has a property. -/
inductive Governs (R : Regime) : {α : Type} → Run α → (α → Prop) → Prop
  | pure {α : Type} {Q : α → Prop} {a : α} (answer : Q a) : Governs R (Pure.pure a) Q
  | bind {α β : Type} {Q : α → Prop} {S : β → Prop} {x : Run α} {f : α → Run β}
      (first : Governs R x Q) (more : ∀ a, Q a → Governs R (f a) S) : Governs R (x >>= f) S
  | outOfSteps {α : Type} {Q : α → Prop} : Governs R (Run.outOfSteps : Run α) Q
  | tick : Governs R Run.tick fun _ => True
  | atLine {α : Type} {Q : α → Prop} {line : Nat} {result : Except Fault α}
      (passes : R.Passes result Q) : Governs R (Run.atLine line result) Q
  | look {α : Type} {Q : α → Prop} {line : Nat} {check : Memory → Except Fault α}
      (passes : ∀ m : Memory, m.All R.value → R.Passes (check m) Q) :
      Governs R (do Run.atLine line (check (← get).memory)) Q
  | store {line : Nat} {id : String} {path : List Integer} {v : Value} (value : R.value v) :
      Governs R (Run.store id path v line) fun _ => True
  | declare {v : Variable} (value : R.value v.value) : Governs R (Run.declare v) fun _ => True
  | readLine {line : Nat} : Governs R (Run.readLine line) R.text
  | output {calls : Calls} {e : Expr} {line : Nat} (writes : R.writes calls e line)
      (value : Governs R (Run.evaluate calls e) R.value) :
      Governs R (do let v ← Run.evaluate calls e; Run.writeLine v.text line) fun _ => True
  | inFrame {α : Type} {Q : α → Prop} {f : Frame} {body : Run α} (frame : f.All R.value)
      (inside : Governs R body Q) : Governs R (Run.inFrame f body) Q

namespace Governs

variable {Q : α → Prop} {S : β → Prop} {x : Run α}

theorem afterTick {f : Unit → Run β} (h : R.Governs (f ()) S) : R.Governs (Run.tick >>= f) S :=
  .bind .tick fun _ _ => h

/-- A look at the memory whose result is used. -/
theorem bindLook {line : Nat} {check : Memory → Except Fault α} {f : α → Run β}
    (hcheck : ∀ m : Memory, m.All R.value → R.Passes (check m) Q)
    (hf : ∀ a, Q a → R.Governs (f a) S) :
    R.Governs (do let s ← get; let a ← Run.atLine line (check s.memory); f a) S := by
  have hlook : R.Governs (do Run.atLine line (check (← get).memory)) Q := .look hcheck
  have hbind := hlook.bind hf
  rwa [bind_assoc] at hbind

end Governs

/-- What a regime asks of the state of a run. -/
structure Admits (R : Regime) (m : Machine) : Prop where
  memory : m.memory.All R.value
  input : ∀ line ∈ m.console.input, R.text line

/-- An end that respects the regime. -/
def Ends (R : Regime) (Q : α → Prop) : EStateM.Result Stop Machine α → Prop
  | .ok a m => Q a ∧ R.Admits m
  | .error (.error e) m => R.fault e.fault ∧ R.Admits m
  | .error .outOfSteps m => R.Admits m

theorem ends_tick {m : Machine} (hm : R.Admits m) : R.Ends (fun _ => True) (Run.tick m) := by
  obtain ⟨memory, console, steps⟩ := m
  cases steps with
  | zero => exact hm
  | succ n => exact ⟨trivial, hm.memory, hm.input⟩

/-- A second part starts where the first has ended well. -/
theorem ends_bind {Q : α → Prop} {S : β → Prop} {x : Run α} {f : α → Run β} {m : Machine}
    (hx : R.Ends Q (x m)) (hf : ∀ a m', Q a → R.Admits m' → R.Ends S (f a m')) :
    R.Ends S ((x >>= f) m) := by
  show R.Ends S (EStateM.bind x f m)
  unfold EStateM.bind
  cases hrun : x m with
  | ok a m' =>
    rw [hrun] at hx
    exact hf a m' hx.1 hx.2
  | error stop m' =>
    rw [hrun] at hx
    cases stop with
    | error e => exact hx
    | outOfSteps => exact hx

theorem ends_atLine {Q : α → Prop} {line : Nat} {result : Except Fault α} {m : Machine}
    (hresult : R.Passes result Q) (hm : R.Admits m) : R.Ends Q (Run.atLine line result m) := by
  cases result with
  | ok a => exact ⟨hresult, hm⟩
  | error fault => exact ⟨hresult, hm⟩

/-- The body of a frame starts with the frame on top.  The frame is taken away again after an error,
but not when the steps have run out. -/
theorem ends_inFrame {Q : α → Prop} {f : Frame} {body : Run α} {m : Machine} (hm : R.Admits m)
    (hf : f.All R.value) (hbody : ∀ m, R.Admits m → R.Ends Q (body m)) :
    R.Ends Q (Run.inFrame f body m) := by
  have hpushed : R.Admits { m with memory := m.memory.push f } := ⟨hm.memory.push hf, hm.input⟩
  have hinside : R.Ends Q ((Run.tick >>= fun _ => body) { m with memory := m.memory.push f }) :=
    ends_bind (ends_tick hpushed) fun _ m' _ hm' => hbody m' hm'
  unfold Run.inFrame
  rw [seqRight_eq_bind]
  cases hrun : (Run.tick >>= fun _ => body) { m with memory := m.memory.push f } with
  | ok a m' =>
    rw [hrun] at hinside
    have hpopped : R.Admits { m' with memory := m'.memory.pop } :=
      ⟨hinside.2.memory.pop, hinside.2.input⟩
    dsimp only
    rw [seqRight_eq_bind]
    exact ends_bind (ends_tick hpopped) fun _ m'' _ hm'' => ⟨hinside.1, hm''⟩
  | error stop m' =>
    rw [hrun] at hinside
    cases stop with
    | error e => exact ⟨hinside.1, hinside.2.memory.pop, hinside.2.input⟩
    | outOfSteps => exact hinside

section

variable (hR : R.Lawful) {m : Machine} (hm : R.Admits m)
include hR hm

/-- A store ends well, or reports a fault that the regime has nothing against. -/
theorem ends_store {v : Value} (hv : R.value v) (id : String) (path : List Integer) (line : Nat) :
    R.Ends (fun _ => True) (Run.store id path v line m) := by
  have hstore := hR.passes_memoryStore hm.memory hv id path
  rw [Run.store_run]
  cases hrun : m.memory.store id path v with
  | ok memory =>
    rw [hrun] at hstore
    exact ends_tick ⟨hstore, hm.input⟩
  | error fault =>
    rw [hrun] at hstore
    exact ⟨hstore, hm⟩

/-- A line that is read is one that was waiting. -/
theorem ends_readLine (line : Nat) : R.Ends R.text (Run.readLine line m) := by
  rw [Run.readLine_run]
  cases hrun : m.console.read with
  | error cause => exact ⟨hR.fault _ id, hm⟩
  | ok answer =>
    obtain ⟨text, console⟩ := answer
    obtain ⟨hinput, -, -⟩ := Console.read_eq_ok_iff.1 hrun
    have hall : ∀ line ∈ text :: console.input, R.text line := hinput ▸ hm.input
    exact ⟨hall text List.mem_cons_self, hm.memory,
      fun line hline => hall line (List.mem_cons_of_mem _ hline)⟩

theorem ends_writeLine (text : String) (line : Nat) :
    R.Ends (fun _ => True) (Run.writeLine text line m) := by
  rw [Run.writeLine_run]
  cases hrun : m.console.write text with
  | error cause => exact ⟨hR.fault _ id, hm⟩
  | ok console =>
    obtain ⟨-, rfl⟩ := Console.write_eq_ok_iff.1 hrun
    exact ⟨trivial, hm.memory, hm.input⟩

end

/-- A run under a lawful regime that is started in a state of the regime ends in one, whatever the
end. -/
theorem Governs.ends (hR : R.Lawful) {Q : α → Prop} {x : Run α} (h : R.Governs x Q) (m : Machine)
    (hm : R.Admits m) : R.Ends Q (x m) := by
  induction h generalizing m with
  | pure answer => exact ⟨answer, hm⟩
  | bind _ _ ihx ihf => exact ends_bind (ihx m hm) fun a m' ha hm' => ihf a ha m' hm'
  | outOfSteps => exact hm
  | tick => exact ends_tick hm
  | atLine passes => exact ends_atLine passes hm
  | look passes => exact ends_atLine (passes m.memory hm.memory) hm
  | store value => exact ends_store hR hm value _ _ _
  | declare value => exact ends_tick ⟨hm.memory.declare value, hm.input⟩
  | readLine => exact ends_readLine hR hm _
  | output _ _ ih => exact ends_bind (ih m hm) fun v m' _ hm' => ends_writeLine hR hm' _ _
  | inFrame frame _ ih => exact ends_inFrame hm frame ih

end Regime

/-! ## Literals -/

namespace Expr

mutual

/-- The values that stand in an expression. -/
def literals : Expr → List Value
  | literal _ v => [v]
  | ident .. => []
  | element _ _ indices => literalsIn indices
  | call _ _ arguments => literalsOf arguments
  | unary _ _ operand => literals operand
  | binary _ _ left right => literals left ++ literals right

/-- The values that stand in a list of expressions. -/
def literalsIn : List Expr → List Value
  | [] => []
  | e :: rest => literals e ++ literalsIn rest

/-- The values that stand in arguments. -/
def literalsOf : List Argument → List Value
  | [] => []
  | a :: rest => literalsOfArgument a ++ literalsOf rest

/-- The values that stand in an argument. -/
def literalsOfArgument : Argument → List Value
  | .value e => literals e
  | .reference .. => []

end

end Expr

/-- The values that an initializer brings along. -/
def Initializer.literals : Initializer → List Value
  | computed e => e.literals
  | fixed v => [v]

/-- The values that stand in a construct, those that slots start with among them. -/
def Construct.literals : Construct → List Value
  | declaration d => d.initializer.literals
  | assignment _ indices value => value.literals ++ Expr.literalsIn indices
  | loop _ condition | conditional _ condition _ _ | elseIf _ condition => condition.literals
  | call _ arguments => Expr.literalsOf arguments
  | input _ indices => Expr.literalsIn indices
  | output value | result (some value) => value.literals
  | unit .. | entry _ | routine _ | otherwise _ | result none => []

/-- The program writes in its output statements only, and no literal of it offends the regime. -/
structure Regime.Suits (R : Regime) (p : Program) : Prop where
  literals : ∀ id c, p.tree.construct? id = some c → ∀ v ∈ c.literals, R.value v
  writes : ∀ bound id node value, p.tree.node? id = some node → node.construct = .output value →
    R.writes (p.call bound) value node.line

/-! ## Expressions -/

namespace Regime

variable {R : Regime} {calls : Calls}

/-- Every call is a run under the regime. -/
def GovernsCalls (R : Regime) (calls : Calls) : Prop :=
  ∀ name arguments line, (∀ v ∈ Expr.literalsOf arguments, R.value v) →
    R.Governs (calls name arguments line) R.value

mutual

/-- The evaluation of an expression whose literals are values of the regime. -/
theorem governs_evaluate (hR : R.Lawful) (hcalls : R.GovernsCalls calls) :
    ∀ e : Expr, (∀ v ∈ e.literals, R.value v) → R.Governs (Run.evaluate calls e) R.value
  | .literal _ v, h => by
    rw [Run.evaluate]
    exact .afterTick (.pure (h v List.mem_cons_self))
  | .ident line id, _ => by
    rw [Run.evaluate]
    exact .afterTick (.look fun m hm => hR.passes_load hm id)
  | .element line id indices, h => by
    rw [Run.evaluate]
    refine .afterTick (.bind (governs_evaluateIndices hR hcalls indices h) fun path _ => ?_)
    refine .bind (.look fun m hm => hR.passes_load hm id) fun v hv => .atLine ?_
    exact (hR.passes_asGrid hv).bind fun g hg => hR.passes_elementAt hg path
  | .call line name arguments, h => by
    rw [Run.evaluate]
    exact .afterTick (hcalls name arguments line h)
  | .unary line op operand, h => by
    rw [Run.evaluate]
    refine .afterTick (.bind (governs_evaluate hR hcalls operand h) fun v hv => ?_)
    exact .atLine (hR.unary op v hv)
  | .binary line op left right, h => by
    obtain ⟨hleft, hright⟩ := List.forall_mem_append.1 h
    rw [Run.evaluate]
    refine .afterTick (.bind (governs_evaluate hR hcalls left hleft) fun v hv => ?_)
    refine .bind (governs_evaluate hR hcalls right hright) fun w hw => ?_
    exact .atLine (hR.binary op v w hv hw)

theorem governs_evaluateIndices (hR : R.Lawful) (hcalls : R.GovernsCalls calls) :
    ∀ es : List Expr, (∀ v ∈ Expr.literalsIn es, R.value v) →
      R.Governs (Run.evaluateIndices calls es) fun _ => True
  | [], _ => by
    rw [Run.evaluateIndices]
    exact .pure trivial
  | e :: rest, h => by
    obtain ⟨hfirst, hrest⟩ := List.forall_mem_append.1 h
    rw [Run.evaluateIndices]
    refine .bind (governs_evaluate hR hcalls e hfirst) fun v _ => ?_
    refine .bind (.atLine (hR.passes_asInteger v)) fun index _ => ?_
    exact .bind (governs_evaluateIndices hR hcalls rest hrest) fun more _ => .pure trivial

end

theorem governs_truth (hR : R.Lawful) (hcalls : R.GovernsCalls calls) {condition : Expr}
    (h : ∀ v ∈ condition.literals, R.value v) (line : Nat) :
    R.Governs (Run.truth calls condition line) fun _ => True :=
  .bind (governs_evaluate hR hcalls condition h) fun v _ =>
    .atLine (hR.fault.passes_expectBoolean v)

end Regime

/-! ## Statements -/

/-- A value that is returned has a property. -/
def Outcome.All (V : Value → Prop) : Outcome → Prop
  | completed => True
  | returned v => V v

namespace Regime

variable {R : Regime} {calls : Calls}

theorem governs_sequence {statement : NodeId → Run Outcome}
    (hstatement : ∀ id, R.Governs (statement id) (Outcome.All R.value)) (ids : List NodeId) :
    R.Governs (Run.sequence statement ids) (Outcome.All R.value) := by
  induction ids with
  | nil => exact .pure trivial
  | cons id rest ih =>
    rw [Run.sequence]
    refine .bind (hstatement id) fun out hout => ?_
    cases out with
    | completed => exact ih
    | returned v => exact .pure hout

theorem governs_repeatWhile {condition : Run Bool} {body : Run Outcome}
    (hcondition : R.Governs condition fun _ => True) (hbody : R.Governs body (Outcome.All R.value))
    (bound : Nat) : R.Governs (Run.repeatWhile condition body bound) (Outcome.All R.value) := by
  induction bound with
  | zero => exact .outOfSteps
  | succ bound ih =>
    rw [Run.repeatWhile]
    refine .afterTick (.bind hcondition fun b _ => ?_)
    cases b with
    | false => exact .pure trivial
    | true =>
      refine .bind hbody fun out hout => ?_
      cases out with
      | completed => exact ih
      | returned v => exact .pure hout

end Regime

namespace Program

variable {R : Regime} {p : Program} {calls : Calls} (hR : R.Lawful)
include hR

theorem governs_input (target : String) (path : List Integer) (line : Nat) :
    R.Governs (input target path line) fun _ => True := by
  unfold input
  have htype (m : Memory) (hm : m.All R.value) := hR.passes_addressedType hm target path.length
  refine .bindLook htype fun type _ => ?_
  cases type with
  | scalar expected =>
    refine .bind .readLine fun text htext => ?_
    refine .bind (.atLine (hR.input text expected htext)) fun v hv => ?_
    exact .store hv
  | array element dimensions => exact .atLine (hR.fault _ id)

variable (hp : R.Suits p) (hcalls : R.GovernsCalls calls)
include hp hcalls

/-- The branches of a conditional, up to the one that is taken. -/
theorem governs_branches {body : NodeId → Run Outcome}
    (hbody : ∀ id, R.Governs (body id) (Outcome.All R.value)) (last : Option NodeId)
    (ids : List NodeId) :
    R.Governs (p.branches calls body last ids) (Outcome.All R.value) := by
  induction ids with
  | nil =>
    unfold branches
    cases last with
    | none => exact .pure trivial
    | some id => exact hbody id
  | cons id rest ih =>
    unfold branches
    split
    · rename_i scope condition line _ _ _ _ hnode
      -- the literals of a condition are those of its branch, which suits the regime
      have hcondition : ∀ v ∈ condition.literals, R.value v :=
        hp.literals id (.elseIf scope condition) (by rw [Tree.construct?, hnode]; rfl)
      refine .bind (Regime.governs_truth hR hcalls hcondition line) fun b _ => ?_
      cases b with
      | true => exact hbody id
      | false => exact ih
    · exact ih

/-- Any statement of a program that suits the regime is a run under it. -/
theorem governs_execute
    (hwrites : ∀ id node value, p.tree.node? id = some node → node.construct = .output value →
      R.writes calls value node.line) (bound : Nat) (id : NodeId) :
    R.Governs (p.execute calls bound id) (Outcome.All R.value) := by
  induction bound generalizing id with
  | zero => exact .outOfSteps
  | succ bound ih =>
    have hbody (id : NodeId) :
        R.Governs (p.block (p.execute calls bound) id) (Outcome.All R.value) :=
      Regime.governs_sequence ih _
    rw [execute]
    refine .afterTick ?_
    cases hnode : p.tree.node? id with
    | none => exact .pure trivial
    | some node =>
      have hliterals := hp.literals id node.construct (by rw [Tree.construct?, hnode]; rfl)
      dsimp only
      generalize hconstruct : node.construct = c at hliterals ⊢
      cases c with
      | declaration d =>
        rw [Construct.literals] at hliterals
        -- a value is fitted to the type whether it is computed or the initial one
        have hdeclare (v : Value) (hv : R.value v) : R.Governs (do
            let value ← Run.atLine node.line (v.coerce d.type)
            Run.declare { type := d.type, name := d.name, id := d.id, value }
            return Outcome.completed) (Outcome.All R.value) :=
          .bind (.atLine (hR.passes_coerce hv d.type)) fun value hvalue =>
            .bind (.declare hvalue) fun _ _ => .pure trivial
        dsimp only
        cases hinitializer : d.initializer with
        | computed e =>
          rw [hinitializer] at hliterals
          exact .bind (Regime.governs_evaluate hR hcalls e hliterals) hdeclare
        | fixed v =>
          rw [hinitializer] at hliterals
          exact hdeclare v (hliterals v List.mem_cons_self)
      | assignment target indices value =>
        obtain ⟨hvalue, hindices⟩ := List.forall_mem_append.1 hliterals
        refine .bind (Regime.governs_evaluate hR hcalls value hvalue) fun v hv => ?_
        refine .bind (Regime.governs_evaluateIndices hR hcalls indices hindices) fun path _ => ?_
        exact .bind (.store hv) fun _ _ => .pure trivial
      | loop scope condition =>
        exact Regime.governs_repeatWhile (Regime.governs_truth hR hcalls hliterals _) (hbody id)
          bound
      | conditional scope condition elseIfs last =>
        refine .bind (Regime.governs_truth hR hcalls hliterals _) fun b _ => ?_
        cases b with
        | true => exact hbody id
        | false => exact governs_branches hR hp hcalls hbody last elseIfs
      | call name arguments =>
        exact .bind (hcalls name arguments node.line hliterals) fun _ _ => .pure trivial
      | input target indices =>
        refine .bind (Regime.governs_evaluateIndices hR hcalls indices hliterals) fun path _ => ?_
        exact .bind (governs_input hR target path node.line) fun _ _ => .pure trivial
      | output value =>
        have hvalue := Regime.governs_evaluate hR hcalls value hliterals
        have houtput := Regime.Governs.output (hwrites id node value hnode hconstruct) hvalue
        have hbind := houtput.bind (S := Outcome.All R.value)
          fun _ _ => .pure (a := Outcome.completed) trivial
        rwa [bind_assoc] at hbind
      | result value =>
        cases value with
        | none => exact .pure (hR.integer .zero)
        | some value =>
          exact .bind (Regime.governs_evaluate hR hcalls value hliterals) fun v hv => .pure hv
      | entry | elseIf | otherwise => exact hbody id
      | unit | routine => exact .pure trivial

/-! ## Calls -/

omit hp

theorem governs_bind (routine : String) (parameter : Parameter) {argument : Argument}
    (h : ∀ v ∈ Expr.literalsOfArgument argument, R.value v) :
    R.Governs (bind calls routine parameter argument) (Binding.All R.value) := by
  cases argument with
  | value e =>
    refine .bind (Regime.governs_evaluate hR hcalls e h) fun v hv => ?_
    refine .bind (.atLine (hR.passes_coerceScalar hv parameter.type)) fun w hw => ?_
    exact .pure hw
  | reference line name =>
    have hfind (m : Memory) (hm : m.All R.value) := hR.passes_find hm name
    refine .bindLook hfind fun found _ => ?_
    obtain ⟨place, type, old⟩ := found
    dsimp only
    split
    · exact .pure trivial
    · exact .atLine (hR.fault _ id)

theorem governs_bindAll (routine : String) (parameters : List Parameter) {arguments : List Argument}
    (h : ∀ v ∈ Expr.literalsOf arguments, R.value v) {table : Table Binding}
    (htable : ∀ name b, table.get? name = some b → b.All R.value) :
    R.Governs (bindAll calls routine parameters arguments table) fun table' =>
      ∀ name b, table'.get? name = some b → b.All R.value := by
  induction parameters generalizing arguments table with
  | nil =>
    unfold bindAll
    exact .pure htable
  | cons parameter more ih =>
    cases arguments with
    | nil => exact .pure htable
    | cons argument rest =>
      obtain ⟨hfirst, hrest⟩ := List.forall_mem_append.1 h
      unfold bindAll
      refine .bind (governs_bind hR hcalls routine parameter hfirst) fun binding hbinding => ?_
      refine ih hrest fun name b hb => ?_
      by_cases hname : name = parameter.name
      · rw [hname, Table.get?_insert_self] at hb
        cases hb
        exact hbinding
      · rw [Table.get?_insert_of_ne _ hname] at hb
        exact htable name b hb

omit hcalls

/-- What a call answers, from how its body ended. -/
theorem passes_callResult (heading : Heading) {out : Outcome} (hout : out.All R.value) :
    R.Passes (callResult heading out) R.value := by
  cases out with
  | completed => exact hR.integer .zero
  | returned v =>
    unfold callResult
    dsimp only
    split
    · exact hR.passes_coerceScalar hout _
    · exact hout

include hp

/-- A call is a run under the regime, with those in its body one level deeper. -/
theorem governsCalls_call (bound : Nat) : R.GovernsCalls (p.call bound) := by
  induction bound with
  | zero => exact fun _ _ _ _ => .outOfSteps
  | succ bound ih =>
    intro name arguments line harguments
    rw [call]
    refine .afterTick ?_
    cases p.routines.get? name with
    | none => exact .atLine (hR.fault _ id)
    | some r =>
      dsimp only
      split
      · have hempty : ∀ name b, (Table.empty : Table Binding).get? name = some b → b.All R.value :=
          fun name b hb => nomatch hb
        refine .bind (governs_bindAll hR ih name _ harguments hempty) fun table htable => ?_
        have hbody : R.Governs (p.block (p.execute (p.call bound) bound) r.node)
            (Outcome.All R.value) :=
          Regime.governs_sequence (governs_execute hR hp ih (hp.writes bound) bound) _
        refine .bind (.inFrame ⟨fun _ _ hv => (nomatch hv), htable⟩ hbody) fun out hout => ?_
        exact .atLine (passes_callResult hR r.heading hout)
      · exact .atLine (hR.fault _ id)

/-! ## Whole programs -/

/-- The whole run of a program that suits the regime is a run under it. -/
theorem governs_run (bound : Nat) : R.Governs (p.run bound) fun _ => True := by
  have hstatement := governs_execute hR hp (governsCalls_call hR hp bound) (hp.writes bound) bound
  have hitems (ids : List NodeId) :
      R.Governs (runAll (p.execute (p.call bound) bound) ids) fun _ => True := by
    induction ids with
    | nil => exact .pure trivial
    | cons id rest ih =>
      rw [runAll]
      exact .bind (hstatement id) fun _ _ => ih
  unfold run
  refine .bind (hitems _) fun _ _ => ?_
  cases p.entry? with
  | none => exact .pure trivial
  | some entry =>
    refine .bind (Regime.governs_sequence hstatement _) fun _ _ => ?_
    exact .pure trivial

end Program

end Primer
