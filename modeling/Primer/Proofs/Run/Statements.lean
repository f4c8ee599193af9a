import Primer.Proofs.Run.Expressions
import Primer.Proofs.Scope.Routines

/-!
# Primer.Proofs.Run.Statements — the runs of statements and of calls.

A statement of an accepted program, run where its point is ready, leaves the next point ready.  The
induction is on the bound of `execute`, and inside it on the statements of a block; for calls it is
on the number of calls that may be nested.  What carries both is `Outline.Serves`: what a point may
call has been declared, with all that its body sees of the unit.

A conditional is one statement with several bodies, of which all are seated at the same point
(`Program.SeatsBranch`).  A loop is a bounded repetition of its body, and every repetition starts at
the same point again: what the body has declared is forgotten, not undone, and a point may have
places that it does not know of.
-/

namespace Primer

/-- The value that a routine is left with is regular. -/
def Outcome.Regular : Outcome → Prop
  | completed => True
  | returned v => v.Regular

namespace Run

variable {P : Memory → Prop}

/-- A loop comes to a good end if its condition and its body do. -/
theorem triple_repeatWhile (hP : Memory.Lasting P) {condition : Run Bool} {body : Run Outcome}
    (hcondition : Triple P condition fun _ _ => True)
    (hbody : Triple P body fun out _ => out.Regular) (bound : Nat) :
    Triple P (repeatWhile condition body bound) fun out _ => out.Regular := by
  induction bound with
  | zero => exact .outOfSteps
  | succ bound ih =>
    rw [repeatWhile]
    refine .afterTick hP (.bindValue hP hcondition fun b _ => ?_)
    cases b with
    | false => exact .pure fun _ _ => trivial
    | true =>
      refine .bindValue hP hbody fun out hout => ?_
      cases out with
      | completed => exact ih
      | returned v => exact .pure fun _ _ => hout

end Run

/-- What a point may call comes to a good end, at every point that the program may reach. -/
def Outline.Answers (o : Outline) (calls : Calls) : Prop := ∀ Γ, o.Serves Γ → Γ.Answers calls

/-- What follows a construct that declares no variable is ready as well. -/
theorem Env.Ready.after {Γ : Env} {m : Memory} (h : Γ.Ready m) (id : NodeId) {c : Construct}
    (hc : c.declared? = none) : (Γ.after id c).Ready m := by
  cases c with
  | declaration d => cases hc
  | routine heading => exact ⟨h.unit, h.inner, h.runs⟩
  | _ => exact h

namespace Program

variable {p : Program} {o : Outline} {calls : Calls} {Γ : Env}

/-! ## Single statements -/

/-- A declaration gives a new variable a value of its type. -/
theorem triple_declare {d : Declaration} (hproper : d.type.Proper)
    (hallows : Γ.Allows (.declaration d)) (houter : Γ.inner = [] → Γ.heading = none) {v : Value}
    (hv : v.Regular) (line : Nat) :
    Run.Triple Γ.Ready (do
        let value ← Run.atLine line (v.coerce d.type)
        Run.declare { type := d.type, name := d.name, id := d.id, value }
        return Outcome.completed) fun out m => out.Regular ∧ (Γ.declare d.name).Ready m := by
  refine .bindValue Γ.lasting_ready (.atLine (hv.meets_coerce d.type)) fun w hw => ?_
  refine .bind Γ.lasting_ready (.declare fun m hm hready => ?_) fun _ =>
    .pure fun m h => ⟨trivial, h.2⟩
  have hdeclare := hm.declare (v := ⟨d.type, d.name, d.id, w⟩) hproper hw
  obtain ⟨hsound, hle, hnew⟩ := hdeclare
  refine ⟨hsound, hle, hready.declare hle houter ?_⟩
  rw [← hallows.1]
  exact hnew

/-- Input stores a value of the type that is addressed. -/
theorem triple_input {target : String} (hid : Γ.names.writes target) (path : List Integer)
    (line : Nat) : Run.Triple Γ.Ready (input target path line) fun _ _ => True := by
  unfold input
  refine .bindMemory Γ.lasting_ready
    (fun m hm hready => hready.meets_addressedType hm hid.1 path.length) fun type => ?_
  refine Run.Triple.mono (P := Γ.Ready) ?_ (fun _ h => h.1) fun _ _ h => h
  cases type with
  | scalar expected =>
    refine .bindValue Γ.lasting_ready .readLine fun text _ => ?_
    refine .bindValue Γ.lasting_ready (.atLine (Value.meets_ofInput text expected)) fun v hv => ?_
    exact .store fun m hm hready => hready.meets_store hm hid (hv.regular trivial) path
  | array => exact .atLine fun hunbound => hunbound

/-! ## Blocks -/

/-- A run of this statement at a point of a program leaves the next point ready. -/
def Advances (p : Program) (o : Outline) (statement : NodeId → Run Outcome) : Prop :=
  ∀ ⦃Γ : Env⦄ ⦃id : Nat⦄ ⦃c : Construct⦄ ⦃line : Nat⦄ ⦃body slots : Forest⦄, o.Serves Γ →
    p.tree.Seats Γ id c line body slots →
    Run.Triple Γ.Ready (statement id) fun out m => out.Regular ∧ (Γ.after id c).Ready m

/-- The statements of a block are run one after another. -/
theorem triple_sequence {statement : NodeId → Run Outcome} (hstatement : p.Advances o statement)
    {f : Forest} {owner : Option NodeId} {linkage : Forest.Linkage} {start : Nat}
    (hlays : p.tree.Lays owner linkage start f) (hsound : f.Sound Γ start) (hserves : o.Serves Γ)
    (hinner : Γ.inner ≠ []) :
    Run.Triple Γ.Ready (Run.sequence statement (f.roots start)) fun out _ => out.Regular := by
  induction f generalizing Γ linkage start with
  | nil => exact .pure fun _ _ => trivial
  | cons c line body slots rest _ _ ih =>
    obtain ⟨hseats, hlays', hsound'⟩ := hlays.seats hsound
    rw [Forest.roots, Run.sequence]
    refine .bind Γ.lasting_ready (hstatement hserves hseats) fun out => ?_
    cases out with
    | returned v => exact .pure fun _ h => h.2.1
    | completed =>
      have hnext := Env.inner_after_ne_nil hinner start c
      exact (ih hlays' hsound' (hserves.after hseats.allows hinner) hnext).mono
        (fun _ h => h.2.2) fun _ _ h => h

/-- The body of a block inside the unit, the entry block included. -/
theorem triple_block {statement : NodeId → Run Outcome} (hstatement : p.Advances o statement)
    {id : Nat} {c : Construct} {line : Nat} {body slots : Forest} {scope : String}
    (hstands : p.tree.Stands id c line body slots)
    (hsound : body.Sound { Γ with inner := ⟨scope, []⟩ :: Γ.inner } (id + 1))
    (hserves : o.Serves Γ) :
    Run.Triple Γ.Ready (p.block statement id) fun out _ => out.Regular := by
  unfold block
  rw [hstands.children_eq]
  exact (triple_sequence hstatement hstands.inBody hsound (hserves.push scope)
    (List.cons_ne_nil _ _)).mono (fun _ h => h.push scope) fun _ _ h => h

/-- A branch of a conditional stands at the node. -/
def SeatsBranch (p : Program) (Γ : Env) (id : Nat) : Prop :=
  ∃ c line body slots, c.IsBranch ∧ p.tree.Seats Γ id c line body slots

/-- A construct in a list of branches is seated where the list is. -/
theorem seatsBranch_of_mem {f : Forest} {owner : Option NodeId} {linkage : Forest.Linkage}
    {start : Nat} (hlays : p.tree.Lays owner linkage start f) (hsound : f.Sound Γ start)
    (htops : f.Tops Construct.IsBranch) {id : Nat} (hid : id ∈ f.roots start) :
    p.SeatsBranch Γ id := by
  induction f generalizing linkage start with
  | nil => cases hid
  | cons c line body slots rest _ _ ih =>
    obtain ⟨hseats, hlays', hsound'⟩ := hlays.seats hsound
    obtain ⟨hbranch, htops'⟩ := htops
    rw [Forest.roots] at hid
    rcases List.mem_cons.1 hid with rfl | hid
    · exact ⟨c, line, body, slots, hbranch, hseats⟩
    · rw [hbranch.after_eq] at hsound'
      exact ih hlays' hsound' htops' hid

/-- The further branches that a conditional keeps, and its last one, are those in its slots. -/
theorem seatsBranch_of_conditional {id : Nat} {scope : String} {condition : Expr}
    {elseIfs : List NodeId} {last : Option NodeId} {line : Nat} {body slots : Forest}
    (h : p.tree.Seats Γ id (.conditional scope condition elseIfs last) line body slots) :
    (∀ b : Nat, last = some b → p.SeatsBranch Γ b) ∧
      ∀ b : Nat, b ∈ elseIfs → p.SeatsBranch Γ b := by
  have hslots : elseIfs ++ last.toList = slots.roots (id + 1 + body.size) := h.stands.slots_eq
  have hbranch (b : Nat) (hb : b ∈ elseIfs ++ last.toList) : p.SeatsBranch Γ b :=
    seatsBranch_of_mem h.stands.inSlots h.branches h.bears.slots (hslots ▸ hb)
  refine ⟨fun b hb => hbranch b ?_, fun b hb => hbranch b (List.mem_append_left _ hb)⟩
  rw [hb]
  exact List.mem_append_right _ (List.mem_singleton_self b)

/-- The body of a branch is run at its point. -/
theorem SeatsBranch.triple_body {statement : NodeId → Run Outcome}
    (hstatement : p.Advances o statement) (hserves : o.Serves Γ) {id : Nat}
    (h : p.SeatsBranch Γ id) :
    Run.Triple Γ.Ready (p.block statement id) fun out _ => out.Regular := by
  obtain ⟨c, line, body, slots, hbranch, hseats⟩ := h
  cases c with
  | elseIf scope condition => exact triple_block hstatement hseats.stands hseats.inside hserves
  | otherwise scope => exact triple_block hstatement hseats.stands hseats.inside hserves
  | _ => exact hbranch.elim

/-- The further branches of a conditional are tried in order. -/
theorem triple_branches {statement : NodeId → Run Outcome} (hstatement : p.Advances o statement)
    (hcalls : Γ.Answers calls) (hserves : o.Serves Γ) {last : Option NodeId}
    (hlast : ∀ id : Nat, last = some id → p.SeatsBranch Γ id) {ids : List NodeId}
    (hids : ∀ id : Nat, id ∈ ids → p.SeatsBranch Γ id) :
    Run.Triple Γ.Ready (p.branches calls (p.block statement) last ids)
      fun out _ => out.Regular := by
  induction ids with
  | nil =>
    unfold branches
    cases last with
    | none => exact .pure fun _ _ => trivial
    | some id => exact (hlast id rfl).triple_body hstatement hserves
  | cons id rest ih =>
    have hrest := ih fun id hid => hids id (List.mem_cons_of_mem _ hid)
    have hbranch := hids id List.mem_cons_self
    have hbody := hbranch.triple_body hstatement hserves
    obtain ⟨c, line, body, slots, -, hseats⟩ := hbranch
    obtain ⟨n, hn, rfl, -, -⟩ := hseats.stands.node
    unfold branches
    split
    · rename_i scope condition line' _ _ _ _ heq
      cases hn.symm.trans heq
      refine .bindValue Γ.lasting_ready (Run.triple_truth hcalls hseats.sound) fun b _ => ?_
      cases b with
      | true => exact hbody
      | false => exact hrest
    · exact hrest

/-! ## Statements of every kind -/

/-- What a statement that declares no variable leaves ready is what was ready. -/
theorem triple_after {id : Nat} {c : Construct} (hc : c.declared? = none) {x : Run Outcome}
    (hx : Run.Triple Γ.Ready x fun out _ => out.Regular) :
    Run.Triple Γ.Ready x fun out m => out.Regular ∧ (Γ.after id c).Ready m :=
  (hx.keep Γ.lasting_ready).mono (fun _ h => h) fun _ _ h => ⟨h.1, h.2.after id hc⟩

/-- Every statement of an accepted program leaves the next point ready. -/
theorem advances_execute (hcalls : o.Answers calls) (bound : Nat) :
    p.Advances o (p.execute calls bound) := by
  induction bound with
  | zero => exact fun _ _ _ _ _ _ _ _ => .outOfSteps
  | succ bound ih =>
    intro Γ id c line body slots hserves hseats
    have hanswers := hcalls Γ hserves
    have hsound := hseats.sound
    obtain ⟨n, hn, hconstruct, rfl, -⟩ := hseats.stands.node
    rw [execute]
    refine .afterTick Γ.lasting_ready ?_
    rw [hn]
    dsimp only
    rw [hconstruct]
    cases c with
    | declaration d =>
      dsimp only
      cases hi : d.initializer with
      | computed e =>
        rw [Construct.Sound, hi] at hsound
        refine .bindValue Γ.lasting_ready (Run.triple_evaluate hanswers e hsound.2.2) fun v hv => ?_
        exact triple_declare hsound.1 hseats.allows hserves.outer hv n.line
      | fixed v =>
        rw [Construct.Sound, hi] at hsound
        -- a value that is ready made is that of a fresh slot
        obtain rfl : v = d.type.initial := hsound.2
        exact triple_declare hsound.1 hseats.allows hserves.outer
          (hsound.1.holds_initial.regular hsound.1) n.line
    | assignment target indices value =>
      refine triple_after rfl ?_
      obtain ⟨hid, hindices, hvalue⟩ := hsound
      refine .bindValue Γ.lasting_ready (Run.triple_evaluate hanswers value hvalue) fun v hv => ?_
      refine .bindValue Γ.lasting_ready (Run.triple_evaluateIndices hanswers indices hindices)
        fun path _ => ?_
      refine .bindValue Γ.lasting_ready
        (.store fun m hm hready => hready.meets_store hm hid hv path) fun _ _ => ?_
      exact .pure fun _ _ => trivial
    | loop scope condition =>
      refine triple_after rfl ?_
      exact Run.triple_repeatWhile Γ.lasting_ready (Run.triple_truth hanswers hsound)
        (triple_block ih hseats.stands hseats.inside hserves) bound
    | conditional scope condition elseIfs last =>
      refine triple_after rfl ?_
      obtain ⟨hlast, helseIfs⟩ := seatsBranch_of_conditional hseats
      refine .bindValue Γ.lasting_ready (Run.triple_truth hanswers hsound) fun b _ => ?_
      cases b with
      | true => exact triple_block ih hseats.stands hseats.inside hserves
      | false => exact triple_branches ih hanswers hserves hlast helseIfs
    | call name arguments =>
      refine triple_after rfl ?_
      obtain ⟨heading, hcallable, hfit⟩ := hsound
      refine .bindValue Γ.lasting_ready
        (hanswers name heading arguments n.line hcallable hfit) fun _ _ => ?_
      exact .pure fun _ _ => trivial
    | input target indices =>
      refine triple_after rfl ?_
      refine .bindValue Γ.lasting_ready (Run.triple_evaluateIndices hanswers indices hsound.2)
        fun path _ => ?_
      refine .bindValue Γ.lasting_ready (triple_input hsound.1 path n.line) fun _ _ => ?_
      exact .pure fun _ _ => trivial
    | output value =>
      refine triple_after rfl ?_
      refine .bindValue Γ.lasting_ready (Run.triple_evaluate hanswers value hsound) fun v _ => ?_
      exact .bind Γ.lasting_ready .writeLine fun _ => .pure fun _ _ => trivial
    | result value =>
      refine triple_after rfl ?_
      cases value with
      | none => exact .pure fun _ _ => Value.regular_of_scalar (t := .integer) rfl
      | some value =>
        refine .bindValue Γ.lasting_ready (Run.triple_evaluate hanswers value hsound.2)
          fun v hv => ?_
        exact .pure fun _ _ => hv
    | elseIf scope condition =>
      exact triple_after rfl (triple_block ih hseats.stands hseats.inside hserves)
    | otherwise scope =>
      exact triple_after rfl (triple_block ih hseats.stands hseats.inside hserves)
    | routine heading => exact triple_after rfl (.pure fun _ _ => trivial)
    | unit | entry => exact hseats.allows.elim

/-! ## Calls -/

theorem meets_callResult (heading : Heading) {out : Outcome} (h : out.Regular) :
    Meets (callResult heading out) Value.Regular := by
  cases out with
  | completed => exact Value.regular_of_scalar (t := .integer) rfl
  | returned v =>
    unfold callResult
    cases heading.result with
    | none => exact h
    | some type =>
      exact (v.meets_coerceScalar type).mono fun w hw => Value.regular_of_scalar hw

/-- Every call of an accepted program comes to a good end, at any depth. -/
theorem answers_call (hmeans : p.Means o) (bound : Nat) : o.Answers (p.call bound) := by
  induction bound with
  | zero => exact fun _ _ _ _ _ _ _ _ => .outOfSteps
  | succ bound ih =>
    intro Γ hserves name heading arguments line hcallable hfit
    obtain ⟨r, Γ', hdeclares, rfl, rfl, hnames⟩ := hserves.callable name heading hcallable
    obtain ⟨hget, line', body, slots, hseats⟩ := hmeans.seats_routine hdeclares
    have hnodup : (([] ++ r.heading.parameters : List Parameter).map (·.name)).Nodup :=
      hseats.allows.2.2.2.2.1
    have hscope : Γ'.unit.scope = Γ.unit.scope := hdeclares.serves.scope.trans hserves.scope.symm
    rw [call]
    refine .afterTick Γ.lasting_ready ?_
    rw [hget]
    dsimp only
    rw [if_pos hfit.length_eq]
    -- the arguments are evaluated where the call stands
    have hbind := triple_bindAll (ih Γ hserves) r.heading.name hfit hnodup .empty
    refine .bind Γ.lasting_ready (hbind.mono (fun m hready => ⟨hready, ?_⟩) fun _ _ h => h)
      fun table => ?_
    · exact ⟨Table.all_empty, fun _ hmem => absurd hmem List.not_mem_nil⟩
    have hlasting : Memory.Lasting fun m => Γ.Ready m ∧ m.Prepares r.heading.parameters table :=
      fun hle h => ⟨Γ.lasting_ready hle h.1, h.2.mono hle⟩
    -- and the body where the routine stands, with one call less that may be nested
    have hbody := triple_sequence (advances_execute ih bound) hseats.stands.inBody hseats.inside
      hdeclares.serves (List.cons_ne_nil _ _)
    rw [← hseats.stands.children_eq] at hbody
    refine .bindValue hlasting (.inFrame (Env.lasting_ready _) (fun m hm h => ?_) hbody)
      fun out hout => .atLine (meets_callResult r.heading hout)
    exact ⟨h.2.push hm, h.1.enterRoutine hscope hnames h.2.binds⟩

end Program

end Primer
