import Primer.Proofs.Run.Safety
import Primer.Proofs.Run.Shape

/-!
# Primer.Proofs.Run.Points — the runs of an accepted program, from point to point.

`p.Leads Γ x Δ` says that `x` is a run at the point `Γ` of the program and leaves off at the point
`Δ`: it looks only at names of the point, writes only what may be written there, declares under the
scope of the point, and where it calls, it calls a routine of the program with arguments that fit.
The rules say nothing of memories.  What holds along every run of an accepted program is proved by
induction on them; the program itself is gone through once, in this module.

The rules carry the points, not the states: a declaration leads from a point to the next, a block
leads to a point of its own and back, and a call leads nowhere, since what it does is a run at a
point of the routine.  So the proof goes along the judgement `Forest.Sound` that accepted programs
satisfy, by induction on the bound of `execute` and on that of `call`.  Interpreting the rules is
left to `Proofs.Run.Trace` and `Proofs.Run.Leftovers`.

Main statement: `Program.leads_run`.
-/

namespace Primer

/-- What a check of the memory says depends on nothing but what is found under this id. -/
def Memory.LooksAt {α : Type} (id : String) (check : Memory → Except Fault α) : Prop :=
  ∀ m m' : Memory, m.find id = m'.find id → check m = check m'

theorem Memory.looksAt_load (id : String) : LooksAt id (load · id) := by
  intro m m' h
  show m.load id = m'.load id
  rw [load, load, h]

theorem Memory.looksAt_addressedType (id : String) (depth : Nat) :
    LooksAt id (addressedType · id depth) := by
  intro m m' h
  show m.addressedType id depth = m'.addressedType id depth
  rw [addressedType, addressedType, h]

namespace Program

/-- The run goes from one point of the program to another. -/
inductive Leads (p : Program) : {α : Type} → Env → Run α → Env → Prop
  | pure {α : Type} {Γ : Env} (a : α) : Leads p Γ (Pure.pure a) Γ
  | bind {α β : Type} {Γ Δ Θ : Env} {x : Run α} {f : α → Run β} (first : Leads p Γ x Δ)
      (more : ∀ a, Leads p Δ (f a) Θ) : Leads p Γ (x >>= f) Θ
  | outOfSteps {α : Type} {Γ Δ : Env} : Leads p Γ (Run.outOfSteps : Run α) Δ
  | tick {Γ : Env} : Leads p Γ Run.tick Γ
  | atLine {α : Type} {Γ : Env} {line : Nat} (result : Except Fault α) :
      Leads p Γ (Run.atLine line result) Γ
  | look {α : Type} {Γ : Env} {line : Nat} {id : String} {check : Memory → Except Fault α}
      (reads : Γ.names.reads id) (looks : Memory.LooksAt id check) :
      Leads p Γ (do Run.atLine line (check (← get).memory)) Γ
  | store {Γ : Env} {line : Nat} {id : String} (writes : Γ.names.writes id)
      (indices : List Integer) (value : Value) : Leads p Γ (Run.store id indices value line) Γ
  | declare {Γ : Env} {name : String} {v : Variable} (id_eq : v.id = Name.qualify Γ.scope name) :
      Leads p Γ (Run.declare v) (Γ.declare name)
  | readLine {Γ : Env} {line : Nat} : Leads p Γ (Run.readLine line) Γ
  | writeLine {Γ : Env} {line : Nat} (text : String) : Leads p Γ (Run.writeLine text line) Γ
  /-- A block that is no routine. -/
  | inside {α : Type} {Γ Δ : Env} {x : Run α} (scope : String)
      (body : Leads p { Γ with inner := ⟨scope, []⟩ :: Γ.inner } x Δ) : Leads p Γ x Γ
  /-- What has been declared on the way need not be known. -/
  | forget {α : Type} {Γ Δ : Env} {x : Run α} (more : Leads p Γ x Δ) : Leads p Γ x Γ
  /-- Which routines are complete makes no difference. -/
  | routines {α : Type} {Γ Δ : Env} {x : Run α} (rs : List Routine)
      (more : Leads p { Γ with routines := rs } x Δ) : Leads p Γ x Δ
  /-- The arguments are evaluated where the call stands, and the body is run where the routine
  stands. -/
  | call {Γ Γ' Δ : Env} {calls : Calls} {r : Routine} {arguments : List Argument}
      {body : Run Outcome} (found : p.routines.get? r.heading.name = some r)
      (scope : Γ'.unit.scope = Γ.unit.scope) (names : Γ'.unit.names ⊆ Γ.unit.names)
      (distinct : (r.heading.parameters.map (·.name)).Nodup)
      (fit : Expr.Fit Γ.names r.heading.parameters arguments) (shapely : Run.ShapelyCalls calls)
      (values : ∀ e, .value e ∈ arguments → Leads p Γ (Run.evaluate calls e) Γ)
      (inside : Leads p (Γ'.enter (.routine r.heading)) body Δ) :
      Leads p Γ (do
        let table ← bindAll calls r.heading.name r.heading.parameters arguments .empty
        Run.inFrame { parameters := table, locals := .empty } body) Γ

namespace Leads

variable {p : Program} {Γ Δ Θ : Env} {α β : Type} {x : Run α}

/-- A step in front leads to the same point. -/
theorem afterTick {f : Unit → Run β} (h : p.Leads Γ (f ()) Δ) : p.Leads Γ (Run.tick >>= f) Δ :=
  .bind .tick fun _ => h

/-- A name of the point may be read. -/
theorem load {id : String} {line : Nat} (h : Γ.names.reads id) :
    p.Leads Γ (Run.load id line) Γ :=
  .look h (Memory.looksAt_load id)

/-- A check of the memory whose result is used. -/
theorem bindLook {id : String} {line : Nat} {check : Memory → Except Fault α} {f : α → Run β}
    (hreads : Γ.names.reads id) (hlooks : Memory.LooksAt id check)
    (hf : ∀ a, p.Leads Γ (f a) Δ) :
    p.Leads Γ (do let s ← get; let a ← Run.atLine line (check s.memory); f a) Δ := by
  have hlook : p.Leads Γ (do Run.atLine line (check (← get).memory)) Γ := .look hreads hlooks
  have hbind := hlook.bind hf
  rwa [bind_assoc] at hbind

/-- A run declares variables where it stands, and changes the shape in no other way. -/
theorem grows (h : p.Leads Γ x Δ) : Run.Keeps Memory.Grows x := by
  induction h with
  | pure a => exact .pure a
  | bind _ _ ihx ihf => exact .bind ihx ihf
  | outOfSteps => exact .outOfSteps
  | tick => exact .tick
  | atLine result => exact .atLine result
  | look => exact fun m => Run.Keeps.atLine _ m
  | store => exact .store
  | declare => exact .declare _
  | readLine => exact .readLine
  | writeLine text => exact .writeLine
  | inside _ _ ih | forget _ ih | routines _ _ ih => exact ih
  | call _ _ _ _ _ shapely _ _ _ ih =>
    exact .bind (Program.keeps_bindAll shapely _ _ _ _).grows
      fun table => (Run.Keeps.inFrame ih).grows

end Leads

/-! ## Expressions -/

variable {p : Program} {o : Outline} {Γ : Env} {calls : Calls}

/-- Every call that fits a routine of the point is a run at the point. -/
def LeadsCalls (p : Program) (Γ : Env) (calls : Calls) : Prop :=
  ∀ name heading arguments line, Γ.callable? name = some heading →
    Expr.Fit Γ.names heading.parameters arguments → p.Leads Γ (calls name arguments line) Γ

mutual

/-- An expression that fits a point is a run at this point. -/
theorem leads_evaluate (hcalls : p.LeadsCalls Γ calls) :
    ∀ e : Expr, e.Sound Γ.names → p.Leads Γ (Run.evaluate calls e) Γ
  | .literal _ v, _ => by
    rw [Run.evaluate]
    exact .afterTick (.pure v)
  | .ident line id, h => by
    rw [Run.evaluate]
    exact .afterTick (.load h)
  | .element line id indices, ⟨hid, _, hindices⟩ => by
    rw [Run.evaluate]
    refine .afterTick (.bind (leads_evaluateIndices hcalls indices hindices) fun path => ?_)
    exact .bind (.load hid) fun v => .atLine _
  | .call line name arguments, ⟨heading, hcallable, hfit⟩ => by
    rw [Run.evaluate]
    exact .afterTick (hcalls name heading arguments line hcallable hfit)
  | .unary line op operand, h => by
    rw [Run.evaluate]
    exact .afterTick (.bind (leads_evaluate hcalls operand h) fun v => .atLine _)
  | .binary line op left right, ⟨hleft, hright⟩ => by
    rw [Run.evaluate]
    refine .afterTick (.bind (leads_evaluate hcalls left hleft) fun v => ?_)
    exact .bind (leads_evaluate hcalls right hright) fun w => .atLine _

theorem leads_evaluateIndices (hcalls : p.LeadsCalls Γ calls) :
    ∀ es : List Expr, Expr.SoundList Γ.names es → p.Leads Γ (Run.evaluateIndices calls es) Γ
  | [], _ => by
    rw [Run.evaluateIndices]
    exact .pure []
  | e :: rest, ⟨he, hrest⟩ => by
    rw [Run.evaluateIndices]
    refine .bind (leads_evaluate hcalls e he) fun v => .bind (.atLine _) fun index => ?_
    exact .bind (leads_evaluateIndices hcalls rest hrest) fun more => .pure _

end

theorem leads_truth (hcalls : p.LeadsCalls Γ calls) {condition : Expr} {line : Nat}
    (h : condition.Sound Γ.names) : p.Leads Γ (Run.truth calls condition line) Γ :=
  .bind (leads_evaluate hcalls condition h) fun _ => .atLine _

/-- Every value among arguments that fit is a sound expression. -/
theorem sound_of_mem_arguments {v : Names} {parameters : List Parameter} {arguments : List Argument}
    (h : Expr.Fit v parameters arguments) {e : Expr} (he : .value e ∈ arguments) : e.Sound v := by
  induction arguments generalizing parameters with
  | nil => cases he
  | cons argument rest ih =>
    obtain ⟨parameter, more, -, hargument, hrest⟩ := h
    rcases List.mem_cons.1 he with rfl | he
    · exact hargument.2
    · exact ih hrest he

/-! ## Statements -/

/-- A statement of the program, wherever it stands, is a run from its point to the next. -/
def LeadsOn (p : Program) (o : Outline) (statement : NodeId → Run Outcome) : Prop :=
  ∀ ⦃Γ : Env⦄ ⦃id : Nat⦄ ⦃c : Construct⦄ ⦃line : Nat⦄ ⦃body slots : Forest⦄, o.Serves Γ →
    p.tree.Seats Γ id c line body slots → p.Leads Γ (statement id) (Γ.after id c)

/-- Statements in a row lead back to their point, since their declarations are gone with the block.
-/
theorem leads_sequence {statement : NodeId → Run Outcome} (hstatement : p.LeadsOn o statement)
    {f : Forest} {owner : Option NodeId} {linkage : Forest.Linkage} {start : Nat}
    (hlays : p.tree.Lays owner linkage start f) (hsound : f.Sound Γ start) (hserves : o.Serves Γ)
    (hinner : Γ.inner ≠ []) : p.Leads Γ (Run.sequence statement (f.roots start)) Γ := by
  induction f generalizing Γ linkage start with
  | nil => exact .pure _
  | cons c line body slots rest _ _ ih =>
    obtain ⟨hseats, hlays', hsound'⟩ := hlays.seats hsound
    rw [Forest.roots, Run.sequence]
    refine .forget (show p.Leads Γ _ (Γ.after start c) from ?_)
    refine .bind (hstatement hserves hseats) fun out => ?_
    cases out with
    | returned v => exact .pure _
    | completed =>
      have hnext := Env.inner_after_ne_nil hinner start c
      exact ih hlays' hsound' (hserves.after hseats.allows hinner) hnext

/-- The body of a block, run at the start of the block. -/
theorem leads_body {statement : NodeId → Run Outcome} (hstatement : p.LeadsOn o statement)
    {id : Nat} {c : Construct} {line : Nat} {body slots : Forest}
    (hstands : p.tree.Stands id c line body slots) (hsound : body.Sound Γ (id + 1))
    (hserves : o.Serves Γ) (hinner : Γ.inner ≠ []) : p.Leads Γ (p.block statement id) Γ := by
  unfold block
  rw [hstands.children_eq]
  exact leads_sequence hstatement hstands.inBody hsound hserves hinner

/-- A block inside the unit, the entry block included. -/
theorem leads_block {statement : NodeId → Run Outcome} (hstatement : p.LeadsOn o statement)
    {id : Nat} {c : Construct} {line : Nat} {body slots : Forest} {scope : String}
    (hstands : p.tree.Stands id c line body slots)
    (hsound : body.Sound { Γ with inner := ⟨scope, []⟩ :: Γ.inner } (id + 1))
    (hserves : o.Serves Γ) : p.Leads Γ (p.block statement id) Γ :=
  .inside scope (leads_body hstatement hstands hsound (hserves.push scope) (List.cons_ne_nil _ _))

theorem SeatsBranch.leads_block {statement : NodeId → Run Outcome}
    (hstatement : p.LeadsOn o statement) (hserves : o.Serves Γ) {id : Nat}
    (h : p.SeatsBranch Γ id) : p.Leads Γ (p.block statement id) Γ := by
  obtain ⟨c, line, body, slots, hbranch, hseats⟩ := h
  cases c with
  | elseIf scope condition =>
    exact Program.leads_block hstatement hseats.stands hseats.inside hserves
  | otherwise scope => exact Program.leads_block hstatement hseats.stands hseats.inside hserves
  | _ => exact hbranch.elim

theorem leads_repeatWhile {condition : Run Bool} {body : Run Outcome}
    (hcondition : p.Leads Γ condition Γ) (hbody : p.Leads Γ body Γ) (bound : Nat) :
    p.Leads Γ (Run.repeatWhile condition body bound) Γ := by
  induction bound with
  | zero => exact .outOfSteps
  | succ bound ih =>
    rw [Run.repeatWhile]
    refine .afterTick (.bind hcondition fun holds => ?_)
    cases holds with
    | false => exact .pure _
    | true =>
      refine .bind hbody fun out => ?_
      cases out with
      | completed => exact ih
      | returned v => exact .pure _

/-- The branches of a conditional are blocks of the same point. -/
theorem leads_branches {statement : NodeId → Run Outcome} (hstatement : p.LeadsOn o statement)
    (hcalls : p.LeadsCalls Γ calls) (hserves : o.Serves Γ) {last : Option NodeId}
    (hlast : ∀ id : Nat, last = some id → p.SeatsBranch Γ id) {ids : List NodeId}
    (hids : ∀ id : Nat, id ∈ ids → p.SeatsBranch Γ id) :
    p.Leads Γ (p.branches calls (p.block statement) last ids) Γ := by
  induction ids with
  | nil =>
    unfold branches
    cases last with
    | none => exact .pure _
    | some id => exact (hlast id rfl).leads_block hstatement hserves
  | cons id rest ih =>
    have hrest := ih fun id hid => hids id (List.mem_cons_of_mem _ hid)
    have hbranch := hids id List.mem_cons_self
    have hbody := hbranch.leads_block hstatement hserves
    obtain ⟨c, line, body, slots, -, hseats⟩ := hbranch
    obtain ⟨n, hn, rfl, -, -⟩ := hseats.stands.node
    unfold branches
    split
    · rename_i scope condition line' _ _ _ _ heq
      cases hn.symm.trans heq
      refine .bind (leads_truth hcalls hseats.sound) fun holds => ?_
      cases holds with
      | true => exact hbody
      | false => exact hrest
    · exact hrest

/-- A name that may be written is given a line. -/
theorem leads_input {target : String} (hid : Γ.names.writes target) (path : List Integer)
    (line : Nat) : p.Leads Γ (input target path line) Γ := by
  unfold input
  refine .bindLook hid.1 (Memory.looksAt_addressedType target path.length) fun type => ?_
  cases type with
  | scalar expected =>
    exact .bind .readLine fun text => .bind (.atLine _) fun v => .store hid path v
  | array element dimensions => exact .atLine _

/-- Every statement of an accepted program is a run from its point to the next. -/
theorem leadsOn_execute (hcalls : ∀ Γ, o.Serves Γ → p.LeadsCalls Γ calls) (bound : Nat) :
    p.LeadsOn o (p.execute calls bound) := by
  induction bound with
  | zero => exact fun _ _ _ _ _ _ _ _ => .outOfSteps
  | succ bound ih =>
    intro Γ id c line body slots hserves hseats
    have hpoint := hcalls Γ hserves
    have hsound := hseats.sound
    obtain ⟨n, hn, hconstruct, rfl, -⟩ := hseats.stands.node
    rw [execute]
    refine .afterTick ?_
    rw [hn]
    dsimp only
    rw [hconstruct]
    cases c with
    | declaration d =>
      -- only a declaration leads to another point: behind it its variable is declared
      have hdeclare (v : Value) : p.Leads Γ (do
          let value ← Run.atLine n.line (v.coerce d.type)
          Run.declare { type := d.type, name := d.name, id := d.id, value }
          return Outcome.completed) (Γ.declare d.name) :=
        .bind (.atLine _) fun value => .bind (.declare hseats.allows.1) fun _ => .pure _
      dsimp only
      cases hi : d.initializer with
      | computed e =>
        rw [Construct.Sound, hi] at hsound
        exact .bind (leads_evaluate hpoint e hsound.2.2) hdeclare
      | fixed v => exact hdeclare v
    | assignment target indices value =>
      obtain ⟨hid, hindices, hvalue⟩ := hsound
      refine .bind (leads_evaluate hpoint value hvalue) fun v => ?_
      refine .bind (leads_evaluateIndices hpoint indices hindices) fun path => ?_
      exact .bind (.store hid path v) fun _ => .pure _
    | loop scope condition =>
      exact leads_repeatWhile (leads_truth hpoint hsound)
        (leads_block ih hseats.stands hseats.inside hserves) bound
    | conditional scope condition elseIfs last =>
      obtain ⟨hlast, helseIfs⟩ := seatsBranch_of_conditional hseats
      refine .bind (leads_truth hpoint hsound) fun holds => ?_
      cases holds with
      | true => exact leads_block ih hseats.stands hseats.inside hserves
      | false => exact leads_branches ih hpoint hserves hlast helseIfs
    | call name arguments =>
      obtain ⟨heading, hcallable, hfit⟩ := hsound
      exact .bind (hpoint name heading arguments n.line hcallable hfit) fun _ => .pure _
    | input target indices =>
      refine .bind (leads_evaluateIndices hpoint indices hsound.2) fun path => ?_
      exact .bind (leads_input hsound.1 path n.line) fun _ => .pure _
    | output value =>
      refine .bind (leads_evaluate hpoint value hsound) fun v => ?_
      exact .bind (.writeLine v.text) fun _ => .pure _
    | result value =>
      cases value with
      | none => exact .pure _
      | some value => exact .bind (leads_evaluate hpoint value hsound.2) fun v => .pure _
    | elseIf scope condition => exact leads_block ih hseats.stands hseats.inside hserves
    | otherwise scope => exact leads_block ih hseats.stands hseats.inside hserves
    | routine heading => exact .routines _ (.pure _)
    | unit | entry => exact hseats.allows.elim

/-! ## Calls -/

/-- Every call of an accepted program is a run at its point, at any depth. -/
theorem leadsCalls_call (hmeans : p.Means o) (bound : Nat) :
    ∀ Γ, o.Serves Γ → p.LeadsCalls Γ (p.call bound) := by
  induction bound with
  | zero => exact fun _ _ _ _ _ _ _ _ => .outOfSteps
  | succ bound ih =>
    intro Γ hserves name heading arguments line hcallable hfit
    obtain ⟨r, Γ', hdeclares, rfl, rfl, hnames⟩ := hserves.callable name heading hcallable
    obtain ⟨hget, line', body, slots, hseats⟩ := hmeans.seats_routine hdeclares
    have hscope : Γ'.unit.scope = Γ.unit.scope := hdeclares.serves.scope.trans hserves.scope.symm
    have hbody := leads_body (leadsOn_execute ih bound) hseats.stands hseats.inside
      hdeclares.serves (List.cons_ne_nil _ _)
    have hvalues : ∀ e, .value e ∈ arguments → p.Leads Γ (Run.evaluate (p.call bound) e) Γ :=
      fun e he => leads_evaluate (ih Γ hserves) e (sound_of_mem_arguments hfit he)
    have hcall := Leads.call hget hscope hnames hseats.allows.2.2.2.2.1 hfit
      (p.shapelyCalls_call bound) hvalues hbody
    rw [call]
    refine .afterTick ?_
    rw [hget]
    dsimp only
    rw [if_pos hfit.length_eq]
    have hall : p.Leads Γ (_ >>= fun out => Run.atLine line (callResult r.heading out)) Γ :=
      .bind hcall fun out => .atLine _
    rwa [bind_assoc] at hall

/-! ## Whole programs -/

/-- The items from some point on, routines left out.  The induction is on these items, with those
before them as the surroundings. -/
theorem leads_items {statement : NodeId → Run Outcome} (hstatement : p.LeadsOn o statement)
    {before after : Forest} (h : o.items = before.append after) {linkage : Forest.Linkage}
    (hlays : p.tree.Lays (some 0) linkage (1 + before.size) after)
    (hsound : after.Sound (o.start.afterAll 1 before) (1 + before.size)) :
    p.Leads (o.start.afterAll 1 before)
      (runAll statement ((after.roots (1 + before.size)).filter (!p.isRoutine ·))) o.ready := by
  induction after generalizing before linkage with
  | nil =>
    rw [Forest.append_nil] at h
    rw [Outline.ready, h]
    exact .pure ()
  | cons c line body slots rest _ _ ih =>
    obtain ⟨hseats, hlays', hsound'⟩ := hlays.seats hsound
    obtain ⟨hitems, hsize, hafter⟩ := Outline.move_item h
    have hrest := ih hitems (hsize ▸ hlays') (by rw [hafter, hsize]; exact hsound')
    rw [hafter, hsize] at hrest
    rw [Forest.roots]
    by_cases hroutine : p.isRoutine (1 + before.size) = true
    · rw [List.filter_cons_of_neg (by simp [hroutine])]
      obtain ⟨heading, rfl⟩ := exists_of_isRoutine hseats.stands.construct?_eq hroutine
      exact .routines _ hrest
    · rw [List.filter_cons_of_pos (by simp [hroutine]), runAll]
      exact .bind (hstatement (Outline.serves_afterAll h) hseats) fun out => hrest

/-- The run of a whole program leads from its start to the point behind all of its items. -/
theorem leads_run (h : p.Means o) (bound : Nat) : p.Leads o.start (p.run bound) o.ready := by
  have hstatement : p.LeadsOn o (p.execute (p.call bound) bound) :=
    leadsOn_execute (leadsCalls_call h bound) bound
  have hitems : p.Leads o.start
      (runAll (p.execute (p.call bound) bound) ((o.items.roots 1).filter (!p.isRoutine ·)))
      o.ready :=
    leads_items hstatement (show o.items = Forest.nil.append o.items from rfl)
      h.lays.parts.1.inBody h.items
  have hserves : o.Serves o.ready := Outline.serves_afterAll o.items.append_nil.symm
  unfold run
  dsimp only
  rw [h.root, h.children_unit, h.entryBlock_eq]
  refine .bind hitems fun _ => ?_
  exact .bind (leads_block hstatement h.stands_entry h.body hserves) fun _ => .pure _

end Program

end Primer
