import Primer.Proofs.History.Quiet

/-!
# Primer.Proofs.History.Traced — readings that remember their drafts.

A reader answers with the last draft only.  Here the readers of statements, blocks and programs are
written once more, step by step, and every step keeps the draft that it starts from.  What a step
does is taken from the reader itself; a step of its own are the readers that only take tokens, and
the readers of statements without a body.

A traced reading without its past is the reading that it traces: `traces_unit`.

The state of a traced reader is a draft with the drafts before it, so its steps are those of an
ordinary reader in a larger state (`step`), and an invariant of all drafts is an invariant of this
state.  The readers below repeat the structure of the grammar, and only that: a change inside of a
step, in a primitive or in the reader of an expression, leaves this module alone.
-/

namespace Primer.Grammar

/-- The draft that a reading has come to, and those it has passed, latest first. -/
structure History where
  now : Draft
  past : List Draft

/-- All drafts of a history. -/
def History.drafts (h : History) : List Draft := h.now :: h.past

/-- A reader that remembers; its past remains when it refuses. -/
abbrev Traced := EStateM ParseError History

variable {α β : Type}

/-- A reader as one step. -/
def step (x : Parse α) : Traced α := fun h =>
  match x.run h.now with
  | .ok a d => .ok a ⟨d, h.drafts⟩
  | .error e d => .error e ⟨d, h.drafts⟩

/-- What a step does is what the reader does, from the draft that the history has come to. -/
theorem Ends.step {y : Parse α} {h : History} {Q : α → History → Prop}
    {E : ParseError → History → Prop}
    (hy : Ends y h.now (fun a d => Q a ⟨d, h.drafts⟩) fun e d => E e ⟨d, h.drafts⟩) :
    Ends (step y) h Q E := by
  have hrun : (Grammar.step y).run h = match y.run h.now with
      | .ok a d => .ok a ⟨d, h.drafts⟩
      | .error e d => .error e ⟨d, h.drafts⟩ := rfl
  unfold Ends at hy ⊢
  rw [hrun]
  cases hy' : y.run h.now with
  | ok a d =>
    rw [hy'] at hy
    exact hy
  | error e d =>
    rw [hy'] at hy
    exact hy

namespace Traced

/-! ## The readers -/

/-- What is read in a block, with the block opened and closed. -/
def inBlock (node : NodeId) (scope : String) (body : Traced Unit) : Traced Unit := do
  step (openBlock node scope)
  body
  step closeBlock

/-- Reads the statements of a body up to one of these keywords, which it leaves. -/
abbrev Body := List Keyword → Traced Unit

/-- A loop, step by step. -/
def loop (body : Body) (bound : Nat) : Traced NodeId := do
  let line ← step (expect (.word .while))
  let condition ← step (expression bound)
  let _ ← step (expect (.word .repeat))
  let scope ← step (blockScope "while")
  let node ← step (allocate (.loop scope condition) line)
  inBlock node scope (body [.end])
  step (blockEnd .while)
  return node

/-- The further branches of a conditional. -/
def elseIfs (body : Body) (bound : Nat) (conditional : NodeId) : Nat → Traced Unit
  | 0 => pure ()
  | more + 1 => do
    if (← step peek) = some (.word .elseif) then
      let line ← step (expect (.word .elseif))
      let condition ← step (expression bound)
      let _ ← step (expect (.word .then))
      let scope ← step (blockScope "elseif")
      let branch ← step (allocate (.elseIf scope condition) line)
      step (place (·.attachBranch conditional branch) line)
      inBlock branch scope (body [.elseif, .else, .end])
      elseIfs body bound conditional more

/-- The branch without a condition. -/
def otherwise (body : Body) (conditional : NodeId) : Traced Unit := do
  if (← step peek) = some (.word .else) then
    let line ← step (expect (.word .else))
    let scope ← step (blockScope "else")
    let branch ← step (allocate (.otherwise scope) line)
    step (place (·.attachBranch conditional branch) line)
    inBlock branch scope (body [.end])

/-- A conditional with its branches. -/
def conditional (body : Body) (bound : Nat) : Traced NodeId := do
  let line ← step (expect (.word .if))
  let condition ← step (expression bound)
  let _ ← step (expect (.word .then))
  let scope ← step (blockScope "if")
  let node ← step (allocate (.conditional scope condition [] none) line)
  inBlock node scope (body [.elseif, .else, .end])
  elseIfs body bound node bound
  otherwise body node
  step (blockEnd .if)
  return node

end Traced

/-- A routine takes its name. -/
def define (routine : Routine) (line : Nat) : Parse Unit := do
  let d ← get
  match d.routines.define routine with
  | .error fault => refuse fault line
  | .ok routines => set { d with routines }

/-- Refuses the token to come, with which no item of the unit starts. -/
def noItem (next : Token) : Parse Unit := do
  refuse (.expectedToken .unitItem (some next)) (← peekLine)

/-- To register a routine is to define it and to attach its node. -/
theorem register_eq (routine : Routine) (line : Nat) :
    register routine line = define routine line >>= fun _ => attach routine.node := by
  unfold register define
  rw [bind_assoc]
  refine bind_congr fun d => ?_
  cases d.routines.define routine <;> rfl

namespace Traced

/-- A routine, from its heading to its end. -/
def routine (body : Body) (bound : Nat) : Traced Unit := do
  let (heading, line) ← step (routineHeading bound)
  let node ← step (allocate (.routine heading) line)
  inBlock node heading.scope (body [.end])
  step (namedEnd heading.name)
  let _ ← step (expect (.mark .semicolon))
  step (define ⟨node, heading⟩ line)
  step (attach node)

/-- The statement that a keyword starts. -/
def statement? (body : Body) (bound : Nat) : Keyword → Option (Traced NodeId)
  | .variable => some (step (declaration bound))
  | .let => some (step (assignment bound))
  | .if => some (conditional body bound)
  | .while => some (loop body bound)
  | .call => some (step (callStatement bound))
  | .input => some (step (inputStatement bound))
  | .output => some (step (outputStatement bound))
  | .return => some (step (returnStatement bound))
  | _ => none

/-- One item of a block. -/
def item (body : Body) (bound : Nat) (next : Token) : Traced Unit :=
  match next with
  | .word .function | .word .procedure => routine body bound
  | .word k =>
    match statement? body bound k with
    | some statement => do step (attach (← statement))
    | none => step (Grammar.item.unexpected next)
  | _ => step (Grammar.item.unexpected next)

/-- The items of a block, up to one of the keywords that end it. -/
def block : Nat → Body
  | 0, _ => step endOfText
  | bound + 1, terminators => do
    match ← step peek with
    | none => step endOfText
    | some next =>
      if isOneOf next terminators then return ()
      else
        item (block bound) bound next
        block bound terminators

/-- The items of the unit, up to the entry block. -/
def unitItems : Nat → Traced Unit
  | 0 => step endOfText
  | bound + 1 => do
    match ← step peek with
    | none => step endOfText
    | some (.word .beginning) => return ()
    | some (.word .variable) =>
      step (attach (← step (declaration bound)))
      unitItems bound
    | some (.word .function) | some (.word .procedure) =>
      routine (block bound) bound
      unitItems bound
    | some other => step (noItem other)

/-- The entry block. -/
def entryBlock (bound : Nat) (unitName : String) : Traced Unit := do
  let line ← step (expect (.word .beginning))
  let scope := Name.qualify unitName "beginning"
  let node ← step (allocate (.entry scope) line)
  step (place (·.setEntry node) line)
  inBlock node scope (block bound [.end])

/-- A whole program. -/
def unit (bound : Nat) : Traced NodeId := do
  let line ← step (expect (.word .module))
  let name ← step identifier
  let _ ← step (expect (.mark .semicolon))
  let root ← step (allocate (.unit name name none) line)
  step (place (·.setRoot root) line)
  inBlock root name do
    unitItems bound
    entryBlock bound name
    step (namedEnd name)
    let _ ← step (expect (.mark .dot))
  step (atEnd root)

end Traced

/-- The result of reading these tokens, with all drafts on the way. -/
def history (tokens : List Lexeme) : EStateM.Result ParseError History NodeId :=
  (Traced.unit tokens.length).run ⟨Draft.start tokens, []⟩

/-- All drafts that reading these tokens comes by, up to its end or to where it refuses. -/
def drafts (tokens : List Lexeme) : List Draft :=
  match history tokens with
  | .ok _ h | .error _ h => h.drafts

/-! ## The reading that is traced -/

/-- The result without the past. -/
def forget : EStateM.Result ParseError History α → EStateM.Result ParseError Draft α
  | .ok a h => .ok a h.now
  | .error e h => .error e h.now

/-- The traced reader is this reader, with a past. -/
def Traces (x : Traced α) (y : Parse α) : Prop := ∀ h, forget (x.run h) = y.run h.now

namespace Traces

variable {x : Traced α} {y : Parse α} {f : α → Traced β} {g : α → Parse β}

/-- A step is one step of the reading. -/
theorem once (y : Parse α) : Traces (step y) y := by
  intro h
  show forget (match y.run h.now with | .ok a d => _ | .error e d => _) = _
  cases y.run h.now <;> rfl

theorem pure (a : α) : Traces (Pure.pure a) (Pure.pure a) := fun _ => rfl

/-- Two readings in a row are traced one after the other. -/
theorem bind (hx : Traces x y) (hf : ∀ a, Traces (f a) (g a)) : Traces (x >>= f) (y >>= g) := by
  intro h
  have hrun := hx h
  show forget (EStateM.bind x f h) = EStateM.bind y g h.now
  unfold EStateM.bind
  change forget (x h) = y h.now at hrun
  rw [← hrun]
  cases x h with
  | ok a h' => exact hf a h'
  | error e h' => rfl

/-- A block is traced if what is in it is. -/
theorem inBlock {x : Traced Unit} {y : Parse Unit} (h : Traces x y) (node : NodeId)
    (scope : String) : Traces (Traced.inBlock node scope x) (Grammar.inBlock node scope y) :=
  (once _).bind fun _ => h.bind fun _ => once _

end Traces

section

variable {tracing : Traced.Body} {body : Body}

/-- The traced body is this body, with a past. -/
def TracesBody (tracing : Traced.Body) (body : Body) : Prop :=
  ∀ keywords, Traces (tracing keywords) (body keywords)

open Traces (once)

/-- A loop is traced if the body is. -/
theorem traces_loop (h : TracesBody tracing body) (bound : Nat) :
    Traces (Traced.loop tracing bound) (loop body bound) :=
  (once _).bind fun _ => (once _).bind fun _ => (once _).bind fun _ => (once _).bind fun scope =>
    (once _).bind fun node => ((h _).inBlock node scope).bind fun _ => (once _).bind fun _ =>
      .pure node

theorem traces_elseIfs (h : TracesBody tracing body) (bound : Nat) (conditional : NodeId) :
    ∀ more, Traces (Traced.elseIfs tracing bound conditional more)
      (elseIfs body bound conditional more) := by
  intro more
  induction more with
  | zero => exact .pure _
  | succ more ih =>
    refine (once _).bind fun next => ?_
    split
    · exact (once _).bind fun _ => (once _).bind fun _ => (once _).bind fun _ =>
        (once _).bind fun scope => (once _).bind fun branch => (once _).bind fun _ =>
          ((h _).inBlock branch scope).bind fun _ => ih
    · exact .pure _

theorem traces_otherwise (h : TracesBody tracing body) (conditional : NodeId) :
    Traces (Traced.otherwise tracing conditional) (otherwise body conditional) := by
  refine (once _).bind fun next => ?_
  split
  · exact (once _).bind fun _ => (once _).bind fun scope => (once _).bind fun branch =>
      (once _).bind fun _ => (h _).inBlock branch scope
  · exact .pure _

theorem traces_conditional (h : TracesBody tracing body) (bound : Nat) :
    Traces (Traced.conditional tracing bound) (conditional body bound) :=
  (once _).bind fun _ => (once _).bind fun _ => (once _).bind fun _ => (once _).bind fun scope =>
    (once _).bind fun node => ((h _).inBlock node scope).bind fun _ =>
      (traces_elseIfs h bound node bound).bind fun _ => (traces_otherwise h node).bind fun _ =>
        (once _).bind fun _ => .pure node

theorem traces_routine (h : TracesBody tracing body) (bound : Nat) :
    Traces (Traced.routine tracing bound) (routine body bound) := by
  rw [routine_eq]
  refine (once _).bind fun ⟨heading, line⟩ => (once _).bind fun node =>
    ((h _).inBlock node _).bind fun _ => (once _).bind fun _ => (once _).bind fun _ => ?_
  rw [register_eq]
  exact (once _).bind fun _ => once _

theorem traces_item (h : TracesBody tracing body) (bound : Nat) (next : Token) :
    Traces (Traced.item tracing bound next) (item body bound next) := by
  have hattach : ∀ {x : Traced NodeId} {y : Parse NodeId}, Traces x y →
      Traces (do step (attach (← x))) (do attach (← y)) :=
    fun h => h.bind fun _ => once _
  cases next with
  | word k =>
    cases k with
    | function | procedure => exact traces_routine h bound
    | «if» => exact hattach (traces_conditional h bound)
    | «while» => exact hattach (traces_loop h bound)
    | «variable» | «let» | call | input | output | «return» => exact hattach (once _)
    | _ => exact once (item.unexpected _)
  | _ => exact once (item.unexpected _)

end

/-- A block is traced, by induction on the bound. -/
theorem traces_block : ∀ bound, TracesBody (Traced.block bound) (block bound) := by
  intro bound
  induction bound with
  | zero => exact fun _ => .once _
  | succ bound ih =>
    intro keywords
    refine (Traces.once _).bind fun next => ?_
    cases next with
    | none => exact .once _
    | some next =>
      dsimp only
      split
      · exact .pure _
      · exact (traces_item ih bound next).bind fun _ => ih keywords

theorem traces_unitItems : ∀ bound, Traces (Traced.unitItems bound) (unitItems bound) := by
  intro bound
  induction bound with
  | zero => exact .once _
  | succ bound ih =>
    have hroutine := (traces_routine (traces_block bound) bound).bind fun _ => ih
    refine (Traces.once _).bind fun next => ?_
    cases next with
    | none => exact .once _
    | some next =>
      cases next with
      | word k =>
        cases k with
        | beginning => exact .pure _
        | «variable» => exact (Traces.once _).bind fun _ => (Traces.once _).bind fun _ => ih
        | function | procedure => exact hroutine
        | _ => exact .once (noItem _)
      | _ => exact .once (noItem _)

/-- A traced reading of a program without its past is the reading itself. -/
theorem traces_unit (bound : Nat) : Traces (Traced.unit bound) (unit bound) := by
  have hentry (name : String) : Traces (Traced.entryBlock bound name) (entryBlock bound name) :=
    (Traces.once _).bind fun _ => (Traces.once _).bind fun _ => (Traces.once _).bind fun _ =>
      (traces_block bound _).inBlock _ _
  have hinside (name : String) : Traces (do
        Traced.unitItems bound
        Traced.entryBlock bound name
        step (namedEnd name)
        let _ ← step (expect (.mark .dot)))
      (do
        unitItems bound
        entryBlock bound name
        namedEnd name
        let _ ← expect (.mark .dot)) :=
    (traces_unitItems bound).bind fun _ => (hentry name).bind fun _ =>
      (Traces.once _).bind fun _ => (Traces.once _).bind fun _ => .pure _
  exact (Traces.once _).bind fun _ => (Traces.once _).bind fun name => (Traces.once _).bind fun _ =>
    (Traces.once _).bind fun root => (Traces.once _).bind fun _ =>
      ((hinside name).inBlock root name).bind fun _ => .once _

/-- The history of a reading leads to where the reading ends. -/
theorem forget_history (tokens : List Lexeme) :
    forget (history tokens) = (unit tokens.length).run (Draft.start tokens) :=
  traces_unit tokens.length _

end Primer.Grammar
