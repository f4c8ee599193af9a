import Primer.Proofs.Grammar.Readers

/-!
# Primer.Proofs.Language.Outcome — both ends of a run of a reader.

A reader answers or refuses.  `Comes x d Q E` says of the run of `x` from the draft `d` that an
answer has the property `Q`, with the draft behind it, and that the fault of a refusal has the
property `E`.  A sequence is followed by `Comes.bind`, and every primitive has one rule for what it
does in front of whatever comes behind it.

The draft in the two properties is the one that the reader leaves behind, so what a rule says of a
sequence is said of the draft between its parts.  Rules for primitives are in the form of
`Comes.bind`, with the rest of the sequence as a parameter, because that is how a reader in `do`
notation unfolds.
-/

namespace Primer.Grammar

variable {α β : Type}

/-- An answer has one property, and the fault of a refusal another. -/
def Comes (x : Parse α) (d : Draft) (Q : α → Draft → Prop) (E : ParseFault → Prop) : Prop :=
  match x.run d with
  | .ok a d' => Q a d'
  | .error e _ => E e.fault

/-- The tokens that are left, without their lines. -/
def Draft.words (d : Draft) : List Token := d.tokens.map (·.token)

/-- A routine takes its name, and its place in the unit. -/
def register (routine : Routine) (line : Nat) : Parse Unit := do
  let d ← get
  match d.routines.define routine with
  | .error fault => refuse fault line
  | .ok routines => set { d with routines }
  attach routine.node

/-- A routine behind its heading. -/
def routineBody (body : Body) (heading : Heading) (line : Nat) : Parse Unit := do
  let node ← allocate (.routine heading) line
  inBlock node heading.scope (body [.end])
  namedEnd heading.name
  let _ ← expect (.mark .semicolon)
  register ⟨node, heading⟩ line

/-- The heading of a routine, with the line of its keyword. -/
def routineHeading (bound : Nat) : Parse (Heading × Nat) := do
  let keyword ← advance
  let line := keyword.line
  let visibility ← visibility
  let name ← identifier
  if (← get).blocks.length ≠ 1 then refuse (.nestedRoutine name) line
  let _ ← expect (.mark .openParen)
  let parameters ← commaSeparated (fun _ => parameter) .closeParen bound
  if let some repeated := firstRepeated? [] (parameters.map (·.name)) then
    refuse (.duplicateParameter repeated) line
  let result ←
    if keyword.token = .word .function then do
      let _ ← expect (.mark .colon)
      some <$> scalarType
    else pure none
  let scope := Name.qualify (← get).scope name
  return ({ result, visibility, name, parameters, scope }, line)

/-- Nothing is left of the text. -/
def atEnd (root : NodeId) : Parse NodeId := do
  match (← get).tokens with
  | [] => return root
  | ⟨token, line⟩ :: _ => refuse (.trailingTokens token) line

/-- A routine is its heading and what stands behind it. -/
theorem routine_eq (body : Body) (bound : Nat) :
    routine body bound = routineHeading bound >>= fun h => routineBody body h.1 h.2 := by
  unfold routine routineHeading
  simp only [bind_assoc]
  refine bind_congr fun keyword => bind_congr fun visibility => bind_congr fun name =>
    bind_congr fun d => ?_
  split
  · rfl
  · simp only [bind_assoc]
    refine bind_congr fun _ => bind_congr fun parameters => ?_
    cases firstRepeated? [] (parameters.map (·.name)) with
    | some repeated => rfl
    | none =>
      dsimp only
      split
      · simp only [bind_assoc, pure_bind]
        rfl
      · simp only [bind_assoc, pure_bind]
        rfl

theorem atEnd_ok {root root' : NodeId} {d d' : Draft} (h : (atEnd root).run d = .ok root' d') :
    d.tokens = [] ∧ d' = d := by
  unfold atEnd at h
  obtain ⟨_, _, hget, h⟩ := bind_ok h
  obtain ⟨rfl, rfl⟩ := get_ok hget
  split at h
  · rename_i htokens
    exact ⟨htokens, (pure_ok h).2.symm⟩
  · exact (refuse_ok h).elim

/-- The first word is that of the token that is gone. -/
theorem Draft.Drops.words {d d' : Draft} {l : Lexeme} (h : d.Drops l d') :
    d.words = l.token :: d'.words := by
  rw [Draft.words, h.tokens]
  rfl

/-- The token that is gone was the next one. -/
theorem Draft.Drops.head_eq {d d' : Draft} {l : Lexeme} {t : Token} (h : d.Drops l d')
    (hnext : d.words.head? = some t) : l.token = t := by
  rw [h.words] at hnext
  exact Option.some.inj hnext

/-- To advance takes the first token, and refuses the end of a text. -/
theorem advance_run (d : Draft) : advance.run d = match d.tokens with
    | [] => .error ⟨.unexpectedEnd, d.lastLine⟩ d
    | l :: rest => .ok l { d with tokens := rest, lastLine := l.line } := by
  obtain ⟨tokens, _⟩ := d
  cases tokens <;> rfl

namespace Comes

variable {x : Parse α} {f : α → Parse β} {d : Draft} {P : α → Draft → Prop}
  {Q : β → Draft → Prop} {E F : ParseFault → Prop}

theorem imp {Q R : α → Draft → Prop} (h : Comes x d Q E) (hQ : ∀ a d', Q a d' → R a d')
    (hE : ∀ fault, E fault → F fault) : Comes x d R F := by
  unfold Comes at h ⊢
  cases hx : x.run d with
  | ok a d' =>
    rw [hx] at h
    exact hQ a d' h
  | error e d' =>
    rw [hx] at h
    exact hE e.fault h

/-- What holds of every answer. -/
theorem always {Q : α → Draft → Prop} (h : ∀ a d', Q a d') : Comes x d Q fun _ => True := by
  unfold Comes
  cases x.run d with
  | ok a d' => exact h a d'
  | error e d' => trivial

/-- Two things that are known of one run. -/
theorem and {Q R : α → Draft → Prop} (h : Comes x d Q E) (h' : Comes x d R F) :
    Comes x d (fun a d' => Q a d' ∧ R a d') (fun fault => E fault ∧ F fault) := by
  unfold Comes at h h' ⊢
  cases hx : x.run d with
  | ok a d' =>
    rw [hx] at h h'
    exact ⟨h, h'⟩
  | error e d' =>
    rw [hx] at h h'
    exact ⟨h, h'⟩

/-- What is known of an answer by other means. -/
theorem andRun {Q : α → Draft → Prop} (h : Comes x d Q E) :
    Comes x d (fun a d' => Q a d' ∧ x.run d = .ok a d') E := by
  unfold Comes at h ⊢
  cases hx : x.run d with
  | ok a d' =>
    rw [hx] at h
    exact ⟨h, rfl⟩
  | error e d' =>
    rw [hx] at h
    exact h

theorem run_ok {Q : α → Draft → Prop} {a : α} {d' : Draft} (h : Comes x d Q E)
    (hx : x.run d = .ok a d') : Q a d' := by
  unfold Comes at h
  rw [hx] at h
  exact h

/-- A reader that cannot refuse answers. -/
theorem answers {Q : α → Draft → Prop} (h : Comes x d Q fun _ => False) :
    ∃ a d', x.run d = .ok a d' ∧ Q a d' := by
  unfold Comes at h
  cases hx : x.run d with
  | ok a d' =>
    rw [hx] at h
    exact ⟨a, d', rfl, h⟩
  | error e d' =>
    rw [hx] at h
    exact h.elim

theorem run_error {Q : α → Draft → Prop} {e : ParseError} {d' : Draft} (h : Comes x d Q E)
    (hx : x.run d = .error e d') : E e.fault := by
  unfold Comes at h
  rw [hx] at h
  exact h

/-- A sequence is followed from its first part to its second. -/
theorem bind (hx : Comes x d P E) (hf : ∀ a d', P a d' → Comes (f a) d' Q E) :
    Comes (x >>= f) d Q E := by
  unfold Comes at hx ⊢
  change (match EStateM.bind x f d with | .ok b d' => Q b d' | .error e _ => E e.fault)
  unfold EStateM.bind
  cases h : x.run d with
  | ok a d' =>
    rw [h] at hx
    rw [show x d = .ok a d' from h]
    exact hf a d' hx
  | error e d' =>
    rw [h] at hx
    rw [show x d = .error e d' from h]
    exact hx

theorem pure {Q : α → Draft → Prop} {a : α} (h : Q a d) : Comes (pure a) d Q E := h

theorem pureBind {a : α} (h : Comes (f a) d Q E) : Comes (Pure.pure a >>= f) d Q E := h

theorem refuse {Q : α → Draft → Prop} {fault : ParseFault} {line : Nat} (h : E fault) :
    Comes (refuse fault line) d Q E := h

/-- A refusal refuses whatever comes behind it. -/
theorem refuseBind {fault : ParseFault} {line : Nat} (h : E fault) :
    Comes (Grammar.refuse fault line >>= f) d Q E := h

theorem endOfText {Q : α → Draft → Prop} (h : E .unexpectedEnd) :
    Comes Grammar.endOfText d Q E := h

theorem map {g : α → β} (h : Comes x d (fun a d' => Q (g a) d') E) : Comes (g <$> x) d Q E := by
  unfold Comes at h ⊢
  change (match EStateM.map g x d with | .ok b d' => Q b d' | .error e _ => E e.fault)
  unfold EStateM.map
  cases hx : x.run d with
  | ok a d' =>
    rw [hx] at h
    rw [show x d = .ok a d' from hx]
    exact h
  | error e d' =>
    rw [hx] at h
    rw [show x d = .error e d' from hx]
    exact h

/-! ## Steps that take nothing -/

theorem get {f : Draft → Parse β} (h : Comes (f d) d Q E) : Comes (MonadState.get >>= f) d Q E := h

theorem set {f : PUnit → Parse β} {s : Draft} (h : Comes (f ⟨⟩) s Q E) :
    Comes (MonadStateOf.set s >>= f) d Q E := h

theorem peek {f : Option Token → Parse β} (h : Comes (f d.words.head?) d Q E) :
    Comes (Grammar.peek >>= f) d Q E := by
  rw [Draft.words, List.head?_map] at h
  exact h

theorem peekLine {f : Nat → Parse β} (h : ∀ line, Comes (f line) d Q E) :
    Comes (Grammar.peekLine >>= f) d Q E :=
  h _

theorem allocate {f : NodeId → Parse β} {c : Construct} {line : Nat}
    (h : Comes (f d.tree.size) (d.allocated c line) Q E) :
    Comes (Grammar.allocate c line >>= f) d Q E := h

/-- A block without a name takes the next number. -/
theorem blockScope {f : String → Parse β} {label : String}
    (h : Comes (f (d.nextScope label)) d.counted Q E) :
    Comes (Grammar.blockScope label >>= f) d Q E := h

/-- A statement is attached to the innermost block. -/
theorem attach {node : NodeId} {Q : Unit → Draft → Prop} (h : Q () (d.attached node)) :
    Comes (Grammar.attach node) d Q E := h

/-- A node is placed, or the tree refuses it. -/
theorem place {f : Unit → Parse β} {g : Tree → Except TreeFault Tree} {line : Nat}
    (hok : ∀ tree, g d.tree = .ok tree → Comes (f ()) (d.planted tree) Q E)
    (herror : ∀ cause, g d.tree = .error cause → E (.tree cause)) :
    Comes (Grammar.place g line >>= f) d Q E := by
  refine Comes.bind (P := fun _ d' => ∃ tree, g d.tree = .ok tree ∧ d.planted tree = d') ?_ ?_
  · unfold Grammar.place
    refine Comes.get ?_
    cases hg : g d.tree with
    | ok tree => exact ⟨tree, rfl, rfl⟩
    | error cause => exact Comes.refuse (herror cause hg)
  · rintro ⟨⟩ d' ⟨tree, htree, rfl⟩
    exact hok tree htree

/-- A routine that is registered and put into the unit: its name may be taken. -/
theorem register {routine : Routine} {line : Nat}
    (htaken : E (.functionAlreadyDefined routine.heading.name)) {Q : Unit → Draft → Prop}
    (h : ∀ routines, d.routines.define routine = .ok routines →
      Q () ({ d with routines }.attached routine.node)) :
    Comes (Grammar.register routine line) d Q E := by
  refine Comes.get ?_
  dsimp only
  split
  · rename_i fault hfault
    unfold Routines.define at hfault
    split at hfault
    · cases hfault
      exact Comes.refuseBind htaken
    · cases hfault
  · exact Comes.set (Comes.attach (h _ ‹_›))

/-- What is read in a block is read with the block open. -/
theorem inBlock {node : NodeId} {scope : String} {body : Parse Unit} {Q : Unit → Draft → Prop}
    (h : Comes body (d.opened node scope) (fun _ d' => Q () d'.closed) E) :
    Comes (Grammar.inBlock node scope body) d Q E :=
  Comes.bind (P := fun _ d' => d' = d.opened node scope) rfl fun _ _ h₁ =>
    Comes.bind (h₁ ▸ h) fun _ _ h₂ => h₂

/-! ## Steps that take a token -/

/-- A token is taken, or the text ends. -/
theorem advance {f : Lexeme → Parse β} (hend : d.tokens = [] → E .unexpectedEnd)
    (h : ∀ l d', d.Drops l d' → Comes (f l) d' Q E) : Comes (Grammar.advance >>= f) d Q E := by
  refine Comes.bind (P := fun l d' => d.Drops l d') ?_ h
  unfold Comes
  rw [advance_run]
  cases ht : d.tokens with
  | nil => exact hend ht
  | cons l rest => exact ⟨ht, rfl⟩

end Comes

end Primer.Grammar
