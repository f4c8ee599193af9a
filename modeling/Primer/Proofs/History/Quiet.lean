import Primer.Proofs.Language.Sentences

/-!
# Primer.Proofs.History.Quiet — readers that only take tokens, also when they refuse.

A step that refuses leaves a draft behind too.  `Ends x s Q E` says of the run of `x` from the state
`s` that an answer has the property `Q` and a refusal the property `E`, each with the state that is
left.  A reader is `Quiet` if on both ways it only takes tokens, and refuses nothing for being
declared already; every reader of expressions is.

That a reader takes only tokens where it answers is known from `Step`; new is what it leaves where
it refuses, since a refused text has a last draft as well and something is said about it.  There is
one rule for each way of putting readers together, and then one lemma for each reader, in the order
in which the grammar has them.  The bound of a nested reader is the induction.
-/

namespace Primer

/-- The name of which a refusal says that its block declares it already. -/
def ParseFault.redeclared? : ParseFault → Option String
  | variableAlreadyDeclared name => some name
  | _ => none

namespace Grammar

variable {α β σ : Type}

/-! ## Both ends of a run -/

/-- An answer and the state behind it have one property, a refusal and its state another. -/
def Ends (x : EStateM ParseError σ α) (s : σ) (Q : α → σ → Prop) (E : ParseError → σ → Prop) :
    Prop :=
  match x.run s with
  | .ok a s' => Q a s'
  | .error e s' => E e s'

namespace Ends

variable {x : EStateM ParseError σ α} {f : α → EStateM ParseError σ β} {s s' : σ}
  {P : α → σ → Prop} {Q : β → σ → Prop} {E F : ParseError → σ → Prop}

theorem imp {Q R : α → σ → Prop} (h : Ends x s Q E) (hQ : ∀ a s', Q a s' → R a s')
    (hE : ∀ e s', E e s' → F e s') : Ends x s R F := by
  unfold Ends at h ⊢
  cases hx : x.run s with
  | ok a s' =>
    rw [hx] at h
    exact hQ a s' h
  | error e s' =>
    rw [hx] at h
    exact hE e s' h

/-- A sequence: both ends of the first part are followed. -/
theorem bind (hx : Ends x s P E) (hf : ∀ a s', P a s' → Ends (f a) s' Q E) :
    Ends (x >>= f) s Q E := by
  unfold Ends at hx ⊢
  change (match EStateM.bind x f s with | .ok b s' => Q b s' | .error e s' => E e s')
  unfold EStateM.bind
  cases h : x.run s with
  | ok a s' =>
    rw [h] at hx
    rw [show x s = .ok a s' from h]
    exact hf a s' hx
  | error e s' =>
    rw [h] at hx
    rw [show x s = .error e s' from h]
    exact hx

theorem get {f : σ → EStateM ParseError σ β} (h : Ends (f s) s Q E) :
    Ends (MonadState.get >>= f) s Q E := h

/-- What is known of an answer by other means. -/
theorem andRun (h : Ends x s P E) : Ends x s (fun a s' => P a s' ∧ x.run s = .ok a s') E := by
  unfold Ends at h ⊢
  cases hx : x.run s with
  | ok a s' =>
    rw [hx] at h
    exact ⟨h, rfl⟩
  | error e s' =>
    rw [hx] at h
    exact h

theorem run_ok {a : α} (h : Ends x s P E) (hx : x.run s = .ok a s') : P a s' := by
  unfold Ends at h
  rwa [hx] at h

theorem run_error {e : ParseError} (h : Ends x s P E) (hx : x.run s = .error e s') : E e s' := by
  unfold Ends at h
  rwa [hx] at h

end Ends

/-! ## Quiet readers -/

/-- A refusal that has only taken tokens, for another reason than a variable that is declared
already. -/
def Draft.Refuses (d : Draft) (e : ParseError) (d' : Draft) : Prop :=
  d.Skips d' ∧ e.fault.redeclared? = none

/-- The reader only takes tokens. -/
def Quiet (x : Parse α) : Prop := ∀ d, Ends x d (fun _ d' => d.Skips d') d.Refuses

theorem Draft.Refuses.behind {d d₁ d₂ : Draft} {e : ParseError} (h : d.Skips d₁)
    (h' : d₁.Refuses e d₂) : d.Refuses e d₂ :=
  ⟨h.trans h'.1, h'.2⟩

namespace Quiet

variable {x : Parse α} {f : α → Parse β}

theorem pure (a : α) : Quiet (Pure.pure a) := fun d => .refl d

theorem bind (hx : Quiet x) (hf : ∀ a, Quiet (f a)) : Quiet (x >>= f) := fun d =>
  (hx d).bind fun a d₁ h => (hf a d₁).imp (fun _ _ h' => h.trans h') fun _ _ h' => h'.behind h

/-- A quiet reader in front of another reader, behind tokens that are taken already. -/
theorem before {d d₁ : Draft} {Q : β → Draft → Prop} {E : ParseError → Draft → Prop}
    (hx : Quiet x) (hs : d.Skips d₁) (hE : ∀ e d', d.Refuses e d' → E e d')
    (hf : ∀ a d₂, x.run d₁ = .ok a d₂ → d.Skips d₂ → Ends (f a) d₂ Q E) :
    Ends (x >>= f) d₁ Q E :=
  ((hx d₁).andRun.imp (fun _ _ h => h) fun _ _ h => hE _ _ (h.behind hs)).bind
    fun a d₂ h => hf a d₂ h.2 (hs.trans h.1)

theorem map (g : α → β) (hx : Quiet x) : Quiet (g <$> x) := by
  rw [map_eq_pure_bind]
  exact hx.bind fun a => .pure (g a)

theorem get : Quiet (MonadState.get : Parse Draft) := fun d => .refl d

/-- A refusal for any reason but a name that is declared already. -/
theorem refuse {fault : ParseFault} (h : fault.redeclared? = none) (line : Nat) :
    Quiet (Grammar.refuse fault line : Parse α) :=
  fun d => ⟨.refl d, h⟩

theorem endOfText : Quiet (Grammar.endOfText : Parse α) := get.bind fun _ => refuse rfl _

/-! ### Tokens -/

theorem peek : Quiet peek := get.bind fun _ => .pure _

theorem peekLine : Quiet peekLine := get.bind fun _ => .pure _

theorem advance : Quiet advance := by
  rintro ⟨tokens, line, tree, routines, declared, blocks, blockCount⟩
  cases tokens with
  | nil => exact ⟨.refl _, rfl⟩
  | cons l rest => exact ⟨List.suffix_cons l rest, rfl⟩

theorem expect (t : Token) : Quiet (expect t) := by
  refine advance.bind fun l => ?_
  split
  · exact .pure _
  · exact refuse rfl _

theorem eat (t : Token) : Quiet (eat t) := by
  refine peek.bind fun next => ?_
  split
  · exact advance.bind fun _ => .pure _
  · exact .pure _

theorem identifier : Quiet identifier := by
  refine advance.bind fun l => ?_
  split
  · exact .pure _
  · exact refuse rfl _

theorem scalarType : Quiet scalarType := by
  refine advance.bind fun l => ?_
  split
  · exact .pure _
  · exact refuse rfl _

theorem items {item : Nat → Parse α} (hitem : ∀ i, Quiet (item i)) (closing : Mark) :
    ∀ bound position, Quiet (items item closing bound position) := by
  intro bound
  induction bound with
  | zero => exact fun _ => endOfText
  | succ bound ih =>
    intro position
    refine (hitem position).bind fun first => advance.bind fun l => ?_
    split
    · exact .pure _
    · split
      · exact (ih (position + 1)).bind fun more => .pure _
      · exact refuse rfl _

theorem commaSeparated {item : Nat → Parse α} (hitem : ∀ i, Quiet (item i)) (closing : Mark)
    (bound : Nat) : Quiet (commaSeparated item closing bound) := by
  refine (eat _).bind fun done => ?_
  split
  · exact .pure _
  · exact items hitem closing bound 0

/-! ### Names -/

theorem callable (name : String) (line : Nat) : Quiet (callable name line) := by
  refine get.bind fun d => ?_
  split
  · exact .pure _
  · exact refuse rfl _

theorem resolve (name : String) (line : Nat) : Quiet (resolve name line) := by
  refine get.bind fun d => ?_
  split
  · exact .pure _
  · exact refuse rfl _

theorem resolveWritable (name : String) (line : Nat) : Quiet (resolveWritable name line) := by
  refine (resolve name line).bind fun id => get.bind fun d => ?_
  split
  · exact refuse rfl _
  · exact .pure _

/-! ### Expressions -/

theorem indices {expression : Parse Expr} (h : Quiet expression) :
    ∀ bound, Quiet (indices expression bound) := by
  intro bound
  induction bound with
  | zero => exact .pure _
  | succ bound ih =>
    refine (eat _).bind fun found => ?_
    split
    · exact h.bind fun index => (expect _).bind fun _ => ih.bind fun more => .pure _
    · exact .pure _

theorem referenceArgument (routine parameter : String) :
    Quiet (referenceArgument routine parameter) := by
  refine peekLine.bind fun line => get.bind fun d => ?_
  split
  · split
    · refine advance.bind fun _ => (resolve _ _).bind fun id => get.bind fun d => ?_
      split
      · exact refuse rfl _
      · exact .pure _
    · exact refuse rfl _
  · exact refuse rfl _

theorem argument {expression : Parse Expr} (h : Quiet expression) (heading : Heading)
    (position : Nat) : Quiet (argument expression heading position) := by
  unfold Grammar.argument
  split
  · exact referenceArgument _ _
  · exact h.bind fun e => .pure _

theorem arguments {expression : Parse Expr} (h : Quiet expression) (bound : Nat) (name : String)
    (line : Nat) : Quiet (arguments expression bound name line) := by
  refine (callable name line).bind fun heading => (expect _).bind fun _ =>
    (commaSeparated (argument h heading) _ bound).bind fun found => ?_
  dsimp only
  split
  · exact .pure _
  · exact refuse rfl _

theorem integerLiteral (n : Int) (line digitsLine : Nat) :
    Quiet (integerLiteral n line digitsLine) := by
  unfold Grammar.integerLiteral
  split
  · exact .pure _
  · exact refuse rfl _

theorem named {expression : Parse Expr} (h : Quiet expression) (bound : Nat) (name : String)
    (line : Nat) : Quiet (named expression bound name line) := by
  refine peek.bind fun next => ?_
  split
  · exact (arguments h bound name line).bind fun found => .pure _
  · refine (resolve name line).bind fun id => (indices h bound).bind fun path => ?_
    split
    · exact .pure _
    · exact .pure _

/-- A literal, a name, a call, or an expression in parentheses. -/
theorem primary {expression : Parse Expr} (h : Quiet expression) (bound : Nat) :
    Quiet (primary expression bound) := by
  refine advance.bind fun l => ?_
  obtain ⟨token, line⟩ := l
  rcases token with r | n | b | c | s | name | w | m
  case integer => exact integerLiteral _ _ _
  case real =>
    dsimp only
    split
    · exact .pure _
    · exact refuse rfl _
  case identifier => exact named h bound _ _
  case mark =>
    cases m with
    | openParen => exact h.bind fun e => (expect _).bind fun _ => .pure _
    | _ => exact refuse rfl _
  case word => exact refuse rfl _
  all_goals exact .pure _

theorem operations {operand : Parse Expr} (h : Quiet operand) (layer : Layer) :
    ∀ bound left, Quiet (operations operand layer bound left) := by
  intro bound
  induction bound with
  | zero => exact fun left => .pure left
  | succ bound ih =>
    intro left
    refine (peek.bind fun _ => .pure _ : Quiet (operator? layer)).bind fun op => ?_
    split
    · exact .pure _
    · exact advance.bind fun l => h.bind fun right => ih _

theorem layered {operand : Parse Expr} (h : Quiet operand) (bound : Nat) :
    ∀ layers, Quiet (layered operand bound layers) := by
  intro layers
  induction layers with
  | nil => exact h
  | cons layer tighter ih => exact ih.bind fun left => operations ih layer bound left

theorem operand : ∀ bound, Quiet (operand bound) := by
  intro bound
  induction bound with
  | zero => exact endOfText
  | succ bound ih =>
    refine peek.bind fun next => ?_
    split
    · refine advance.bind fun sign => peek.bind fun digits => ?_
      split
      · exact advance.bind fun _ => integerLiteral _ _ _
      · exact ih.bind fun e => .pure _
    · exact advance.bind fun sign => ih.bind fun e => .pure _
    · exact primary (layered ih bound Layer.all) bound

theorem expression (bound : Nat) : Quiet (expression bound) :=
  layered (operand bound) bound Layer.all

/-! ### Parts of statements -/

theorem blockEnd (k : Keyword) : Quiet (blockEnd k) := by
  refine (expect _).bind fun _ => advance.bind fun l => ?_
  split
  · exact (expect _).bind fun _ => .pure _
  · exact refuse rfl _

theorem namedEnd (name : String) : Quiet (namedEnd name) := by
  refine (expect _).bind fun line => identifier.bind fun found => ?_
  split
  · exact .pure _
  · exact refuse rfl _

theorem target (bound line : Nat) : Quiet (target bound line) :=
  identifier.bind fun name => (resolveWritable name line).bind fun _ =>
    (indices (expression bound) bound).bind fun _ => .pure _

theorem dimensions (bound : Nat) : ∀ more, Quiet (dimensions bound more) := by
  intro more
  induction more with
  | zero => exact .pure _
  | succ more ih =>
    refine (eat _).bind fun found => ?_
    split
    · refine (expression bound).bind fun e => ?_
      split
      · rename_i fault hsize
        obtain ⟨cause, line, rfl⟩ := arraySize_error hsize
        exact refuse rfl line
      · exact (expect _).bind fun _ => ih.bind fun sizes => .pure _
    · exact .pure _

theorem declarator (bound line : Nat) : Quiet (declarator bound line) := by
  refine (eat _).bind fun array => ?_
  split
  · refine (dimensions bound bound).bind fun sizes => ?_
    have hrest : Quiet (do
        let _ ← Grammar.expect (.word .of)
        let element ← Grammar.scalarType
        let name ← Grammar.identifier
        let type := SlotType.array element sizes
        return (type, name, .fixed type.initial) : Parse (SlotType × String × Initializer)) :=
      (expect _).bind fun _ => scalarType.bind fun element => identifier.bind fun name => .pure _
    dsimp only
    split
    · exact peek.bind fun next => (refuse rfl line).bind fun _ => hrest
    · exact hrest
  · refine scalarType.bind fun type => identifier.bind fun name => (eat _).bind fun assigned => ?_
    split
    · exact (expression bound).bind fun e => .pure _
    · exact .pure _

theorem parameter : Quiet parameter := by
  refine advance.bind fun l => ?_
  have hrest : ∀ mode : PassMode, Quiet (do
      let type ← Grammar.scalarType
      let name ← Grammar.identifier
      return { mode, type, name } : Parse Parameter) :=
    fun mode => scalarType.bind fun type => identifier.bind fun name => .pure _
  split
  · exact (Quiet.pure _).bind hrest
  · exact (Quiet.pure _).bind hrest
  · exact (refuse rfl _).bind hrest

theorem visibility : Quiet visibility := by
  refine advance.bind fun l => ?_
  split
  · exact .pure _
  · exact .pure _
  · exact refuse rfl _

end Quiet

end Grammar

end Primer
