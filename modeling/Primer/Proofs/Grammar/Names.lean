import Primer.Proofs.Grammar.Step

/-!
# Primer.Proofs.Grammar.Names — expressions and constructs that fit the names around them.

`Names` is what a point of a program knows: which ids may be read and written there, which routines
may be called, and which routine the point lies in.  An expression or a construct is `Sound` for
these names if every id and every call in it is one of them, every call has one argument for each
parameter and each argument is of the kind that its parameter asks for, and every literal is a
scalar.

The judgement never looks at a draft or at an environment; both supply `Names` of their own, and
`Names.Le` carries soundness from one to the other.
-/

namespace Primer

/-- What can be named at a point of a program. -/
structure Names where
  /-- The ids that may be read. -/
  reads : String → Prop
  /-- The ids that may be written. -/
  writes : String → Prop
  /-- The headings of the routines that may be called. -/
  callable : String → Option Heading
  /-- The routine that the point lies in. -/
  heading : Option Heading

/-- What can be named on the left can be named on the right. -/
structure Names.Le (v w : Names) : Prop where
  reads : ∀ id, v.reads id → w.reads id
  writes : ∀ id, v.writes id → w.writes id
  callable : ∀ name h, v.callable name = some h → w.callable name = some h
  heading : v.heading = w.heading

/-- The value can be written as a literal: a scalar, and a finite one. -/
def Value.IsLiteral : Value → Prop
  | .real x => Real.isFinite x = true
  | .array .. => False
  | .integer _ | .boolean _ | .char _ | .string _ => True

/-! ## Expressions -/

namespace Expr

mutual

/-- The expression only uses what can be named. -/
def Sound (v : Names) : Expr → Prop
  | literal _ value => value.IsLiteral
  | ident _ id => v.reads id
  | element _ id indices => v.reads id ∧ indices ≠ [] ∧ SoundList v indices
  | call _ name arguments =>
    ∃ heading, v.callable name = some heading ∧ Fit v heading.parameters arguments
  | unary _ _ operand => Sound v operand
  | binary _ _ left right => Sound v left ∧ Sound v right

/-- All expressions of a list are sound. -/
def SoundList (v : Names) : List Expr → Prop
  | [] => True
  | e :: rest => Sound v e ∧ SoundList v rest

/-- There is one argument for each parameter, and it fits. -/
def Fit (v : Names) (parameters : List Parameter) : List Argument → Prop
  | [] => parameters = []
  | argument :: rest =>
    ∃ parameter more, parameters = parameter :: more ∧
      FitArgument v parameter.mode argument ∧ Fit v more rest

/-- An argument passed by value is sound, one passed by reference may be written. -/
def FitArgument (v : Names) (mode : PassMode) : Argument → Prop
  | .value e => mode = .byValue ∧ Sound v e
  | .reference _ id => mode = .byReference ∧ v.writes id

end

mutual

/-- An expression that fits names fits more of them. -/
theorem sound_mono {v w : Names} (hvw : v.Le w) : ∀ e : Expr, Sound v e → Sound w e
  | literal .., h => h
  | ident _ id, h => hvw.reads id h
  | element _ id indices, h => ⟨hvw.reads id h.1, h.2.1, soundList_mono hvw indices h.2.2⟩
  | call _ _ arguments, ⟨heading, hc, hf⟩ =>
    ⟨heading, hvw.callable _ _ hc, fit_mono hvw heading.parameters arguments hf⟩
  | unary _ _ operand, h => sound_mono hvw operand h
  | binary _ _ left right, h => ⟨sound_mono hvw left h.1, sound_mono hvw right h.2⟩

theorem soundList_mono {v w : Names} (hvw : v.Le w) :
    ∀ es : List Expr, SoundList v es → SoundList w es
  | [], _ => trivial
  | e :: rest, h => ⟨sound_mono hvw e h.1, soundList_mono hvw rest h.2⟩

theorem fit_mono {v w : Names} (hvw : v.Le w) :
    ∀ (parameters : List Parameter) (arguments : List Argument),
      Fit v parameters arguments → Fit w parameters arguments
  | _, [], h => h
  | _, argument :: rest, ⟨parameter, more, hp, ha, hr⟩ =>
    ⟨parameter, more, hp, fitArgument_mono hvw parameter.mode argument ha,
      fit_mono hvw more rest hr⟩

theorem fitArgument_mono {v w : Names} (hvw : v.Le w) (mode : PassMode) :
    ∀ argument : Argument, FitArgument v mode argument → FitArgument w mode argument
  | .value e, h => ⟨h.1, sound_mono hvw e h.2⟩
  | .reference _ id, h => ⟨h.1, hvw.writes id h.2⟩

end

end Expr

/-- A list of arguments that fits is as long as the list of parameters. -/
theorem Expr.Fit.length_eq {v : Names} {parameters : List Parameter} {arguments : List Argument}
    (h : Expr.Fit v parameters arguments) : arguments.length = parameters.length := by
  induction arguments generalizing parameters with
  | nil =>
    obtain rfl : parameters = [] := h
    rfl
  | cons argument rest ih =>
    obtain ⟨parameter, more, rfl, _, hr⟩ := h
    simp [ih hr]

/-! ## Types and initial values -/

/-- An array type has at least one dimension, and every dimension has a size. -/
def SlotType.Proper : SlotType → Prop
  | .scalar _ => True
  | .array _ dimensions => dimensions ≠ [] ∧ ∀ size ∈ dimensions, 0 < size

/-- A computed value goes into a scalar slot; a ready made one is that of a fresh slot. -/
def Initializer.Sound (v : Names) (type : SlotType) : Initializer → Prop
  | .computed e => (∃ t, type = .scalar t) ∧ e.Sound v
  | .fixed value => value = type.initial

/-! ## Constructs -/

/-- The construct only uses what can be named.  A return carries a value in functions and none in
procedures. -/
def Construct.Sound (v : Names) : Construct → Prop
  | .declaration d => d.type.Proper ∧ d.initializer.Sound v d.type
  | .assignment target indices value =>
    v.writes target ∧ Expr.SoundList v indices ∧ value.Sound v
  | .loop _ condition | .conditional _ condition _ _ | .elseIf _ condition => condition.Sound v
  | .call name arguments =>
    ∃ heading, v.callable name = some heading ∧ Expr.Fit v heading.parameters arguments
  | .input target indices => v.writes target ∧ Expr.SoundList v indices
  | .output value => value.Sound v
  | .result (some value) => (∃ h t, v.heading = some h ∧ h.result = some t) ∧ value.Sound v
  | .result none => ∃ h, v.heading = some h ∧ h.result = none
  | .unit .. | .entry _ | .routine _ | .otherwise _ => True

theorem Initializer.sound_mono {v w : Names} (hvw : v.Le w) {type : SlotType} :
    ∀ i : Initializer, i.Sound v type → i.Sound w type
  | .computed e, h => ⟨h.1, e.sound_mono hvw h.2⟩
  | .fixed _, h => h

theorem Construct.sound_mono {v w : Names} (hvw : v.Le w) :
    ∀ c : Construct, c.Sound v → c.Sound w
  | .declaration d, h => ⟨h.1, d.initializer.sound_mono hvw h.2⟩
  | .assignment target indices value, h =>
    ⟨hvw.writes target h.1, Expr.soundList_mono hvw indices h.2.1, value.sound_mono hvw h.2.2⟩
  | .loop _ condition, h => condition.sound_mono hvw h
  | .conditional _ condition _ _, h => condition.sound_mono hvw h
  | .elseIf _ condition, h => condition.sound_mono hvw h
  | .call _ arguments, ⟨heading, hc, hf⟩ =>
    ⟨heading, hvw.callable _ _ hc, Expr.fit_mono hvw heading.parameters arguments hf⟩
  | .input target indices, h => ⟨hvw.writes target h.1, Expr.soundList_mono hvw indices h.2⟩
  | .output value, h => value.sound_mono hvw h
  | .result (some value), h => ⟨hvw.heading ▸ h.1, value.sound_mono hvw h.2⟩
  | .result none, h => by
    simpa only [Sound, hvw.heading] using h
  | .unit .., _ => trivial
  | .entry _, _ => trivial
  | .routine _, _ => trivial
  | .otherwise _, _ => trivial

end Primer
