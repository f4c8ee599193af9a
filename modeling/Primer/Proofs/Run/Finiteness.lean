import Primer.Proofs.Real.Finite
import Primer.Proofs.Run.Governed
import Primer.Proofs.Run.Safety

/-!
# Primer.Proofs.Run.Finiteness — finite reals stay finite.

A real comes into storage as a literal, as the initial value of a slot, by widening an integer, by
arithmetic or a change of sign, or from the console.  All of these but the last give finite reals: a
literal is checked when it is read, and arithmetic overflows instead.  A line of the console is
taken for a real whenever it spells one, and there are spellings of values that are not finite.  On
a console without such lines every real is finite, and two numbers can always be compared.

The regime of finite values asks that reals in storage are finite, that lines of input spell no
other ones, and that no fault is about numbers that cannot be compared.  Its laws are the statements
about operators in this module; that a run keeps to it is then an instance of what holds of every
run (`Regime.Governs.ends`).

Main statement: `Program.runOn_finite`.
-/

namespace Primer

/-! ## Finite values -/

namespace Value

mutual

/-- Every real in the value is finite. -/
def isFinite : Value → Bool
  | real x => Real.isFinite x
  | array _ items => areFinite items
  | integer _ | boolean _ | char _ | string _ => true

/-- Every real in the items is finite. -/
def areFinite : List Value → Bool
  | [] => true
  | v :: rest => isFinite v && areFinite rest

end

/-- An array is finite if all of its items are. -/
theorem areFinite_iff (vs : List Value) :
    areFinite vs = true ↔ ∀ v ∈ vs, v.isFinite = true := by
  induction vs with
  | nil => simp [areFinite]
  | cons v rest ih => simp [areFinite, ih]

/-- What can be written as a literal is finite. -/
theorem IsLiteral.isFinite {v : Value} (h : v.IsLiteral) : v.isFinite = true := by
  cases v with
  | real x => exact h
  | array element items => exact h.elim
  | _ => rfl

/-- A finite value that is a number is a finite number. -/
theorem isFinite_number {v : Value} (h : v.isFinite = true) {x : Float}
    (hx : v.number? = some x) : Real.isFinite x = true := by
  cases v with
  | integer n =>
    cases hx
    exact Real.isFinite_toReal n
  | real y =>
    cases hx
    exact h
  | _ => cases hx

/-- Two finite numbers are ordered. -/
theorem exists_order {v w : Value} (hv : v.isFinite = true) (hw : w.isFinite = true)
    {x y : Float} (hx : v.number? = some x) (hy : w.number? = some y) :
    ∃ o, v.order? w = some o := by
  unfold order?
  split
  · exact ⟨_, rfl⟩
  · rw [hx, hy]
    exact Real.exists_order (isFinite_number hv hx) (isFinite_number hw hy)

/-- Read as a real, the line does not give a real that is not finite. -/
def ReadsFinite (line : String) : Prop :=
  ∀ x, ofInput line .real = .ok (real x) → Real.isFinite x = true

end Value

/-- The cause is a comparison of two numbers. -/
def Fault.ComparesNumbers : Fault → Prop
  | typeError (.cannotCompare _ left right) => left.number?.isSome ∧ right.number?.isSome
  | _ => False

/-- Only finite reals are stored and read, and no comparison of two numbers fails. -/
def Regime.finite : Regime where
  value v := v.isFinite = true
  text := Value.ReadsFinite
  fault cause := ¬ cause.ComparesNumbers
  writes _ _ _ := True

/-! ## Operators -/

namespace Regime

/-- Faults that are not about comparing are none of this regime's concern. -/
theorem lenient_finite : finite.Lenient := by
  intro cause h hnumbers
  cases cause with
  | typeError cause =>
    cases cause with
    | cannotCompare op left right => exact h trivial
    | _ => exact hnumbers
  | _ => exact hnumbers

theorem passes_integerOrOverflow (result : Option Integer) :
    finite.Passes (Integer.orOverflow result) finite.value := by
  cases result with
  | none => exact id
  | some n => rfl

/-- Arithmetic does not leave the finite reals: it overflows. -/
theorem passes_realOrOverflow (x : Float) : finite.Passes (Real.orOverflow x) finite.value := by
  unfold Real.orOverflow
  split
  · rename_i hfinite
    exact hfinite
  · exact id

variable {op : BinaryOp} {result : Except Fault Value}

theorem passes_onIntegers {a b : Integer} (h : op.onIntegers? a b = some result) :
    finite.Passes result finite.value := by
  cases op with
  | divide =>
    cases h
    split
    · exact id
    · exact passes_integerOrOverflow _
  | add | subtract | multiply =>
    cases h
    exact passes_integerOrOverflow _
  | _ => cases h

/-- Operations on reals give finite values, or overflow. -/
theorem passes_onReals {x y : Float} (h : op.onReals? x y = some result) :
    finite.Passes result finite.value := by
  cases op with
  | divide =>
    cases h
    split
    · exact id
    · exact passes_realOrOverflow _
  | add | subtract | multiply =>
    cases h
    exact passes_realOrOverflow _
  | _ => cases h

theorem passes_onTexts {s t : String} (h : op.onTexts? s t = some result) :
    finite.Passes result finite.value := by
  cases op with
  | add =>
    cases h
    rfl
  | _ => cases h

theorem passes_arithmetic (op : BinaryOp) (left right : Value) :
    finite.Passes (op.arithmetic left right) finite.value := by
  unfold BinaryOp.arithmetic
  cases h : op.arithmetic? left right with
  | none => exact id
  | some result =>
    unfold BinaryOp.arithmetic? at h
    split at h
    · exact passes_onIntegers h
    · split at h
      · exact passes_onReals h
      · split at h
        · exact passes_onTexts h
        · cases h

theorem passes_comparison (op : BinaryOp) {left right : Value} (hleft : finite.value left)
    (hright : finite.value right) : finite.Passes (op.comparison left right) finite.value := by
  unfold BinaryOp.comparison
  cases horder : left.order? right with
  | some o => rfl
  | none =>
    dsimp only
    split
    · rfl
    · split
      · rfl
      · rintro ⟨hx, hy⟩
        obtain ⟨x, hx⟩ := Option.isSome_iff_exists.1 hx
        obtain ⟨y, hy⟩ := Option.isSome_iff_exists.1 hy
        obtain ⟨o, ho⟩ := Value.exists_order hleft hright hx hy
        rw [horder] at ho
        cases ho

theorem passes_logic (op : BinaryOp) (left right : Value) :
    finite.Passes (op.logic left right) finite.value := by
  refine (lenient_finite.passes_expectBoolean left).bind fun a _ => ?_
  refine (lenient_finite.passes_expectBoolean right).bind fun b _ => ?_
  cases op with
  | and | or => rfl
  | _ => exact id

theorem passes_apply (op : BinaryOp) {left right : Value} (hleft : finite.value left)
    (hright : finite.value right) : finite.Passes (op.apply left right) finite.value := by
  cases op with
  | add | subtract | multiply | divide => exact passes_arithmetic _ left right
  | less | greater | lessEqual | greaterEqual | equal | notEqual =>
    exact passes_comparison _ hleft hright
  | and => exact passes_logic .and left right
  | or => exact passes_logic .or left right

theorem passes_unary (op : UnaryOp) {v : Value} (hv : finite.value v) :
    finite.Passes (op.apply v) finite.value := by
  cases op with
  | negate =>
    cases v with
    | integer n => exact passes_integerOrOverflow _
    | real x => exact Real.isFinite_neg hv
    | _ => exact id
  | not => exact (lenient_finite.passes_expectBoolean v).map fun _ _ => rfl

/-- A line that spells no other reals gives a finite value. -/
theorem passes_ofInput {line : String} (hline : finite.text line) (type : Scalar) :
    finite.Passes (Value.ofInput line type) finite.value := by
  unfold Value.ofInput
  dsimp only
  cases hread : Value.read? (Text.dropLineBreaks line.toList) type with
  | none => exact id
  | some v =>
    show v.isFinite = true
    cases type with
    | real =>
      obtain ⟨x, -, rfl⟩ := Option.map_eq_some_iff.1 hread
      refine hline x ?_
      unfold Value.ofInput
      dsimp only
      rw [hread]
    | char =>
      simp only [Value.read?] at hread
      split at hread
      · cases hread
        rfl
      · cases hread
    | string =>
      cases hread
      rfl
    | integer | boolean =>
      obtain ⟨_, -, rfl⟩ := Option.map_eq_some_iff.1 hread
      rfl

theorem lawful_finite : finite.Lawful where
  integer _ := rfl
  widened := Real.isFinite_toReal
  initial type := by cases type <;> rfl
  items _ vs := Value.areFinite_iff vs
  unary op _ hv := passes_unary op hv
  binary op _ _ hv hw := passes_apply op hv hw
  input _ type hline := passes_ofInput hline type
  fault := lenient_finite

end Regime

/-! ## Literals of accepted programs -/

namespace Expr

mutual

/-- What stands in an accepted expression is written as a literal. -/
theorem isLiteral_of_sound {v : Names} :
    ∀ e : Expr, e.Sound v → ∀ w ∈ e.literals, w.IsLiteral
  | .literal _ value, h => by
    intro w hw
    rw [List.mem_singleton.1 hw]
    exact h
  | .ident .., _ => fun _ hw => nomatch hw
  | .element _ _ indices, h => isLiteral_of_soundList indices h.2.2
  | .call _ _ arguments, ⟨heading, _, hfit⟩ => isLiteral_of_fit heading.parameters arguments hfit
  | .unary _ _ operand, h => isLiteral_of_sound operand h
  | .binary _ _ left right, ⟨hleft, hright⟩ =>
    List.forall_mem_append.2 ⟨isLiteral_of_sound left hleft, isLiteral_of_sound right hright⟩

theorem isLiteral_of_soundList {v : Names} :
    ∀ es : List Expr, SoundList v es → ∀ w ∈ literalsIn es, w.IsLiteral
  | [], _ => fun _ hw => nomatch hw
  | e :: rest, ⟨he, hrest⟩ =>
    List.forall_mem_append.2 ⟨isLiteral_of_sound e he, isLiteral_of_soundList rest hrest⟩

theorem isLiteral_of_fit {v : Names} (parameters : List Parameter) :
    ∀ arguments : List Argument, Fit v parameters arguments →
      ∀ w ∈ literalsOf arguments, w.IsLiteral
  | [], _ => fun _ hw => nomatch hw
  | .value e :: rest, ⟨_, more, _, hfirst, hrest⟩ =>
    List.forall_mem_append.2 ⟨isLiteral_of_sound e hfirst.2, isLiteral_of_fit more rest hrest⟩
  | .reference .. :: rest, ⟨_, more, _, _, hrest⟩ => isLiteral_of_fit more rest hrest

end

end Expr

/-- The literals of a sound construct and the initial values in it are finite. -/
theorem Construct.isFinite_of_sound {v : Names} {c : Construct} (h : c.Sound v) :
    ∀ w ∈ c.literals, w.isFinite = true := by
  have hliterals {ws : List Value} (hws : ∀ w ∈ ws, w.IsLiteral) : ∀ w ∈ ws, w.isFinite = true :=
    fun w hw => (hws w hw).isFinite
  cases c with
  | declaration d =>
    rw [literals]
    have hinitializer := h.2
    cases hd : d.initializer with
    | computed e =>
      rw [hd] at hinitializer
      exact hliterals (e.isLiteral_of_sound hinitializer.2)
    | fixed value =>
      rw [hd] at hinitializer
      intro w hw
      -- The initial value of a type is finite, whatever the type.
      rw [List.mem_singleton.1 hw, show value = d.type.initial from hinitializer]
      exact Regime.lawful_finite.value_initial d.type
  | assignment target indices value =>
    exact hliterals (List.forall_mem_append.2
      ⟨value.isLiteral_of_sound h.2.2, Expr.isLiteral_of_soundList indices h.2.1⟩)
  | loop scope condition => exact hliterals (condition.isLiteral_of_sound h)
  | conditional scope condition elseIfs last => exact hliterals (condition.isLiteral_of_sound h)
  | elseIf scope condition => exact hliterals (condition.isLiteral_of_sound h)
  | call name arguments =>
    obtain ⟨heading, -, hfit⟩ := h
    exact hliterals (Expr.isLiteral_of_fit heading.parameters arguments hfit)
  | input target indices => exact hliterals (Expr.isLiteral_of_soundList indices h.2)
  | output value => exact hliterals (value.isLiteral_of_sound h)
  | result value =>
    cases value with
    | none => exact List.forall_mem_nil _
    | some value => exact hliterals (value.isLiteral_of_sound h.2)
  | unit | entry | routine | otherwise => exact List.forall_mem_nil _

namespace Program

variable {p : Program} {o : Outline}

/-- No literal of an accepted program offends the regime. -/
theorem Means.suits_finite (h : p.Means o) : Regime.finite.Suits p := by
  refine ⟨fun id c hc => ?_, fun _ _ _ _ _ _ => trivial⟩
  have hfinite (Γ : Env) (c : Construct) (hsound : c.Sound Γ.names) :
      ∀ w ∈ c.literals, w.isFinite = true := Construct.isFinite_of_sound hsound
  have hall : o.forest.All fun c => ∀ w ∈ c.literals, w.isFinite = true :=
    ⟨List.forall_mem_nil _, h.items.all hfinite,
      ⟨List.forall_mem_nil _, h.body.all hfinite, trivial, trivial⟩, trivial⟩
  obtain ⟨node, hnode, rfl⟩ := Option.map_eq_some_iff.1 hc
  refine (Forest.all_iff_nodes none (.chain none none) 0 o.forest).1 hall node ?_
  rw [← h.nodes]
  exact Array.mem_toList_iff.2 (Array.mem_of_getElem? hnode)

/-- In every state of a run of an accepted program, on a console without lines that spell a real
which is not finite, every variable, element and parameter holds finite reals only, and the run
does not fail at a comparison of two numbers. -/
theorem runOn_finite {source : String} (h : ofSource source = .ok p) {lines : List String}
    (hlines : ∀ line ∈ lines, Value.ReadsFinite line) (limit : Option Nat) (steps : Nat) :
    (p.runOn steps (.ofInput lines limit)).2.memory.All (·.isFinite = true) ∧
    ∀ op left right line, left.number?.isSome → right.number?.isSome →
      (p.runOn steps (.ofInput lines limit)).1 ≠
        .error (.error ⟨.typeError (.cannotCompare op left right), line⟩) := by
  obtain ⟨o, hmeans⟩ := ofSource_means h
  have hends := (governs_run Regime.lawful_finite hmeans.suits_finite steps).ends
    Regime.lawful_finite { memory := .empty, console := .ofInput lines limit, steps }
    ⟨Memory.all_empty, hlines⟩
  rw [runOn_eq]
  cases hrun : p.run steps { memory := .empty, console := .ofInput lines limit, steps } with
  | ok a m =>
    rw [hrun] at hends
    exact ⟨hends.2.memory, fun _ _ _ _ _ _ hresult => nomatch hresult⟩
  | error stop m =>
    rw [hrun] at hends
    cases stop with
    | error e =>
      refine ⟨hends.2.memory, fun op left right line hleft hright hresult => ?_⟩
      cases hresult
      exact hends.1 ⟨hleft, hright⟩
    | outOfSteps => exact ⟨hends.memory, fun _ _ _ _ _ _ hresult => nomatch hresult⟩

/-- A real is read and compared. -/
def comparingText : String :=
  "module m; variable real r; beginning input r; output r < 1.5; end m."

theorem exists_comparing : ∃ p, ofSource comparingText = .ok p := by
  have hok : (ofSource comparingText).isOk = true := by decide +kernel
  cases hp : ofSource comparingText with
  | error e =>
    rw [hp] at hok
    cases hok
  | ok p => exact ⟨p, rfl⟩

/-- A program that reads a real and compares it. -/
theorem comparingText_finite : ∃ p, ofSource comparingText = .ok p ∧
    (∀ line ∈ ["-2.5"], Value.ReadsFinite line) ∧
    (p.runOn 50 (.ofInput ["-2.5"] none)).2.memory.All (·.isFinite = true) ∧
    ∀ op left right line, left.number?.isSome → right.number?.isSome →
      (p.runOn 50 (.ofInput ["-2.5"] none)).1 ≠
        .error (.error ⟨.typeError (.cannotCompare op left right), line⟩) := by
  have hlines : ∀ line ∈ ["-2.5"], Value.ReadsFinite line := by
    have hread : (Value.ofInput "-2.5" .real).toOption.all (·.isFinite) = true := by
      decide +kernel
    intro line hline x hx
    rw [List.mem_singleton.1 hline] at hx
    rw [hx] at hread
    exact hread
  obtain ⟨p, hp⟩ := exists_comparing
  exact ⟨p, hp, hlines, runOn_finite hp hlines none 50⟩

/-- The program fails at its comparison. -/
def failsComparing (p : Program) (lines : List String) : Bool :=
  match (p.runOn 50 (.ofInput lines none)).1 with
  | .error (.error ⟨.typeError (.cannotCompare ..), _⟩) => true
  | _ => false

-- a line that spells the value that is no number is stored, and then it cannot be compared
example : (ofSource comparingText).toOption.any (failsComparing · ["NaN"]) = true := by
  decide +kernel

end Program

end Primer
