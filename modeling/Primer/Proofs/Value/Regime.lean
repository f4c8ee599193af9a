import Primer.Evaluation
import Primer.Variable

/-!
# Primer.Proofs.Value.Regime — values that are held to something.

A regime says what is asked of the values in storage, of the lines that are read and of the faults
that a run may end with.  It is lawful if the operations on single values respect it: then so do the
checks at slots, the look-ups in arrays and the stores into them.

The functions of `Value` and `Grid` give a value or a fault, and `Passes` says of both that they
respect the regime.  For a lawful regime every such function passes; the proofs never look at what
the regime is, and use only that it is lawful.  Two regimes are used later: that of finite values,
and the one that asks for nothing.
-/

namespace Primer

/-- What a run is held to. -/
structure Regime where
  /-- A variable, an element or a parameter may hold the value. -/
  value : Value → Prop
  /-- The console may answer with the line. -/
  text : String → Prop
  /-- A run may fail with the fault. -/
  fault : Fault → Prop
  /-- A statement at the line may write the value of the expression, when calls do this. -/
  writes : Calls → Expr → Nat → Prop

/-- The cause is a comparison of values that have no order. -/
def Fault.IsComparison : Fault → Prop
  | typeError (.cannotCompare ..) => True
  | _ => False

namespace Regime

variable {R : Regime} {α β : Type} {x : Except Fault α} {Q : α → Prop}

/-- What the check lets pass has a property, and what it reports is a fault of the regime. -/
def Passes (R : Regime) (x : Except Fault α) (Q : α → Prop) : Prop :=
  match x with
  | .ok a => Q a
  | .error fault => R.fault fault

namespace Passes

theorem bind {f : α → Except Fault β} {S : β → Prop} (hx : R.Passes x Q)
    (hf : ∀ a, Q a → R.Passes (f a) S) : R.Passes (x >>= f) S := by
  cases x with
  | ok a => exact hf a hx
  | error fault => exact hx

/-- Something done to the value of a function that cannot fail. -/
theorem map {f : α → β} {S : β → Prop} (hx : R.Passes x Q) (hf : ∀ a, Q a → S (f a)) :
    R.Passes (x.map f) S := by
  cases x with
  | ok a => exact hf a hx
  | error fault => exact hx

end Passes

/-- Only comparisons are restricted: every other fault is allowed. -/
def Lenient (R : Regime) : Prop := ∀ fault : Fault, ¬ fault.IsComparison → R.fault fault

theorem Lenient.passes_expectBoolean (h : R.Lenient) (v : Value) :
    R.Passes v.expectBoolean fun _ => True := by
  cases v with
  | boolean b => trivial
  | _ => exact h _ id

/-- The operations on single values respect the regime: what they make of values of the regime are
values of the regime, and they fail as the regime allows. -/
structure Lawful (R : Regime) : Prop where
  integer : ∀ n, R.value (.integer n)
  widened : ∀ n : Integer, R.value (.real n.toReal)
  initial : ∀ type, R.value (.initial type)
  items : ∀ type vs, R.value (.array type vs) ↔ ∀ v ∈ vs, R.value v
  unary : ∀ (op : UnaryOp) v, R.value v → R.Passes (op.apply v) R.value
  binary : ∀ (op : BinaryOp) v w, R.value v → R.value w → R.Passes (op.apply v w) R.value
  input : ∀ line type, R.text line → R.Passes (Value.ofInput line type) R.value
  fault : R.Lenient

namespace Lawful

variable (hR : R.Lawful) {v : Value}
include hR

/-! ## Conversions -/

/-- A value that passes the check at a slot is the value, or its integer as a real. -/
theorem passes_coerceScalar (hv : R.value v) (slot : Scalar) :
    R.Passes (v.coerceScalar slot) R.value := by
  unfold Value.coerceScalar
  split
  · exact hv
  · exact hv
  · exact hv
  · exact hv
  · exact hv
  · exact hR.widened _
  · exact hR.fault _ id

theorem passes_coerce (hv : R.value v) (slot : SlotType) : R.Passes (v.coerce slot) R.value := by
  unfold Value.coerce
  cases slot with
  | scalar type => exact hR.passes_coerceScalar hv type
  | array element dimensions =>
    dsimp only
    split
    · split
      · exact hv
      · exact hR.fault _ id
    · exact hR.fault _ id

theorem passes_asInteger (v : Value) : R.Passes v.asInteger fun _ => True := by
  cases v with
  | real x =>
    rw [Value.asInteger]
    split
    · exact hR.fault _ id
    · rename_i b _
      cases Integer.ofInt? b.whole with
      | none => exact hR.fault _ id
      | some n => trivial
  | string s =>
    rw [Value.asInteger]
    cases Integer.read? (Text.trim s.toList) with
    | none => exact hR.fault _ id
    | some n => trivial
  | array element items => exact hR.fault _ id
  | _ => trivial

/-! ## Arrays -/

/-- The items of an array that respects the regime respect it. -/
theorem passes_asGrid (hv : R.value v) : R.Passes v.asGrid fun g => R.value g.toValue := by
  cases v with
  | array element items => exact hv
  | _ => exact hR.fault _ id

variable {g : Grid} (hg : R.value g.toValue)

theorem passes_position (index : Integer) (size : Nat) :
    R.Passes (Grid.position index size) fun _ => True := by
  unfold Grid.position
  split
  · trivial
  · exact hR.fault _ id

include hg

/-- An item that is looked up respects the regime. -/
theorem passes_get (index : Integer) : R.Passes (g.get index) R.value :=
  (hR.passes_position index g.items.length).bind fun i _ =>
    (hR.items g.element g.items).1 hg _ (List.get_mem g.items i)

theorem passes_set (index : Integer) (hv : R.value v) :
    R.Passes (g.set index v) fun g' => R.value g'.toValue := by
  refine (hR.passes_position index g.items.length).bind fun i _ => ?_
  refine (hR.items g.element (g.items.set i v)).2 fun item hitem => ?_
  rcases List.mem_or_eq_of_mem_set hitem with hitem | rfl
  · exact (hR.items g.element g.items).1 hg item hitem
  · exact hv

/-- What the indices address is held to the regime like the array itself. -/
theorem passes_elementAt (path : List Integer) : R.Passes (g.elementAt path) R.value := by
  induction path generalizing g with
  | nil => exact hR.fault _ id
  | cons index rest ih =>
    refine (hR.passes_get hg index).bind fun slot hslot => ?_
    cases rest with
    | nil => exact hslot
    | cons next more =>
      refine (hR.passes_asGrid hslot).bind fun row hrow => ?_
      exact ih hrow

/-- An array in which a value of the regime is stored. -/
theorem passes_store (hv : R.value v) (path : List Integer) :
    R.Passes (g.store path v) fun g' => R.value g'.toValue := by
  induction path generalizing g with
  | nil => exact hR.fault _ id
  | cons index rest ih =>
    refine (hR.passes_get hg index).bind fun slot hslot => ?_
    cases rest with
    | nil =>
      refine (hR.passes_coerce hv _).bind fun w hw => ?_
      exact hR.passes_set hg index hw
    | cons next more =>
      refine (hR.passes_asGrid hslot).bind fun row hrow => ?_
      refine (ih hrow).bind fun stored hstored => ?_
      exact hR.passes_set hg index hstored

omit hg

theorem value_freshItems (element : Scalar) (sizes : List Nat) :
    ∀ v ∈ Grid.freshItems element sizes, R.value v := by
  induction sizes with
  | nil =>
    intro v hv
    cases hv
  | cons size rest ih =>
    cases rest with
    | nil =>
      intro v hv
      rw [List.eq_of_mem_replicate hv]
      exact hR.initial element
    | cons next more =>
      intro v hv
      rw [List.eq_of_mem_replicate hv]
      exact (hR.items element _).2 ih

/-- A fresh slot is held to the regime. -/
theorem value_initial (type : SlotType) : R.value type.initial := by
  cases type with
  | scalar type => exact hR.initial type
  | array element sizes => exact (hR.items element _).2 (hR.value_freshItems element sizes)

end Lawful

end Regime

end Primer
