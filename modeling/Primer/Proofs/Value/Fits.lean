import Primer.Operator.Meaning
import Primer.Proofs.Grammar.Names
import Primer.Variable

/-!
# Primer.Proofs.Value.Fits — values that have exactly the type of their slot.

`Value.Fits` asks for the sizes of a declared type at every position of an array, where the check
at a slot only measures along the first items.  The two agree on regular values, those that fit any
type at all: a regular array has no empty dimension, so its first items show its whole shape.  All
values that a program computes are regular, and what passes a check fits.

`Meets` states this of every function that computes with values, together with the causes that it
may report: none of them is about a name.

A value is regular if it is a scalar, or an array all of whose items are regular and have the same
shape; `Value.Regular` says so without a type.  The lemmas on `Meets` have the same form for every
function, so a chain of functions is followed by `Meets.bind`, and what is known of the value in
front is what the next function asks for.
-/

namespace Primer

/-! ## Checks -/

/-- The cause is a name that means nothing where it is used, or a call that does not fit its
routine. -/
def Fault.IsUnbound : Fault → Prop
  | unknownVariable _ | unknownFunction _ | argumentCountMismatch .. => True
  | typeError _ | expectedBoolean | expectedNumber | expectedArray | indexOutOfBounds .. | overflow
  | divisionByZero | invalidInput .. | io _ => False

/-- What the check lets pass has a property, and what it reports is no unbound name. -/
def Meets {α : Type} (x : Except Fault α) (Q : α → Prop) : Prop :=
  match x with
  | .ok a => Q a
  | .error fault => ¬ fault.IsUnbound

namespace Meets

variable {α β : Type} {x : Except Fault α} {Q Q' : α → Prop}

/-- A function behind another one asks for what the first promises. -/
theorem bind {f : α → Except Fault β} {R : β → Prop} (hx : Meets x Q)
    (hf : ∀ a, Q a → Meets (f a) R) : Meets (x >>= f) R := by
  cases x with
  | ok a => exact hf a hx
  | error fault => exact hx

theorem mono (hx : Meets x Q) (h : ∀ a, Q a → Q' a) : Meets x Q' := by
  cases x with
  | ok a => exact h a hx
  | error fault => exact hx

end Meets

namespace Value

/-- The type of a scalar. -/
def scalar? : Value → Option Scalar
  | integer _ => some .integer
  | real _ => some .real
  | boolean _ => some .boolean
  | char _ => some .char
  | string _ => some .string
  | array .. => none

/-- A scalar of this type, or arrays of exactly these sizes, outermost first, down to such
scalars. -/
def Fits (element : Scalar) : List Nat → Value → Prop
  | [], v => v.scalar? = some element
  | size :: rest, array t items =>
    t = element ∧ items.length = size ∧ ∀ item ∈ items, Fits element rest item
  | _ :: _, integer _ | _ :: _, real _ | _ :: _, boolean _ | _ :: _, char _ | _ :: _, string _ =>
    False

/-- The value fits some type that can be declared. -/
def Regular (v : Value) : Prop :=
  ∃ element sizes, (∀ size ∈ sizes, 0 < size) ∧ v.Fits element sizes

theorem regular_of_scalar {v : Value} {t : Scalar} (h : v.scalar? = some t) : v.Regular :=
  ⟨t, [], by simp, h⟩

/-- The first items show the shape of an array without empty dimensions. -/
theorem shape_eq_of_fits {element : Scalar} {sizes : List Nat} {v : Value}
    (hpos : ∀ size ∈ sizes, 0 < size) (h : v.Fits element sizes) : v.shape = sizes := by
  induction sizes generalizing v with
  | nil => cases v <;> first | rfl | cases h
  | cons size rest ih =>
    cases v with
    | array t items =>
      obtain ⟨-, hlen, hitems⟩ := h
      cases items with
      | nil =>
        have hsize := hpos size List.mem_cons_self
        rw [← hlen] at hsize
        cases hsize
      | cons first others =>
        have hrest : first.shape = rest :=
          ih (fun n hn => hpos n (List.mem_cons_of_mem _ hn)) (hitems first List.mem_cons_self)
        rw [shape, headShape, hrest, hlen]
    | _ => exact h.elim

/-! ## The check at a slot -/

/-- What passes the check at a scalar slot has the type of the slot. -/
theorem meets_coerceScalar (v : Value) (slot : Scalar) :
    Meets (v.coerceScalar slot) (·.scalar? = some slot) := by
  cases slot <;> cases v <;> first | rfl | exact id

end Value

namespace SlotType

/-- The type of the scalars in a slot. -/
def element : SlotType → Scalar
  | scalar t => t
  | array t _ => t

/-- The sizes of the dimensions of a slot, outermost first. -/
def sizes : SlotType → List Nat
  | scalar _ => []
  | array _ dimensions => dimensions

/-- The value fits the declared type. -/
def Holds (type : SlotType) (v : Value) : Prop := v.Fits type.element type.sizes

/-- No dimension of a declared type is empty. -/
theorem Proper.sizes_pos {type : SlotType} (h : type.Proper) : ∀ size ∈ type.sizes, 0 < size := by
  cases type with
  | scalar t => exact fun _ hn => absurd hn List.not_mem_nil
  | array t dimensions => exact h.2

/-- What a slot of a declared type holds is regular. -/
theorem Holds.regular {type : SlotType} {v : Value} (h : type.Holds v) (hproper : type.Proper) :
    v.Regular :=
  ⟨type.element, type.sizes, hproper.sizes_pos, h⟩

end SlotType

/-- A regular value that passes the check at a slot fits it. -/
theorem Value.Regular.meets_coerce {v : Value} (hv : v.Regular) (type : SlotType) :
    Meets (v.coerce type) type.Holds := by
  cases type with
  | scalar t => exact v.meets_coerceScalar t
  | array t dimensions =>
    cases v with
    | array t' items =>
      rw [coerce]
      split
      · rename_i hcheck
        obtain ⟨rfl, hshape⟩ := hcheck
        obtain ⟨element, sizes, hpos, hfits⟩ := hv
        have hsizes : sizes = dimensions := (shape_eq_of_fits hpos hfits).symm.trans hshape
        subst hsizes
        cases sizes with
        | nil => cases hfits
        | cons size rest =>
          obtain ⟨rfl, hrest⟩ := hfits
          exact ⟨rfl, hrest⟩
      · exact id
    | _ => exact id

/-! ## Elements of arrays -/

namespace Grid

variable {g : Grid} {element : Scalar} {sizes : List Nat} {v : Value}

/-- Whether an index is in range is all that a position may report. -/
theorem meets_position (index : Integer) (size : Nat) :
    Meets (position index size) fun _ => True := by
  unfold position
  split
  · trivial
  · exact id

/-- An item that is looked up is an item of the array. -/
theorem meets_get (g : Grid) (index : Integer) : Meets (g.get index) (· ∈ g.items) :=
  (meets_position index g.items.length).bind fun i _ => List.get_mem g.items i

/-- Replacing an item by one that fits keeps the sizes. -/
theorem meets_set (index : Integer) {size : Nat} {inner : List Nat}
    (hg : g.toValue.Fits element (size :: inner)) (hv : v.Fits element inner) :
    Meets (g.set index v) (·.toValue.Fits element (size :: inner)) := by
  refine (meets_position index g.items.length).bind fun i _ => ?_
  obtain ⟨ht, hlen, hitems⟩ := hg
  refine ⟨ht, (List.length_set ..).trans hlen, fun item hmem => ?_⟩
  rcases List.mem_or_eq_of_mem_set hmem with hmem | rfl
  · exact hitems item hmem
  · exact hv

/-- An array is one as a value, too. -/
theorem meets_asGrid (v : Value) : Meets v.asGrid (·.toValue = v) := by
  cases v <;> first | rfl | exact id

/-- What the indices address fits the sizes that are left. -/
theorem meets_elementAt (hg : g.toValue.Fits element sizes) (path : List Integer) :
    Meets (g.elementAt path) (·.Fits element (sizes.drop path.length)) := by
  induction path generalizing g sizes with
  | nil => exact id
  | cons index rest ih =>
    cases sizes with
    | nil => cases hg
    | cons size inner =>
      obtain ⟨-, -, hitems⟩ := hg
      refine (g.meets_get index).bind fun slot hmem => ?_
      have hslot : slot.Fits element inner := hitems slot hmem
      cases rest with
      | nil => exact hslot
      | cons next more =>
        refine (meets_asGrid slot).bind fun row hrow => ?_
        exact ih (hrow ▸ hslot)

/-- The type that is asked of a value in the place of another one is that of the old value. -/
theorem holds_slotType {old : Value} (hpos : ∀ size ∈ sizes, 0 < size)
    (hold : old.Fits element sizes) (h : (slotType element old).Holds v) :
    v.Fits element sizes := by
  cases sizes with
  | nil => cases old <;> first | exact h | cases hold
  | cons size inner =>
    cases old with
    | array t items =>
      rw [SlotType.Holds, slotType, Value.shape_eq_of_fits hpos hold] at h
      exact h
    | _ => exact hold.elim

/-- A store keeps all sizes, also those of the rows that it does not touch. -/
theorem meets_store (hpos : ∀ size ∈ sizes, 0 < size) (hg : g.toValue.Fits element sizes)
    (hv : v.Regular) (path : List Integer) :
    Meets (g.store path v) (·.toValue.Fits element sizes) := by
  induction path generalizing g sizes with
  | nil => exact id
  | cons index rest ih =>
    cases sizes with
    | nil => cases hg
    | cons size inner =>
      have hinner : ∀ n ∈ inner, 0 < n := fun n hn => hpos n (List.mem_cons_of_mem _ hn)
      refine (g.meets_get index).bind fun slot hmem => ?_
      have hslot : slot.Fits element inner := hg.2.2 slot hmem
      cases rest with
      | nil =>
        refine (hv.meets_coerce _).bind fun w hw => ?_
        rw [hg.1] at hw
        exact meets_set index hg (holds_slotType hinner hslot hw)
      | cons next more =>
        refine (meets_asGrid slot).bind fun row hrow => ?_
        refine (ih hinner (hrow ▸ hslot)).bind fun stored hstored => ?_
        exact meets_set index hg hstored

/-- A fresh array has the sizes that were asked for. -/
theorem fits_fresh (hne : sizes ≠ []) : (fresh element sizes).toValue.Fits element sizes := by
  induction sizes with
  | nil => exact absurd rfl hne
  | cons size inner ih =>
    cases inner with
    | nil =>
      refine ⟨rfl, List.length_replicate, fun item hmem => ?_⟩
      rw [List.eq_of_mem_replicate hmem]
      cases element <;> rfl
    | cons next more =>
      refine ⟨rfl, List.length_replicate, fun item hmem => ?_⟩
      rw [List.eq_of_mem_replicate hmem]
      exact ih (by simp)

end Grid

/-- A fresh slot fits its type. -/
theorem SlotType.Proper.holds_initial {type : SlotType} (h : type.Proper) :
    type.Holds type.initial := by
  cases type with
  | scalar t => cases t <;> rfl
  | array t dimensions => exact Grid.fits_fresh h.1

/-! ## Conversions and operators -/

/-- The value is a scalar. -/
def Value.IsScalar (v : Value) : Prop := ∃ t, v.scalar? = some t

/-- A scalar has no items, so nothing in it could be uneven. -/
theorem Value.IsScalar.regular {v : Value} (h : v.IsScalar) : v.Regular :=
  regular_of_scalar h.choose_spec

/-- Nothing but scalars can be written as literals. -/
theorem Value.IsLiteral.isScalar {v : Value} (h : v.IsLiteral) : v.IsScalar := by
  cases v with
  | array => exact h.elim
  | _ => exact ⟨_, rfl⟩

theorem Value.meets_asInteger (v : Value) : Meets v.asInteger fun _ => True := by
  cases v with
  | real x =>
    rw [asInteger]
    split
    · exact id
    · rename_i b _
      cases Integer.ofInt? b.whole <;> first | trivial | exact id
  | string s =>
    rw [asInteger]
    cases Integer.read? (Text.trim s.toList) <;> first | trivial | exact id
  | _ => first | trivial | exact id

theorem Value.meets_expectBoolean (v : Value) : Meets v.expectBoolean fun _ => True := by
  cases v <;> first | trivial | exact id

/-- What is read for a type is a scalar of the type. -/
theorem Value.scalar?_of_read {cs : List Char} {expected : Scalar} {v : Value}
    (h : read? cs expected = some v) : v.scalar? = some expected := by
  cases expected with
  | char =>
    simp only [read?] at h
    split at h
    · cases h
      rfl
    · cases h
  | string =>
    cases h
    rfl
  | _ =>
    obtain ⟨n, -, rfl⟩ := Option.map_eq_some_iff.1 h
    rfl

/-- A line of input is converted to a value of the expected type. -/
theorem Value.meets_ofInput (line : String) (expected : Scalar) :
    Meets (Value.ofInput line expected) (SlotType.scalar expected).Holds := by
  simp only [ofInput]
  split
  · rename_i v hread
    exact scalar?_of_read hread
  · exact id

theorem Integer.meets_orOverflow (result : Option Integer) :
    Meets (Integer.orOverflow result) Value.IsScalar := by
  cases result with
  | none => exact id
  | some n => exact ⟨.integer, rfl⟩

theorem Real.meets_orOverflow (x : Float) : Meets (Real.orOverflow x) Value.IsScalar := by
  unfold Real.orOverflow
  split
  · exact ⟨.real, rfl⟩
  · exact id

namespace BinaryOp

variable {op : BinaryOp} {result : Except Fault Value}

/-- An operation on integers gives a scalar, or reports an overflow or a division by zero. -/
theorem meets_onIntegers {a b : Integer} (h : op.onIntegers? a b = some result) :
    Meets result Value.IsScalar := by
  cases op with
  | divide =>
    cases h
    split
    · exact id
    · exact Integer.meets_orOverflow _
  | add | subtract | multiply =>
    cases h
    exact Integer.meets_orOverflow _
  | _ => cases h

/-- An operation on reals gives a scalar, or reports that the result is no finite number. -/
theorem meets_onReals {x y : Float} (h : op.onReals? x y = some result) :
    Meets result Value.IsScalar := by
  cases op with
  | divide =>
    cases h
    split
    · exact id
    · exact Real.meets_orOverflow _
  | add | subtract | multiply =>
    cases h
    exact Real.meets_orOverflow _
  | _ => cases h

theorem meets_onTexts {s t : String} (h : op.onTexts? s t = some result) :
    Meets result Value.IsScalar := by
  cases op with
  | add =>
    cases h
    exact ⟨.string, rfl⟩
  | _ => cases h

/-- Arithmetic gives scalars, whatever it is applied to. -/
theorem meets_arithmetic (op : BinaryOp) (left right : Value) :
    Meets (op.arithmetic left right) Value.IsScalar := by
  unfold arithmetic
  cases h : op.arithmetic? left right with
  | none => exact id
  | some result =>
    unfold arithmetic? at h
    split at h
    · exact meets_onIntegers h
    · split at h
      · exact meets_onReals h
      · split at h
        · exact meets_onTexts h
        · cases h

theorem meets_comparison (op : BinaryOp) (left right : Value) :
    Meets (op.comparison left right) Value.IsScalar := by
  unfold comparison
  split
  · exact ⟨.boolean, rfl⟩
  · split
    · exact ⟨.boolean, rfl⟩
    · split
      · exact ⟨.boolean, rfl⟩
      · exact id

theorem meets_logic (op : BinaryOp) (left right : Value) :
    Meets (op.logic left right) Value.IsScalar := by
  refine left.meets_expectBoolean.bind fun a _ => ?_
  refine right.meets_expectBoolean.bind fun b _ => ?_
  cases op with
  | and | or => exact ⟨.boolean, rfl⟩
  | _ => exact id

/-- Every operator gives a scalar. -/
theorem meets_apply (op : BinaryOp) (left right : Value) :
    Meets (op.apply left right) Value.IsScalar := by
  cases op with
  | add | subtract | multiply | divide => exact meets_arithmetic _ left right
  | less | greater | lessEqual | greaterEqual | equal | notEqual =>
    exact meets_comparison _ left right
  | and => exact meets_logic .and left right
  | or => exact meets_logic .or left right

end BinaryOp

theorem UnaryOp.meets_apply (op : UnaryOp) (v : Value) : Meets (op.apply v) Value.IsScalar := by
  cases op with
  | negate =>
    cases v with
    | integer n => exact Integer.meets_orOverflow _
    | real x => exact ⟨.real, rfl⟩
    | _ => exact id
  | not => cases v <;> first | exact ⟨.boolean, rfl⟩ | exact id

end Primer
