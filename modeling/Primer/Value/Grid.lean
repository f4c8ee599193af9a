import Primer.Value.Convert

/-!
# Primer.Value.Grid — arrays and their elements.

A grid is the content of an array value.  Its elements are addressed by one index per dimension,
counted from zero; fewer indices address a whole row.  Every operation returns a new grid, so a
write to one row never shows in another.
-/

namespace Primer

/-- An array: the type of its scalars and the items of its outermost dimension. -/
structure Grid where
  element : Scalar
  items : List Value

namespace Grid

/-- The array as a value. -/
def toValue (g : Grid) : Value := .array g.element g.items

/-- The sizes of the dimensions, outermost first. -/
def shape (g : Grid) : List Nat := g.toValue.shape

/-- The items of a fresh array.  The sizes are listed outermost first, and every slot starts as a
copy of the fresh array of the sizes after its own, or of the initial scalar. -/
def freshItems (element : Scalar) : List Nat → List Value
  | [] => []
  | [size] => List.replicate size (Value.initial element)
  | size :: rest => List.replicate size (.array element (freshItems element rest))

/-- The initial array of a declaration. -/
def fresh (element : Scalar) (dimensions : List Nat) : Grid :=
  ⟨element, freshItems element dimensions⟩

end Grid

/-- The array that a value is. -/
def Value.asGrid : Value → Except Fault Grid
  | .array element items => .ok ⟨element, items⟩
  | _ => .error .expectedArray

namespace Grid

/-- The position that an index addresses in a dimension of this size. -/
def position (index : Integer) (size : Nat) : Except Fault (Fin size) :=
  match h : index.position? size with
  | some i => .ok ⟨i, (Integer.position?_eq_some_iff.1 h).2⟩
  | none => .error (.indexOutOfBounds size index)

/-- The item at an index of the outermost dimension. -/
def get (g : Grid) (index : Integer) : Except Fault Value := do
  let i ← position index g.items.length
  return g.items.get i

/-- Replaces the item at an index of the outermost dimension, unchecked against the others. -/
def set (g : Grid) (index : Integer) (v : Value) : Except Fault Grid := do
  let i ← position index g.items.length
  return { g with items := g.items.set i v }

/-! ## One dimension -/

theorem position_eq_ok_iff {index : Integer} {size : Nat} {i : Fin size} :
    position index size = .ok i ↔ index.val = i.val := by
  unfold position
  split
  · rename_i j h
    have hj := (Integer.position?_eq_some_iff.1 h).1
    simp only [Except.ok.injEq, Fin.ext_iff]
    omega
  · rename_i h
    have hn := Integer.position?_eq_none_iff.1 h
    have hi := i.isLt
    simp only [reduceCtorEq, false_iff]
    omega

theorem get_eq_ok_iff {g : Grid} {index : Integer} {v : Value} :
    g.get index = .ok v ↔ ∃ i : Nat, index.val = i ∧ g.items[i]? = some v := by
  unfold get
  cases h : position index g.items.length with
  | ok i =>
    have hi := position_eq_ok_iff.1 h
    simp only [bind, Except.bind, pure, Except.pure, Except.ok.injEq]
    constructor
    · rintro rfl
      exact ⟨i, hi, by simp⟩
    · rintro ⟨j, hj, hv⟩
      have hij : i.val = j := by omega
      subst hij
      simpa using hv
  | error e =>
    simp only [bind, Except.bind, reduceCtorEq, false_iff]
    rintro ⟨j, hj, hv⟩
    have hlt : j < g.items.length := (List.getElem?_eq_some_iff.1 hv).1
    have hok := position_eq_ok_iff (i := ⟨j, hlt⟩) |>.2 hj
    rw [h] at hok
    cases hok

theorem set_eq_ok_iff {g g' : Grid} {index : Integer} {v : Value} :
    g.set index v = .ok g' ↔
      ∃ i : Nat, index.val = i ∧ i < g.items.length ∧ g' = { g with items := g.items.set i v } := by
  unfold set
  cases h : position index g.items.length with
  | ok i =>
    have hi := position_eq_ok_iff.1 h
    simp only [bind, Except.bind, pure, Except.pure, Except.ok.injEq]
    constructor
    · rintro rfl
      exact ⟨i, hi, i.isLt, rfl⟩
    · rintro ⟨j, hj, _, rfl⟩
      have hij : i.val = j := by omega
      rw [hij]
  | error e =>
    simp only [bind, Except.bind, reduceCtorEq, false_iff]
    rintro ⟨j, hj, hlt, _⟩
    have hok := position_eq_ok_iff (i := ⟨j, hlt⟩) |>.2 hj
    rw [h] at hok
    cases hok

/-! ## All dimensions -/

/-- Follows one index per dimension, outermost first. -/
def elementAt (g : Grid) : List Integer → Except Fault Value
  | [] => .error .expectedArray
  | index :: rest => do
    let slot ← g.get index
    if rest.isEmpty then return slot
    else (← slot.asGrid).elementAt rest

/-- The type that a value must fit to take the place of `old` in an array of these elements: that
of a row of the same sizes, or the element type. -/
def slotType (element : Scalar) (old : Value) : SlotType :=
  match old with
  | .array .. => .array element old.shape
  | _ => .scalar element

/-- Replaces what the indices address by a value that fits there. -/
def store (g : Grid) : List Integer → Value → Except Fault Grid
  | [], _ => .error .expectedArray
  | index :: rest, v => do
    let slot ← g.get index
    if rest.isEmpty then
      g.set index (← v.coerce (slotType g.element slot))
    else
      g.set index (← (← slot.asGrid).store rest v).toValue

end Grid

end Primer
