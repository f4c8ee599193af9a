import Primer.Proofs.Run.View
import Primer.Proofs.Value.Fits

/-!
# Primer.Proofs.Run.Parts — parts of values, read and replaced.

A path of indices leads into a value (`Value.partAt`), and a store replaces what it leads to
(`Memory.stored`).  Whether a path leads anywhere is decided by the sizes of the value alone: the
first index out of range is reported, then a path that goes on behind a scalar.  A store along a
path that leads somewhere fails only if the part refuses the new value, and it changes nothing
beside the path.

* `outside?` — the first index out of range, which both `Value.partAt` and `stored` report.
* `Replaces` — what a store that succeeds has done, seen from every path.
* `Grid.storeInPlace` — a store that writes into the grid; a refused one has written nothing.
* `Grid.InUse` — a grid that is made fresh and stored into, and keeps its sizes all the time.

Values and types are followed at the same time: the type of a part is that of the whole with as many
dimensions taken off (`SlotType.ofSizes`).  Reading and storing have the same lemmas, one for a
scalar, one for an item, one for an index out of range, and from these one for whole paths by
induction on the path.

Main statement: `Grid.store_laws`.
-/

namespace Primer

open Memory (stored)

/-! ## Indices and sizes -/

/-- The index addresses one of so many items. -/
def Integer.Addresses (index : Integer) (size : Nat) : Prop := 0 ≤ index.val ∧ index.val < size

instance (index : Integer) (size : Nat) : Decidable (index.Addresses size) :=
  inferInstanceAs (Decidable (_ ∧ _))

/-- Every index addresses an item of its dimension; indices without a dimension do not count. -/
def InRange (path : List Integer) (sizes : List Nat) : Prop :=
  ∀ p ∈ path.zip sizes, p.1.Addresses p.2

instance (path : List Integer) (sizes : List Nat) : Decidable (InRange path sizes) :=
  inferInstanceAs (Decidable (∀ p ∈ path.zip sizes, _))

/-- The first index that is out of range, with the size of its dimension. -/
def outside? (path : List Integer) (sizes : List Nat) : Option (Integer × Nat) :=
  (path.zip sizes).find? fun p => !decide (p.1.Addresses p.2)

section

variable {index : Integer} {rest : List Integer} {size : Nat} {inner : List Nat}

/-- No index is out of range if all of them are in range. -/
theorem outside?_eq_none_iff {path : List Integer} {sizes : List Nat} :
    outside? path sizes = none ↔ InRange path sizes := by
  simp [outside?, InRange]

/-- A path is in range index by index. -/
@[simp]
theorem inRange_cons :
    InRange (index :: rest) (size :: inner) ↔ index.Addresses size ∧ InRange rest inner := by
  simp [InRange]

/-- Behind an index in range the search goes on. -/
theorem outside?_cons_of_addresses (h : index.Addresses size) :
    outside? (index :: rest) (size :: inner) = outside? rest inner := by
  simp [outside?, h]

/-- The first index out of range is the one that is found. -/
theorem outside?_cons_of_not_addresses (h : ¬ index.Addresses size) :
    outside? (index :: rest) (size :: inner) = some (index, size) := by
  simp [outside?, h]

end

/-! ## Types of parts -/

namespace SlotType

/-- The type with these sizes: without any, that of a scalar. -/
def ofSizes (element : Scalar) : List Nat → SlotType
  | [] => scalar element
  | size :: inner => array element (size :: inner)

/-- A declared type is determined by its element type and its sizes. -/
theorem Proper.eq_ofSizes {type : SlotType} (h : type.Proper) :
    ofSizes type.element type.sizes = type := by
  cases type with
  | scalar t => rfl
  | array t dimensions =>
    cases dimensions with
    | nil => exact absurd rfl h.1
    | cons size inner => rfl

/-- A slot with these sizes holds the values that fit them. -/
theorem holds_ofSizes_iff {element : Scalar} {sizes : List Nat} {v : Value} :
    (ofSizes element sizes).Holds v ↔ v.Fits element sizes := by
  cases sizes <;> rfl

/-- What a slot of this type takes, and how. -/
theorem coerce_ofSizes_eq_ok_iff {element : Scalar} {sizes : List Nat} {v w : Value} :
    v.coerce (ofSizes element sizes) = .ok w ↔
      sizes = [] ∧ v.coerceScalar element = .ok w ∨
        sizes ≠ [] ∧ (∃ items, v = .array element items) ∧ v.shape = sizes ∧ w = v := by
  cases sizes with
  | nil => simp [ofSizes, Value.coerce]
  | cons size inner =>
    cases v with
    | array t items => grind [ofSizes, Value.coerce]
    | _ => simp [ofSizes, Value.coerce]

/-- The check at a slot refuses a value for one reason only. -/
theorem coerce_eq_error {type : SlotType} {v : Value} {fault : Fault}
    (h : v.coerce type = .error fault) : fault = .typeError (.cannotStore v type) := by
  cases type with
  | scalar t => cases t <;> cases v <;> cases h <;> rfl
  | array t dimensions =>
    cases v with
    | array t' items =>
      rw [Value.coerce] at h
      split at h
      · cases h
      · cases h
        rfl
    | _ =>
      cases h
      rfl

/-- A part of a declared type has the sizes that are left. -/
theorem Proper.indexed?_of_le {type : SlotType} (h : type.Proper) {depth : Nat}
    (hle : depth ≤ type.sizes.length) :
    type.indexed? depth = some (ofSizes type.element (type.sizes.drop depth)) := by
  cases type with
  | scalar t =>
    obtain rfl := Nat.le_zero.1 hle
    rfl
  | array t dimensions =>
    show (if depth < dimensions.length then _ else if depth = dimensions.length then _ else _) =
      some (ofSizes t (dimensions.drop depth))
    split
    · rename_i hlt
      -- a dimension is left, so the part is an array
      obtain ⟨size, inner, hdrop⟩ := List.exists_cons_of_ne_nil
        (show dimensions.drop depth ≠ [] by simpa using hlt)
      rw [hdrop, ofSizes]
    · rename_i hlt
      have hdepth : depth = dimensions.length := Nat.le_antisymm hle (Nat.le_of_not_lt hlt)
      simp [hdepth, ofSizes]

/-- More indices than dimensions lead to no type. -/
theorem indexed?_of_lt {type : SlotType} {depth : Nat} (hlt : type.sizes.length < depth) :
    type.indexed? depth = none := by
  cases type with
  | scalar t =>
    cases depth with
    | zero => cases hlt
    | succ depth => rfl
  | array t dimensions =>
    have hlt' : dimensions.length < depth := hlt
    simp only [indexed?]
    rw [if_neg (by omega), if_neg (by omega)]

end SlotType

namespace Grid

variable {g : Grid} {index : Integer} {size : Nat}

/-- An index out of range is reported with the size that it misses. -/
theorem position_of_not_addresses (h : ¬ index.Addresses size) :
    position index size = .error (.indexOutOfBounds size index) := by
  unfold position
  split
  · rename_i i hi
    obtain ⟨hval, hlt⟩ := Integer.position?_eq_some_iff.1 hi
    exact absurd ⟨by omega, by omega⟩ h
  · rfl

theorem get_of_not_addresses (h : ¬ index.Addresses g.items.length) :
    g.get index = .error (.indexOutOfBounds g.items.length index) := by
  rw [get, position_of_not_addresses h]
  rfl

end Grid

namespace Value

/-! ## Reading -/

/-- What a path leads to in a value. -/
def partAt (v : Value) (path : List Integer) : Except Fault Value :=
  if path.isEmpty then .ok v else do (← v.asGrid).elementAt path

@[simp]
theorem partAt_nil (v : Value) : v.partAt [] = .ok v := rfl

variable {element : Scalar} {items : List Value} {slot v : Value} {index : Integer}
  {rest path : List Integer} {size i : Nat} {inner sizes : List Nat}

theorem partAt_scalar (h : v.scalar? = some element) :
    v.partAt (index :: rest) = .error .expectedArray := by
  cases v <;> first | rfl | cases h

/-- The part of an array along an index is a part of the item. -/
theorem partAt_cons (hi : index.val = i) (hslot : items[i]? = some slot) :
    (array element items).partAt (index :: rest) = slot.partAt rest := by
  show (Grid.mk element items).elementAt (index :: rest) = _
  rw [Grid.elementAt, Grid.get_eq_ok_iff.2 ⟨i, hi, hslot⟩]
  rfl

/-- An index out of range is reported where it is met. -/
theorem partAt_cons_of_not_addresses (h : ¬ index.Addresses items.length) :
    (array element items).partAt (index :: rest) =
      .error (.indexOutOfBounds items.length index) := by
  show (Grid.mk element items).elementAt (index :: rest) = _
  have hget := Grid.get_of_not_addresses (g := ⟨element, items⟩) h
  rw [Grid.elementAt, hget]
  rfl

/-- An array that fits its sizes, seen from an index in range. -/
theorem Fits.exists_item (h : v.Fits element (size :: inner)) (hindex : index.Addresses size) :
    ∃ items i slot, v = array element items ∧ index.val = (i : Nat) ∧ items[i]? = some slot ∧
      slot.Fits element inner := by
  cases v with
  | array t items =>
    obtain ⟨rfl, hlen, hitems⟩ := h
    obtain ⟨hlower, hupper⟩ := hindex
    have hlt : index.val.toNat < items.length := by omega
    exact ⟨items, index.val.toNat, items[index.val.toNat], rfl, by omega,
      List.getElem?_eq_getElem hlt, hitems _ (List.getElem_mem hlt)⟩
  | _ => exact h.elim

/-- A value with a dimension is an array of that many items. -/
theorem Fits.exists_items (h : v.Fits element (size :: inner)) :
    ∃ items, v = array element items ∧ items.length = size := by
  cases v with
  | array t items =>
    obtain ⟨rfl, hlen, -⟩ := h
    exact ⟨items, rfl, hlen⟩
  | _ => exact h.elim

/-- A path with an index out of range is answered with the first of these. -/
theorem partAt_of_outside (hv : v.Fits element sizes)
    (h : outside? path sizes = some (index, size)) :
    v.partAt path = .error (.indexOutOfBounds size index) := by
  -- an index in range leads into an item, which has the sizes that are left
  induction path generalizing v sizes with
  | nil => cases h
  | cons first rest ih =>
    cases sizes with
    | nil => cases h
    | cons outer inner =>
      by_cases hfirst : first.Addresses outer
      · obtain ⟨items, i, slot, rfl, hi, hslot, hfits⟩ := hv.exists_item hfirst
        rw [outside?_cons_of_addresses hfirst] at h
        rw [partAt_cons hi hslot]
        exact ih hfits h
      · obtain ⟨items, rfl, rfl⟩ := hv.exists_items
        rw [outside?_cons_of_not_addresses hfirst] at h
        cases h
        exact partAt_cons_of_not_addresses hfirst

/-- A path that is too long is answered with the fault of indexing a scalar. -/
theorem partAt_of_length_lt (hv : v.Fits element sizes) (h : InRange path sizes)
    (hlt : sizes.length < path.length) : v.partAt path = .error .expectedArray := by
  induction path generalizing v sizes with
  | nil => cases hlt
  | cons first rest ih =>
    cases sizes with
    | nil => exact partAt_scalar hv
    | cons outer inner =>
      obtain ⟨hfirst, hrest⟩ := inRange_cons.1 h
      obtain ⟨items, i, slot, rfl, hi, hslot, hfits⟩ := hv.exists_item hfirst
      rw [partAt_cons hi hslot]
      exact ih hfits hrest (Nat.lt_of_succ_lt_succ hlt)

/-- Any other path leads to a part, and to one of the right type. -/
theorem exists_partAt (hv : v.Fits element sizes) (h : InRange path sizes)
    (hle : path.length ≤ sizes.length) :
    ∃ w, v.partAt path = .ok w ∧ w.Fits element (sizes.drop path.length) := by
  induction path generalizing v sizes with
  | nil => exact ⟨v, rfl, hv⟩
  | cons first rest ih =>
    cases sizes with
    | nil => cases hle
    | cons outer inner =>
      obtain ⟨hfirst, hrest⟩ := inRange_cons.1 h
      obtain ⟨items, i, slot, rfl, hi, hslot, hfits⟩ := hv.exists_item hfirst
      rw [partAt_cons hi hslot]
      exact ih hfits hrest (Nat.le_of_succ_le_succ hle)

end Value

/-! ## Storing -/

namespace Grid

/-- The type that is asked of a value in the place of another one is that of the other one. -/
theorem slotType_eq_ofSizes {element : Scalar} {sizes : List Nat} {old : Value}
    (hpos : ∀ size ∈ sizes, 0 < size) (hold : old.Fits element sizes) :
    slotType element old = .ofSizes element sizes := by
  cases sizes with
  | nil => cases old <;> first | rfl | cases hold
  | cons size inner =>
    obtain ⟨items, rfl, -⟩ := hold.exists_items
    rw [slotType, Value.shape_eq_of_fits hpos hold, SlotType.ofSizes]

/-- A store goes into the item at the first index. -/
theorem store_cons (g : Grid) (index : Integer) (rest : List Integer) (v : Value) :
    g.store (index :: rest) v =
      g.get index >>= fun slot => stored (slotType g.element slot) slot rest v >>= g.set index := by
  rw [store]
  cases g.get index with
  | error fault => rfl
  | ok slot =>
    cases rest with
    | nil => rfl
    | cons next more =>
      show (slot.asGrid >>= fun row => row.store (next :: more) v >>= fun new =>
          g.set index new.toValue) =
        (slot.asGrid >>= fun row => row.store (next :: more) v >>= fun new =>
          pure new.toValue) >>= g.set index
      simp

end Grid

section

variable {type : SlotType} {element : Scalar} {items : List Value} {slot old v w : Value}
  {index : Integer} {rest path : List Integer} {size i : Nat} {inner sizes : List Nat}

theorem stored_scalar (h : old.scalar? = some element) :
    stored type old (index :: rest) v = .error .expectedArray := by
  cases old <;> first | rfl | cases h

/-- A store into an array is one into the item, put back into its place. -/
theorem stored_cons (hi : index.val = i) (hslot : items[i]? = some slot) :
    stored type (.array element items) (index :: rest) v =
      (stored (Grid.slotType element slot) slot rest v).map fun new =>
        .array element (items.set i new) := by
  have hlt : i < items.length := (List.getElem?_eq_some_iff.1 hslot).1
  have hget : (Grid.mk element items).get index = .ok slot := Grid.get_eq_ok_iff.2 ⟨i, hi, hslot⟩
  have hset (new : Value) :
      (Grid.mk element items).set index new = .ok ⟨element, items.set i new⟩ :=
    Grid.set_eq_ok_iff.2 ⟨i, hi, hlt, rfl⟩
  -- the item is there, so that only the store into it can fail
  show (do return (← (Grid.mk element items).store (index :: rest) v).toValue) = _
  rw [Grid.store_cons, hget]
  show (stored (Grid.slotType element slot) slot rest v >>= (Grid.mk element items).set index) >>=
    (fun g => pure g.toValue) = _
  cases stored (Grid.slotType element slot) slot rest v with
  | error fault => rfl
  | ok new =>
    show (do return (← (Grid.mk element items).set index new).toValue) = _
    rw [hset]
    rfl

/-- An index out of range is reported where it is met. -/
theorem stored_cons_of_not_addresses (h : ¬ index.Addresses items.length) :
    stored type (.array element items) (index :: rest) v =
      .error (.indexOutOfBounds items.length index) := by
  have hget := Grid.get_of_not_addresses (g := ⟨element, items⟩) h
  show (do return (← (Grid.mk element items).store (index :: rest) v).toValue) = _
  rw [Grid.store_cons, hget]
  rfl

/-- A store along a path with an index out of range reports the first of these. -/
theorem stored_of_outside (hold : old.Fits element sizes)
    (h : outside? path sizes = some (index, size)) :
    stored type old path v = .error (.indexOutOfBounds size index) := by
  induction path generalizing type old sizes with
  | nil => cases h
  | cons first rest ih =>
    cases sizes with
    | nil => cases h
    | cons outer inner =>
      by_cases hfirst : first.Addresses outer
      · obtain ⟨items, i, slot, rfl, hi, hslot, hfits⟩ := hold.exists_item hfirst
        rw [outside?_cons_of_addresses hfirst] at h
        rw [stored_cons hi hslot, ih hfits h]
        rfl
      · obtain ⟨items, rfl, rfl⟩ := hold.exists_items
        rw [outside?_cons_of_not_addresses hfirst] at h
        cases h
        exact stored_cons_of_not_addresses hfirst

/-- A store along a path that is too long reports the fault of indexing a scalar. -/
theorem stored_of_length_lt (hold : old.Fits element sizes) (h : InRange path sizes)
    (hlt : sizes.length < path.length) : stored type old path v = .error .expectedArray := by
  induction path generalizing type old sizes with
  | nil => cases hlt
  | cons first rest ih =>
    cases sizes with
    | nil => exact stored_scalar hold
    | cons outer inner =>
      obtain ⟨hfirst, hrest⟩ := inRange_cons.1 h
      obtain ⟨items, i, slot, rfl, hi, hslot, hfits⟩ := hold.exists_item hfirst
      rw [stored_cons hi hslot, ih hfits hrest (Nat.lt_of_succ_lt_succ hlt)]
      rfl

/-- A part that refuses the value is what a store along a path in range can fail at. -/
theorem stored_of_coerce_eq_error {fault : Fault} (hpos : ∀ size ∈ sizes, 0 < size)
    (hold : old.Fits element sizes) (h : InRange path sizes) (hle : path.length ≤ sizes.length)
    (hv : v.coerce (.ofSizes element (sizes.drop path.length)) = .error fault) :
    stored (.ofSizes element sizes) old path v = .error fault := by
  induction path generalizing old sizes with
  | nil => exact hv
  | cons first rest ih =>
    cases sizes with
    | nil => cases hle
    | cons outer inner =>
      obtain ⟨hfirst, hrest⟩ := inRange_cons.1 h
      obtain ⟨items, i, slot, rfl, hi, hslot, hfits⟩ := hold.exists_item hfirst
      have hinner : ∀ n ∈ inner, 0 < n := fun n hn => hpos n (List.mem_cons_of_mem _ hn)
      rw [stored_cons hi hslot, Grid.slotType_eq_ofSizes hinner hfits,
        ih hinner hfits hrest (Nat.le_of_succ_le_succ hle) hv]
      rfl

/-- Behind the path of a store is the new part, and beside it everything is as it was. -/
def Replaces (old : Value) (path : List Integer) (w new : Value) : Prop :=
  (∀ more, new.partAt (path ++ more) = w.partAt more) ∧
    ∀ other, ¬ path <+: other → ¬ other <+: path → new.partAt other = old.partAt other

/-- Replacing a part of an item replaces the part of the array. -/
theorem Replaces.cons {new : Value} (h : Replaces slot rest w new) (hi : index.val = i)
    (hslot : items[i]? = some slot) :
    Replaces (.array element items) (index :: rest) w (.array element (items.set i new)) := by
  obtain ⟨hbehind, hbeside⟩ := h
  have hlt : i < items.length := (List.getElem?_eq_some_iff.1 hslot).1
  have hnew : (items.set i new)[i]? = some new := List.getElem?_set_self hlt
  refine ⟨fun more => ?_, fun other hother hpath => ?_⟩
  · rw [List.cons_append, Value.partAt_cons hi hnew]
    exact hbehind more
  · cases other with
    | nil => exact absurd List.nil_prefix hpath
    | cons first others =>
      by_cases hfirst : first = index
      · -- the paths part further inside
        subst hfirst
        rw [Value.partAt_cons hi hnew, Value.partAt_cons hi hslot]
        rw [List.cons_prefix_cons] at hother hpath
        exact hbeside others (fun hp => hother ⟨rfl, hp⟩) fun hp => hpath ⟨rfl, hp⟩
      · -- they lead into different items, or the other one leads nowhere
        by_cases haddresses : first.Addresses items.length
        · obtain ⟨hlower, hupper⟩ := haddresses
          obtain ⟨j, hj⟩ := Int.eq_ofNat_of_zero_le hlower
          have hjlt : j < items.length := by omega
          have hne : i ≠ j := fun hij => hfirst (Integer.ext (by omega))
          have hitem : (items.set i new)[j]? = some items[j] := by
            rw [List.getElem?_set_ne hne, List.getElem?_eq_getElem hjlt]
          rw [Value.partAt_cons hj hitem, Value.partAt_cons hj (List.getElem?_eq_getElem hjlt)]
        · have hlength : (items.set i new).length = items.length := List.length_set
          rw [Value.partAt_cons_of_not_addresses (by rwa [hlength]),
            Value.partAt_cons_of_not_addresses haddresses, hlength]

/-- A value that the part takes is stored there. -/
theorem exists_stored (hpos : ∀ size ∈ sizes, 0 < size) (hold : old.Fits element sizes)
    (h : InRange path sizes) (hle : path.length ≤ sizes.length)
    (hv : v.coerce (.ofSizes element (sizes.drop path.length)) = .ok w) :
    ∃ new, stored (.ofSizes element sizes) old path v = .ok new ∧ Replaces old path w new := by
  induction path generalizing old sizes with
  | nil =>
    refine ⟨w, hv, fun more => rfl, fun other hother _ => ?_⟩
    exact absurd List.nil_prefix hother
  | cons first rest ih =>
    cases sizes with
    | nil => cases hle
    | cons outer inner =>
      obtain ⟨hfirst, hrest⟩ := inRange_cons.1 h
      obtain ⟨items, i, slot, rfl, hi, hslot, hfits⟩ := hold.exists_item hfirst
      have hinner : ∀ n ∈ inner, 0 < n := fun n hn => hpos n (List.mem_cons_of_mem _ hn)
      obtain ⟨new, hnew, hreplaces⟩ := ih hinner hfits hrest (Nat.le_of_succ_le_succ hle) hv
      rw [stored_cons hi hslot, Grid.slotType_eq_ofSizes hinner hfits, hnew]
      exact ⟨_, rfl, hreplaces.cons hi hslot⟩

/-- A store that succeeds went along a path in range, to a part that took the value. -/
theorem replaces_of_stored {new : Value} (hpos : ∀ size ∈ sizes, 0 < size)
    (hold : old.Fits element sizes) (h : stored (.ofSizes element sizes) old path v = .ok new) :
    path.length ≤ sizes.length ∧ ∃ w,
      v.coerce (.ofSizes element (sizes.drop path.length)) = .ok w ∧ Replaces old path w new := by
  have hrange : InRange path sizes := by
    rw [← outside?_eq_none_iff]
    cases hout : outside? path sizes with
    | none => rfl
    | some outside =>
      rw [stored_of_outside hold hout] at h
      cases h
  have hle : path.length ≤ sizes.length := by
    apply Nat.le_of_not_lt
    intro hlt
    rw [stored_of_length_lt hold hrange hlt] at h
    cases h
  refine ⟨hle, ?_⟩
  cases hv : v.coerce (.ofSizes element (sizes.drop path.length)) with
  | error fault =>
    rw [stored_of_coerce_eq_error hpos hold hrange hle hv] at h
    cases h
  | ok w =>
    obtain ⟨new', hnew, hreplaces⟩ := exists_stored hpos hold hrange hle hv
    rw [h] at hnew
    cases hnew
    exact ⟨w, rfl, hreplaces⟩

end

/-! ## Stores in place

A store answers a new grid or none.  Here it is made in the grid itself, item by item, and whatever
was written before a fault would stay.  Nothing was: every fault comes before the one write. -/

namespace Grid

/-- Changes the item at an index in place; what the change leaves there stays, also if it fails. -/
def inItem (index : Integer) (change : EStateM Fault Value Unit) : EStateM Fault Grid Unit :=
  fun g =>
    match position index g.items.length with
    | .error fault => .error fault g
    | .ok i =>
      match change (g.items.get i) with
      | .ok _ v => .ok () { g with items := g.items.set i v }
      | .error fault v => .error fault { g with items := g.items.set i v }

/-- Replaces what the indices address in place. -/
def storeInPlace : List Integer → Value → EStateM Fault Grid Unit
  | [], _ => fun g => .error .expectedArray g
  | index :: rest, v => fun g => inItem index (fun slot =>
      if rest.isEmpty then
        match v.coerce (slotType g.element slot) with
        | .ok new => .ok () new
        | .error fault => .error fault slot
      else
        match slot with
        | .array element items =>
          match storeInPlace rest v ⟨element, items⟩ with
          | .ok _ row => .ok () row.toValue
          | .error fault row => .error fault row.toValue
        | _ => .error .expectedArray slot) g

/-- A change that puts back what it found, when it fails, leaves the grid as it was. -/
theorem inItem_eq {g : Grid} {index : Integer} {change : EStateM Fault Value Unit}
    (answer : Value → Except Fault Value)
    (h : ∀ slot, change slot = match answer slot with
      | .ok new => .ok () new
      | .error fault => .error fault slot) :
    inItem index change g = match g.get index >>= fun slot => answer slot >>= g.set index with
      | .ok g' => .ok () g'
      | .error fault => .error fault g := by
  unfold inItem get set
  cases position index g.items.length with
  | error fault => rfl
  | ok i =>
    dsimp only
    rw [h]
    cases hanswer : answer (g.items.get i) with
    | ok new =>
      simp only [bind, Except.bind, pure, Except.pure]
      rw [hanswer]
    | error fault =>
      simp only [bind, Except.bind, pure, Except.pure]
      rw [hanswer]
      dsimp only
      -- the item that is written is the one that was there
      rw [List.get_eq_getElem, List.set_getElem_self]

/-- A store in place ends like the store, and if it is refused the grid is as it was. -/
theorem storeInPlace_eq (g : Grid) (path : List Integer) (v : Value) :
    storeInPlace path v g = match g.store path v with
      | .ok g' => .ok () g'
      | .error fault => .error fault g := by
  induction path generalizing g with
  | nil => rfl
  | cons index rest ih =>
    rw [store_cons, storeInPlace]
    refine inItem_eq (fun slot => stored (slotType g.element slot) slot rest v) fun slot => ?_
    cases rest with
    | nil => rfl
    | cons next more =>
      cases slot with
      | array element items =>
        show (match storeInPlace (next :: more) v ⟨element, items⟩ with
          | .ok _ row => _
          | .error fault row => _) = match (do return (← store _ (next :: more) v).toValue) with
            | .ok new => _
            | .error fault => _
        rw [ih]
        cases store ⟨element, items⟩ (next :: more) v <;> rfl
      | _ => rfl

end Grid

/-! ## Grids in use -/

namespace Grid

mutual

/-- A scalar, or a grid in use. -/
inductive Storable : Value → Prop
  | scalar {v : Value} (h : v.IsScalar) : Storable v
  | grid {element : Scalar} {sizes : List Nat} {g : Grid} (h : InUse element sizes g) :
      Storable g.toValue

/-- The grid comes from a fresh one of these sizes by stores of storable values. -/
inductive InUse : Scalar → List Nat → Grid → Prop
  | fresh {element : Scalar} {sizes : List Nat} (hne : sizes ≠ [])
      (hpos : ∀ size ∈ sizes, 0 < size) :
      InUse element sizes (fresh element sizes)
  | store {element : Scalar} {sizes : List Nat} {g g' : Grid} {path : List Integer} {v : Value}
      (hg : InUse element sizes g) (hv : Storable v) (h : g.store path v = .ok g') :
      InUse element sizes g'

end

/-- What is known of a grid in use. -/
structure Settled (element : Scalar) (sizes : List Nat) (g : Grid) : Prop where
  ne_nil : sizes ≠ []
  pos : ∀ size ∈ sizes, 0 < size
  fits : g.toValue.Fits element sizes

mutual

theorem Storable.regular {v : Value} : Storable v → v.Regular
  | .scalar h => h.regular
  | .grid h => ⟨_, _, h.settled.pos, h.settled.fits⟩

theorem InUse.settled {element : Scalar} {sizes : List Nat} {g : Grid} :
    InUse element sizes g → Settled element sizes g
  | .fresh hne hpos => ⟨hne, hpos, fits_fresh hne⟩
  | @InUse.store _ _ _ _ path _ hg hv h => by
    obtain ⟨hne, hpos, hfits⟩ := hg.settled
    have hmeets := meets_store hpos hfits hv.regular path
    rw [h] at hmeets
    exact ⟨hne, hpos, hmeets⟩

end

variable {element : Scalar} {sizes : List Nat} {g : Grid} {path : List Integer} {v w : Value}

/-- To look an element up is to follow the path. -/
theorem elementAt_eq_partAt (hne : path ≠ []) : g.elementAt path = g.toValue.partAt path := by
  simp [Value.partAt, hne, toValue, Value.asGrid, bind, Except.bind]

/-- A store into a grid is one into the array as a value. -/
theorem stored_toValue {type : SlotType} (hne : path ≠ []) :
    stored type g.toValue path v = (g.store path v).map toValue := by
  simp only [stored, List.isEmpty_iff, hne, if_false, toValue, Value.asGrid, bind, Except.bind]
  cases g.store path v <;> rfl

/-- The value as the part behind a path holds it: converted to a scalar at the end of all
dimensions, unchanged before. -/
def Fitted (element : Scalar) (sizes : List Nat) (path : List Integer) (v w : Value) : Prop :=
  path.length = sizes.length ∧ v.coerceScalar element = .ok w ∨
    path.length < sizes.length ∧ (∃ items, v = .array element items) ∧
      v.shape = sizes.drop path.length ∧ w = v

/-- A store is accepted along a path that leads to a scalar or a row, if the value fits there. -/
def Accepts (element : Scalar) (sizes : List Nat) (path : List Integer) (v : Value) : Prop :=
  1 ≤ path.length ∧ path.length ≤ sizes.length ∧ InRange path sizes ∧
    ∃ w, Fitted element sizes path v w

/-- Why a store is refused. -/
def refusal (element : Scalar) (sizes : List Nat) (path : List Integer) (v : Value) : Fault :=
  match outside? path sizes with
  | some (index, size) => .indexOutOfBounds size index
  | none =>
    if path = [] ∨ sizes.length < path.length then .expectedArray
    else .typeError (.cannotStore v (.ofSizes element (sizes.drop path.length)))

/-- What is stored is what passes the check at the part. -/
theorem fitted_iff_coerce (hle : path.length ≤ sizes.length) :
    Fitted element sizes path v w ↔
      v.coerce (.ofSizes element (sizes.drop path.length)) = .ok w := by
  rw [SlotType.coerce_ofSizes_eq_ok_iff, Fitted, ne_eq, List.drop_eq_nil_iff, Nat.not_le]
  apply or_congr
  · apply and_congr_left
    intro _
    omega
  · rfl

/-- A store that is not accepted reports the reason that comes first. -/
theorem store_of_refused (hg : Settled element sizes g) (h : ¬ Accepts element sizes path v) :
    g.store path v = .error (refusal element sizes path v) := by
  -- all that is known of a store is said of values
  have hstored (hne : path ≠ []) {fault : Fault}
      (hs : stored (.ofSizes element sizes) g.toValue path v = .error fault) :
      g.store path v = .error fault := by
    rw [stored_toValue hne] at hs
    cases hstore : g.store path v <;> rw [hstore] at hs <;> cases hs
    rfl
  unfold refusal
  cases hout : outside? path sizes with
  | some outside =>
    have hne : path ≠ [] := fun hnil => by
      rw [hnil] at hout
      cases hout
    exact hstored hne (stored_of_outside hg.fits hout)
  | none =>
    have hrange := outside?_eq_none_iff.1 hout
    show g.store path v = .error (if path = [] ∨ sizes.length < path.length then _ else _)
    split
    · -- no index, or one behind a scalar
      rename_i hlength
      by_cases hne : path = []
      · rw [hne]
        rfl
      · exact hstored hne (stored_of_length_lt hg.fits hrange (hlength.resolve_left hne))
    · rename_i hlength
      obtain ⟨hne, hle⟩ := not_or.1 hlength
      have hle := Nat.le_of_not_lt hle
      cases hv : v.coerce (.ofSizes element (sizes.drop path.length)) with
      | error fault =>
        rw [hstored hne (stored_of_coerce_eq_error hg.pos hg.fits hrange hle hv),
          SlotType.coerce_eq_error hv]
      | ok w =>
        exact absurd ⟨List.length_pos_iff.2 hne, hle, hrange, w, (fitted_iff_coerce hle).2 hv⟩ h

/-- A store that is accepted replaces the part that the path leads to. -/
theorem exists_store (hg : Settled element sizes g) (h : Accepts element sizes path v) :
    ∃ g' w, g.store path v = .ok g' ∧ Fitted element sizes path v w ∧
      Replaces g.toValue path w g'.toValue := by
  obtain ⟨hpos, hle, hrange, w, hw⟩ := h
  have hv := (fitted_iff_coerce hle).1 hw
  obtain ⟨new, hnew, hreplaces⟩ := exists_stored hg.pos hg.fits hrange hle hv
  rw [stored_toValue (List.length_pos_iff.1 hpos)] at hnew
  cases hstore : g.store path v with
  | error fault =>
    rw [hstore] at hnew
    cases hnew
  | ok g' =>
    rw [hstore] at hnew
    cases hnew
    exact ⟨g', w, rfl, hw, hreplaces⟩

/-- The laws of reading and storing.  A grid in use keeps its sizes.  A store succeeds exactly if it
is accepted; else it reports why, and made in place it leaves the grid as it was.  Behind the path
of a store that succeeds is the new part, and beside it nothing has changed. -/
theorem store_laws (hg : InUse element sizes g) :
    g.element = element ∧ g.shape = sizes ∧ ∀ (path : List Integer) (v : Value),
      ((∃ g', g.store path v = .ok g') ↔ Accepts element sizes path v) ∧
      (∀ fault, g.store path v = .error fault → fault = refusal element sizes path v ∧
        storeInPlace path v g = .error fault g) ∧
      ∀ g', g.store path v = .ok g' → storeInPlace path v g = .ok () g' ∧
        ∃ w, Fitted element sizes path v w ∧
          (∀ more, g'.elementAt (path ++ more) = w.partAt more) ∧
          ∀ other, ¬ path <+: other → ¬ other <+: path →
            g'.elementAt other = g.elementAt other := by
  have hsettled := hg.settled
  refine ⟨?_, Value.shape_eq_of_fits hsettled.pos hsettled.fits, fun path v => ?_⟩
  · obtain ⟨size, inner, hsizes⟩ := List.exists_cons_of_ne_nil hsettled.ne_nil
    have hfits := hsettled.fits
    rw [hsizes] at hfits
    exact hfits.1
  by_cases haccepts : Accepts element sizes path v
  · obtain ⟨g', w, hstore, hw, hbehind, hbeside⟩ := exists_store hsettled haccepts
    have hne : path ≠ [] := List.length_pos_iff.1 haccepts.1
    rw [storeInPlace_eq, hstore]
    refine ⟨iff_of_true ⟨g', rfl⟩ haccepts, fun _ h => (nomatch h), fun _ h => ?_⟩
    cases h
    refine ⟨rfl, w, hw, fun more => ?_, fun other hother hpath => ?_⟩
    · rw [elementAt_eq_partAt (List.append_ne_nil_of_left_ne_nil hne more)]
      exact hbehind more
    · have hother' : other ≠ [] := fun hnil => hpath (hnil ▸ List.nil_prefix)
      rw [elementAt_eq_partAt hother', elementAt_eq_partAt hother']
      exact hbeside other hother hpath
  · rw [storeInPlace_eq, store_of_refused hsettled haccepts]
    refine ⟨iff_of_false ?_ haccepts, fun _ h => ?_, fun _ h => (nomatch h)⟩
    · rintro ⟨_, h⟩
      cases h
    · cases h
      exact ⟨rfl, rfl⟩

/-- A row of a fresh matrix takes another row. -/
theorem store_laws_row :
    InUse .integer [2, 3] (fresh .integer [2, 3]) ∧ Storable (fresh .integer [3]).toValue ∧
      ∃ g', (fresh .integer [2, 3]).store [.zero] (fresh .integer [3]).toValue = .ok g' := by
  have hg : InUse .integer [2, 3] (fresh .integer [2, 3]) := .fresh (by decide) (by decide)
  refine ⟨hg, .grid (.fresh (by decide) (by decide)), ((store_laws hg).2.2 _ _).1.2 ?_⟩
  exact ⟨by decide, by decide, by decide, _, .inr ⟨by decide, ⟨_, rfl⟩, rfl, rfl⟩⟩

end Grid

end Primer
