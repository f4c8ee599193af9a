import Primer.Proofs.Real.Finite
import Primer.Proofs.Run.Parts

/-!
# Primer.Proofs.Value.Equality — two arrays are equal if their elements are.

Whole arrays are compared position by position, element type included, and single elements by the
comparison of the language.  For elements of one type the two agree (`Value.equal_scalars_iff`): of
two texts, two truth values and two integers only one is equal to another, and of reals both zeros
are while the value that is no number is equal to none.  So two arrays of one element type are equal
if and only if they have the same sizes and the comparison finds their elements equal, one by one;
arrays of different element types never are.  Main statement: `Grid.comparison_equal_iff`.

An array is compared as a value with items that may be arrays again, so the lemmas go along the
nesting of items: `equalItems_iff` for one row, `Fits.equal_iff` for a whole array whose sizes are
known.  `Value.LeavesEqual` says of two nested values that elements at the same position are found
equal.  What arrays a program can have is `Grid.Obtained`: fresh ones, and those that a store has
left behind.
-/

namespace Primer

/-! ## Elements of one type -/

/-- The order of two reals is that they are equal exactly if the comparison of doubles says so. -/
theorem Real.order?_eq_some_eq_iff (x y : Float) : order? x y = some .eq ↔ (x == y) = true := by
  unfold order?
  by_cases hbeq : (x == y) = true
  · have hlt : ¬ x < y := by
      rw [lt_iff, (beq_iff x y).1 hbeq]
      simp
    simp [hlt, hbeq]
  · split
    · simp [hbeq]
    · split <;> simp [hbeq]

namespace Value

variable {a b : Value} {t u : Scalar} {sizes sizes' : List Nat}

/-- The comparison finds the two values equal. -/
def FoundEqual (a b : Value) : Prop := BinaryOp.equal.comparison a b = .ok (.boolean true)

/-- Where two values are in an order, they are found equal if it is the equal one. -/
theorem foundEqual_of_order {o : Ordering} (h : a.order? b = some o) :
    a.FoundEqual b ↔ o = .eq := by
  cases o <;> simp [FoundEqual, BinaryOp.comparison, h, BinaryOp.holds]

/-- Two scalars of one type are found equal if they are. -/
theorem equal_scalars_iff (ha : a.scalar? = some t) (hb : b.scalar? = some t) :
    a.equal b = true ↔ a.FoundEqual b := by
  cases a <;> cases ha <;> cases b <;> cases hb
  case integer n m =>
    have horder : (integer n).order? (integer m) = some (n.order m) := rfl
    rw [foundEqual_of_order horder, Integer.order, Std.compare_eq_iff_eq, equal, decide_eq_true_iff]
    exact ⟨congrArg _, Integer.ext⟩
  case real x y =>
    rw [equal, ← Real.order?_eq_some_eq_iff]
    have hreals : (real x).order? (real y) = Real.order? x y := rfl
    cases horder : Real.order? x y with
    | none => simp [FoundEqual, BinaryOp.comparison, hreals, horder, BinaryOp.equalityOnly]
    | some o => rw [foundEqual_of_order (hreals.trans horder), Option.some.injEq]
  case boolean p q =>
    simp [FoundEqual, BinaryOp.comparison, order?, number?, characters?, BinaryOp.equalityOnly]
  case char c d =>
    have horder : (char c).order? (char d) = some (compare c d) := rfl
    rw [foundEqual_of_order horder, Std.compare_eq_iff_eq, equal, beq_iff_eq]
  case string s s' =>
    have horder : (string s).order? (string s') = some (compare s s') := rfl
    rw [foundEqual_of_order horder, Std.compare_eq_iff_eq, equal, beq_iff_eq]

/-- A scalar equals no value of another type. -/
theorem equal_eq_false_of_ne (ha : a.scalar? = some t) (h : b.scalar? ≠ some t) :
    a.equal b = false := by
  cases a <;> cases ha <;> cases b <;> first | rfl | exact absurd rfl h

/-! ## Elements of arrays -/

/-- The scalar at these positions, one for each dimension. -/
def leafAt? : List Nat → Value → Option Value
  | [], v => v.scalar?.map fun _ => v
  | i :: rest, array _ items => items[i]?.bind (leafAt? rest)
  | _ :: _, integer _ | _ :: _, real _ | _ :: _, boolean _ | _ :: _, char _ | _ :: _, string _ =>
    none

/-- The comparison finds all elements of the two values equal that stand at the same positions. -/
def LeavesEqual (a b : Value) : Prop :=
  ∀ path x y, a.leafAt? path = some x → b.leafAt? path = some y → x.FoundEqual y

/-- The only element of a scalar is the scalar. -/
theorem leavesEqual_scalars_iff (ha : a.scalar? = some t) (hb : b.scalar? = some u) :
    a.LeavesEqual b ↔ a.FoundEqual b := by
  constructor
  · intro h
    exact h [] a b (by simp [leafAt?, ha]) (by simp [leafAt?, hb])
  · intro h path x y hx hy
    cases path with
    | nil =>
      simp only [leafAt?, ha, hb, Option.map_some, Option.some.injEq] at hx hy
      rwa [← hx, ← hy]
    | cons i rest =>
      cases a with
      | array t' items => cases ha
      | _ => cases hx

/-- The elements of an array are those of its items. -/
theorem leavesEqual_arrays_iff {xs ys : List Value} :
    (array t xs).LeavesEqual (array u ys) ↔
      ∀ (i : Nat) x y, xs[i]? = some x → ys[i]? = some y → x.LeavesEqual y := by
  constructor
  · intro h i x y hx hy path v w hv hw
    exact h (i :: path) v w (by simp [leafAt?, hx, hv]) (by simp [leafAt?, hy, hw])
  · intro h path v w hv hw
    cases path with
    | nil => cases hv
    | cons i rest =>
      obtain ⟨x, hx, hv⟩ := Option.bind_eq_some_iff.1 hv
      obtain ⟨y, hy, hw⟩ := Option.bind_eq_some_iff.1 hw
      exact h i x y hx hy rest v w hv hw

/-- Rows of items are equal if they have the same length and equal items in the same places. -/
theorem equalItems_iff (xs ys : List Value) :
    equalItems xs ys = true ↔ xs.length = ys.length ∧
      ∀ (i : Nat) x y, xs[i]? = some x → ys[i]? = some y → x.equal y = true := by
  induction xs generalizing ys with
  | nil => cases ys <;> simp [equalItems]
  | cons x xs ih =>
    cases ys with
    | nil => simp [equalItems]
    | cons y ys =>
      rw [equalItems, Bool.and_eq_true, ih, List.length_cons, List.length_cons,
        Nat.add_right_cancel_iff]
      constructor
      · rintro ⟨hxy, hlength, hrest⟩
        refine ⟨hlength, fun i v w hv hw => ?_⟩
        cases i with
        | zero =>
          cases hv
          cases hw
          exact hxy
        | succ i => exact hrest i v w hv hw
      · rintro ⟨hlength, hall⟩
        exact ⟨hall 0 x y rfl rfl, hlength, fun i v w hv hw => hall (i + 1) v w hv hw⟩

/-- Values that fit their types are equal if they have the same element type, the same sizes and
equal elements. -/
theorem Fits.equal_iff (hpos : ∀ size ∈ sizes, 0 < size) (ha : a.Fits t sizes)
    (hb : b.Fits u sizes') :
    a.equal b = true ↔ t = u ∧ sizes = sizes' ∧ a.LeavesEqual b := by
  induction sizes generalizing a b sizes' with
  | nil =>
    cases sizes' with
    | nil =>
      by_cases htu : t = u
      · subst htu
        rw [equal_scalars_iff ha hb, leavesEqual_scalars_iff ha hb]
        simp
      · have hne : b.scalar? ≠ some t := by
          rw [show b.scalar? = some u from hb]
          simpa using Ne.symm htu
        simp [equal_eq_false_of_ne ha hne, htu]
    | cons size inner =>
      obtain ⟨items, rfl, -⟩ := hb.exists_items
      simp [equal_eq_false_of_ne ha (b := array u items) (by simp [scalar?])]
  | cons size inner ih =>
    have hinner : ∀ n ∈ inner, 0 < n := fun n hn => hpos n (List.mem_cons_of_mem _ hn)
    cases a with
    | array t' xs =>
      obtain ⟨rfl, rfl, hxs⟩ := ha
      cases sizes' with
      | nil =>
        cases b with
        | array u' ys => cases hb
        | _ => simp [equal]
      | cons size' inner' =>
        obtain ⟨ys, rfl, rfl⟩ := hb.exists_items
        rw [equal, Bool.and_eq_true, decide_eq_true_iff, equalItems_iff, leavesEqual_arrays_iff,
          List.cons.injEq]
        have hitem {i : Nat} {x y : Value} (hx : xs[i]? = some x) (hy : ys[i]? = some y) :=
          ih hinner (hxs x (List.mem_of_getElem? hx)) (hb.2.2 y (List.mem_of_getElem? hy))
        constructor
        · rintro ⟨rfl, hlength, hall⟩
          -- the first items tell that the rows have the same sizes
          have hlt : 0 < ys.length := hlength ▸ hpos xs.length List.mem_cons_self
          have hx := List.getElem?_eq_getElem (hlength ▸ hlt : 0 < xs.length)
          have hy := List.getElem?_eq_getElem hlt
          obtain ⟨-, hsizes, -⟩ := (hitem hx hy).1 (hall 0 _ _ hx hy)
          exact ⟨rfl, ⟨hlength, hsizes⟩, fun i x y hx hy =>
            ((hitem hx hy).1 (hall i x y hx hy)).2.2⟩
        · rintro ⟨htu, ⟨hlength, hsizes⟩, hall⟩
          exact ⟨htu, hlength, fun i x y hx hy => (hitem hx hy).2 ⟨htu, hsizes, hall i x y hx hy⟩⟩
    | _ => exact ha.elim

/-- The array without items, which has no sizes to compare behind the first. -/
theorem equal_empty_iff {ys : List Value} :
    (array t []).equal (array u ys) = true ↔
      t = u ∧ (array t []).shape = (array u ys).shape ∧ (array t []).LeavesEqual (array u ys) := by
  rw [leavesEqual_arrays_iff]
  cases ys <;> simp [equal, equalItems, shape, headShape]

end Value

/-! ## Arrays in use -/

namespace Grid

/-- The array comes from a fresh one without empty dimensions by stores that succeed.  Without any
dimension it has no items, and no store succeeds. -/
inductive Obtained : Grid → Prop
  | empty (element : Scalar) : Obtained (fresh element [])
  | inUse {element : Scalar} {sizes : List Nat} {g : Grid} (h : InUse element sizes g) : Obtained g

variable {g h : Grid}

/-- An array that a program can have fits its own shape. -/
theorem Obtained.fits (hg : g.Obtained) : g.toValue.Fits g.element g.shape := by
  cases hg with
  | empty element => exact ⟨rfl, rfl, fun _ hitem => absurd hitem List.not_mem_nil⟩
  | @inUse element sizes g hg =>
    have hsettled := hg.settled
    rw [shape, Value.shape_eq_of_fits hsettled.pos hsettled.fits]
    obtain ⟨size, inner, rfl⟩ := List.exists_cons_of_ne_nil hsettled.ne_nil
    have hfits := hsettled.fits
    rwa [hfits.1]

/-- Two arrays are the same value, in the sense of the derived comparison, if they agree in element
type, in shape, and in their elements. -/
theorem Obtained.equal_iff (hg : g.Obtained) (hh : h.Obtained) :
    g.toValue.equal h.toValue = true ↔
      g.element = h.element ∧ g.shape = h.shape ∧ g.toValue.LeavesEqual h.toValue := by
  cases hg with
  | empty element => exact Value.equal_empty_iff
  | inUse hg =>
    have hsettled := hg.settled
    have hpos : ∀ size ∈ g.shape, 0 < size := by
      rw [shape, Value.shape_eq_of_fits hsettled.pos hsettled.fits]
      exact hsettled.pos
    exact (Obtained.inUse hg).fits.equal_iff hpos hh.fits

/-- Arrays can be compared for equality, whatever their elements are.  They are found equal exactly
if they have the same element type, the same sizes and elements that are found equal; else they are
found unequal. -/
theorem comparison_equal_iff (hg : g.Obtained) (hh : h.Obtained) :
    ∃ same : Bool,
      BinaryOp.equal.comparison g.toValue h.toValue = .ok (.boolean same) ∧
      BinaryOp.notEqual.comparison g.toValue h.toValue = .ok (.boolean !same) ∧
      (same = true ↔
        g.element = h.element ∧ g.shape = h.shape ∧ g.toValue.LeavesEqual h.toValue) := by
  exact ⟨g.toValue.equal h.toValue, rfl, rfl, hg.equal_iff hh⟩

/-- A fresh matrix, and one in which an element was stored. -/
theorem comparison_equal_iff_stored :
    ∃ g h : Grid, Obtained g ∧ Obtained h ∧ (fresh .integer [2, 2]).store [.zero, .zero]
        (.integer ⟨7, by decide, by decide⟩) = .ok h ∧
      ∃ same : Bool,
        BinaryOp.equal.comparison g.toValue h.toValue = .ok (.boolean same) ∧
        BinaryOp.notEqual.comparison g.toValue h.toValue = .ok (.boolean !same) ∧
        (same = true ↔
          g.element = h.element ∧ g.shape = h.shape ∧ g.toValue.LeavesEqual h.toValue) := by
  have hg : InUse .integer [2, 2] (fresh .integer [2, 2]) := .fresh (by decide) (by decide)
  have hstore : (fresh .integer [2, 2]).store [.zero, .zero] (.integer ⟨7, by decide, by decide⟩)
      = .ok ⟨.integer, [.array .integer [.integer ⟨7, by decide, by decide⟩, .integer .zero],
        .array .integer [.integer .zero, .integer .zero]]⟩ := rfl
  have hh := hg.store (.scalar ⟨.integer, rfl⟩) hstore
  exact ⟨_, _, .inUse hg, .inUse hh, hstore, comparison_equal_iff (.inUse hg) (.inUse hh)⟩

end Grid

end Primer
