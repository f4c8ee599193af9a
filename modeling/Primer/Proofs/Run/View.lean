import Primer.Memory

/-!
# Primer.Proofs.Run.View — a memory as variables and bindings.

The variables of a memory lie in areas: the globals, and one area for each call.  What a memory
holds is told by two look-ups, `variableAt?` in an area and `parameterAt?` in a call.  Here is one
equation for each operation and each look-up; behind this module no operation is unfolded.

So a memory is a pair of partial functions with a number of frames, and two memories with the same
functions behave alike.  Places are told apart by area and id (`Area.place_inj`); no variable is a
parameter.  Taking frames away is `Memory.cut`, of which `pop` is the case with one frame.
-/

namespace Primer

/-- The globals, or the variables of the call with this number. -/
inductive Area where
  | globals
  | frame (k : Nat)
deriving DecidableEq

/-- The place of a variable. -/
def Area.place : Area → String → Location
  | globals, id => .global id
  | frame k, id => .localIn k id

/-- A place is its area and its id. -/
theorem Area.place_inj {a b : Area} {id other : String} :
    a.place id = b.place other ↔ a = b ∧ id = other := by
  cases a <;> cases b <;> simp [place]

theorem Area.place_ne_parameterIn (a : Area) (id : String) (k : Nat) (name : String) :
    a.place id ≠ .parameterIn k name := by
  cases a <;> simp [place]

/-- The globals, and the calls with smaller numbers. -/
def Area.Below (k : Nat) : Area → Prop
  | globals => True
  | frame j => j < k

instance (k : Nat) : (a : Area) → Decidable (a.Below k)
  | .globals => inferInstanceAs (Decidable True)
  | .frame j => inferInstanceAs (Decidable (j < k))

theorem Area.Below.mono {a : Area} {j k : Nat} (h : a.Below j) (hle : j ≤ k) : a.Below k := by
  cases a with
  | globals => trivial
  | frame i => exact Nat.lt_of_lt_of_le h hle

/-- The binding with another value; a reference keeps its place. -/
def Binding.withValue (v : Value) : Binding → Binding
  | value type _ => value type v
  | reference place => reference place

/-- What is declared is found under its id. -/
theorem Variables.get?_declare (vs : Variables) (v : Variable) (id : String) :
    (vs.declare v).get? id = if id = v.id then some v else vs.get? id := by
  rw [Variables.declare]
  split
  · rename_i hid
    rw [hid, Table.get?_insert_self]
  · rename_i hid
    rw [Table.get?_insert_of_ne _ hid]

theorem Variables.get?_assign (vs : Variables) (id other : String) (value : Value) :
    (vs.assign id value).get? other
      = if other = id then (vs.get? other).map fun v => { v with value } else vs.get? other := by
  unfold Variables.assign
  by_cases hid : other = id
  · subst hid
    rw [if_pos rfl]
    cases hv : vs.get? other with
    | none => exact hv
    | some v => exact Table.get?_insert_self ..
  · rw [if_neg hid]
    split
    · rw [Table.get?_insert_of_ne _ hid]
    · rfl

/-- What is assigned to a parameter keeps its form. -/
theorem Frame.get?_assignParameter (f : Frame) (name other : String) (value : Value) :
    (f.assignParameter name value).parameters.get? other
      = if other = name then (f.parameters.get? other).map (·.withValue value)
        else f.parameters.get? other := by
  unfold Frame.assignParameter
  by_cases hname : other = name
  · subst hname
    rw [if_pos rfl]
    split
    · rename_i type v hv
      rw [Table.get?_insert_self, hv]
      rfl
    · rename_i hv
      -- neither a reference nor a missing parameter is changed
      cases hb : f.parameters.get? other with
      | none => rfl
      | some b =>
        cases b with
        | value type v => exact absurd hb (hv type v)
        | reference place => rfl
  · rw [if_neg hname]
    split
    · rw [Table.get?_insert_of_ne _ hname]
    · rfl

theorem Frame.locals_assignParameter (f : Frame) (name : String) (value : Value) :
    (f.assignParameter name value).locals = f.locals := by
  unfold Frame.assignParameter
  split <;> rfl

namespace Memory

/-- The variable under an id in an area. -/
def variableAt? (m : Memory) : Area → String → Option Variable
  | .globals, id => m.globals.get? id
  | .frame k, id => m.frames[k]?.bind (·.locals.get? id)

/-- What the call with this number binds a parameter to. -/
def parameterAt? (m : Memory) (k : Nat) (name : String) : Option Binding :=
  m.frames[k]?.bind (·.parameters.get? name)

/-- Where declarations go: the variables of the latest call, or the globals when there is none. -/
def area (m : Memory) : Area := if m.frames.size = 0 then .globals else .frame m.top

variable (m : Memory)

theorem area_of_size_eq {m m' : Memory} (h : m'.frames.size = m.frames.size) :
    m'.area = m.area := by
  rw [area, area, top, top, h]

/-- A frame that is not there has no variables. -/
theorem variableAt?_of_size_le {m : Memory} {k : Nat} (h : m.frames.size ≤ k) (id : String) :
    m.variableAt? (.frame k) id = none := by
  rw [variableAt?, Array.getElem?_eq_none h, Option.bind_none]

theorem parameterAt?_of_size_le {m : Memory} {k : Nat} (h : m.frames.size ≤ k) (name : String) :
    m.parameterAt? k name = none := by
  rw [parameterAt?, Array.getElem?_eq_none h, Option.bind_none]

/-! ## Places -/

theorem slot?_place (a : Area) (id : String) :
    m.slot? (a.place id) = (m.variableAt? a id).map fun v => (v.type, v.value) := by
  cases a <;> rfl

/-- The slot of a parameter is the value that was passed. -/
theorem slot?_parameterIn (k : Nat) (name : String) :
    m.slot? (.parameterIn k name) =
      match m.parameterAt? k name with
      | some (.value type v) => some (.scalar type, v)
      | _ => none := rfl

/-- A parameter is looked up in the topmost frame, and a reference is followed. -/
theorem locateParameter?_eq (name : String) :
    m.locateParameter? name =
      match m.parameterAt? m.top name with
      | some (.reference place) => some place
      | some (.value ..) => some (.parameterIn m.top name)
      | none => none := by
  rw [locateParameter?, Array.back?_eq_getElem?]
  rfl

/-- A variable is looked for where declarations go, and then among the globals. -/
theorem locateVariable?_eq (id : String) :
    m.locateVariable? id =
      if (m.variableAt? m.area id).isSome then some (m.area.place id)
      else if (m.variableAt? .globals id).isSome then some (Area.globals.place id)
      else none := by
  have hlocal : (m.frames.back?.map (·.locals.contains id)).getD false
      = (m.variableAt? (.frame m.top) id).isSome := by
    rw [Array.back?_eq_getElem?]
    show _ = ((m.frames[m.frames.size - 1]?).bind (·.locals.get? id)).isSome
    cases m.frames[m.frames.size - 1]? <;> rfl
  rw [locateVariable?, hlocal, area]
  by_cases hsize : m.frames.size = 0
  · -- without a call both look-ups are among the globals
    rw [variableAt?_of_size_le (by omega), if_pos hsize]
    rw [if_neg (by simp)]
    show (if (m.variableAt? .globals id).isSome then _ else _) = _
    split
    · rfl
    · rfl
  · rw [if_neg hsize]
    rfl

/-! ## Declarations -/

/-- A variable is declared in the current frame, or globally where there is none. -/
theorem declare_eq (v : Variable) :
    m.declare v = if m.frames.size = 0 then { m with globals := m.globals.declare v }
      else { m with
        frames := m.frames.modify m.top fun f => { f with locals := f.locals.declare v } } := by
  by_cases hsize : m.frames.size = 0
  · rw [declare, if_pos hsize, if_pos (by simpa using hsize)]
  · rw [declare, if_neg hsize, if_neg (by simpa using hsize)]

@[simp]
theorem size_declare (v : Variable) : (m.declare v).frames.size = m.frames.size := by
  rw [declare_eq]
  split <;> simp

/-- A declaration is in force where it was made, and nowhere else. -/
theorem variableAt?_declare (v : Variable) (a : Area) (id : String) :
    (m.declare v).variableAt? a id
      = if a = m.area ∧ id = v.id then some v else m.variableAt? a id := by
  rw [declare_eq, area]
  by_cases hsize : m.frames.size = 0
  · rw [if_pos hsize, if_pos hsize]
    cases a with
    | globals => simpa [variableAt?] using Variables.get?_declare _ _ _
    | frame k => simp [variableAt?]
  · rw [if_neg hsize, if_neg hsize]
    cases a with
    | globals => simp [variableAt?]
    | frame k =>
      rw [variableAt?, Array.getElem?_modify]
      by_cases hk : m.top = k
      · have hlt : k < m.frames.size := hk ▸ Nat.sub_one_lt hsize
        simp [variableAt?, hk, hlt, Variables.get?_declare]
      · have hne : ¬ Area.frame k = .frame m.top := fun h => hk (Area.frame.inj h).symm
        simp [variableAt?, hk, hne]

@[simp]
theorem parameterAt?_declare (v : Variable) (k : Nat) (name : String) :
    (m.declare v).parameterAt? k name = m.parameterAt? k name := by
  rw [declare_eq]
  split
  · rfl
  · rw [parameterAt?, Array.getElem?_modify]
    split
    · rw [parameterAt?]
      cases m.frames[k]? <;> rfl
    · rfl

/-! ## Writes -/

/-- A write changes the value of the variable at its place. -/
theorem variableAt?_write (place : Location) (value : Value) (a : Area) (id : String) :
    (m.write place value).variableAt? a id
      = if a.place id = place then (m.variableAt? a id).map fun v => { v with value }
        else m.variableAt? a id := by
  cases place with
  | global other =>
    cases a with
    | globals => simp [write, variableAt?, Variables.get?_assign, Area.place]
    | frame k => simp [write, variableAt?, Area.place]
  | localIn j other =>
    cases a with
    | globals => simp [write, variableAt?, Area.place]
    | frame k =>
      rw [write, variableAt?, Array.getElem?_modify]
      by_cases hj : j = k
      · subst hj
        cases hf : m.frames[j]? with
        | none => simp [variableAt?, hf]
        | some f => simp [variableAt?, hf, Frame.assign, Variables.get?_assign, Area.place]
      · simp [variableAt?, hj, Ne.symm hj, Area.place]
  | parameterIn j other =>
    rw [if_neg (a.place_ne_parameterIn id j other)]
    cases a with
    | globals => rfl
    | frame k =>
      rw [write, variableAt?, Array.getElem?_modify, variableAt?]
      split
      · cases m.frames[k]? with
        | none => rfl
        | some f => simp [Frame.locals_assignParameter]
      · rfl

/-- A write to a parameter changes what it holds if it was passed by value. -/
theorem parameterAt?_write (place : Location) (value : Value) (k : Nat) (name : String) :
    (m.write place value).parameterAt? k name
      = if place = .parameterIn k name then (m.parameterAt? k name).map (·.withValue value)
        else m.parameterAt? k name := by
  cases place with
  | global other => rfl
  | localIn j other =>
    have hne : Location.localIn j other ≠ .parameterIn k name := fun h => by cases h
    rw [write, parameterAt?, Array.getElem?_modify, parameterAt?, if_neg hne]
    split
    · cases m.frames[k]? <;> rfl
    · rfl
  | parameterIn j other =>
    rw [write, parameterAt?, Array.getElem?_modify, parameterAt?]
    by_cases hj : j = k
    · subst hj
      cases hf : m.frames[j]? with
      | none => simp
      | some f => simp [Frame.get?_assignParameter, eq_comm]
    · simp [hj]

/-- The value that a store gives to a place of this type with this value. -/
def stored (type : SlotType) (old : Value) (indices : List Integer) (value : Value) :
    Except Fault Value :=
  if indices.isEmpty then value.coerce type
  else do return (← (← old.asGrid).store indices value).toValue

/-- A store goes to the place that is found. -/
theorem store_eq (id : String) (indices : List Integer) (value : Value) :
    m.store id indices value =
      match m.find id with
      | .ok (place, type, old) => (stored type old indices value).map (m.write place)
      | .error fault => .error fault := by
  unfold store stored
  cases m.find id with
  | error fault => rfl
  | ok found =>
    obtain ⟨place, type, old⟩ := found
    by_cases hindices : indices.isEmpty = true
    · simp only [hindices, if_true, bind, Except.bind]
      cases value.coerce type <;> rfl
    · simp only [hindices, bind, Except.bind]
      cases old.asGrid with
      | error fault => rfl
      | ok grid => cases hgrid : grid.store indices value <;> simp only [hgrid] <;> rfl

/-- A store is a write to the place that is found. -/
theorem exists_write_of_store {m m' : Memory} {id : String} {indices : List Integer} {value : Value}
    (h : m.store id indices value = .ok m') :
    ∃ place slot v, m.find id = .ok (place, slot) ∧ m' = m.write place v := by
  rw [store_eq] at h
  split at h
  · rename_i place type old hfind
    cases hv : stored type old indices value with
    | error fault =>
      rw [hv] at h
      cases h
    | ok v =>
      rw [hv] at h
      cases h
      exact ⟨place, (type, old), v, hfind, rfl⟩
  · cases h

/-! ## Calls -/

@[simp]
theorem size_push (f : Frame) : (m.push f).frames.size = m.frames.size + 1 := Array.size_push _

@[simp]
theorem top_push (f : Frame) : (m.push f).top = m.frames.size := by
  rw [top, size_push, Nat.add_sub_cancel]

/-- In a call that is entered, its own frame is the current area. -/
@[simp]
theorem area_push (f : Frame) : (m.push f).area = .frame m.frames.size := by
  rw [area, size_push, if_neg (Nat.succ_ne_zero _), top_push]

theorem getElem?_frames_push (f : Frame) (k : Nat) :
    (m.push f).frames[k]? = if k = m.frames.size then some f else m.frames[k]? :=
  Array.getElem?_push

/-- A frame that is entered brings its variables. -/
theorem variableAt?_push (f : Frame) (a : Area) (id : String) :
    (m.push f).variableAt? a id
      = if a = .frame m.frames.size then f.locals.get? id else m.variableAt? a id := by
  cases a with
  | globals => rfl
  | frame k =>
    rw [variableAt?, getElem?_frames_push, variableAt?]
    simp only [Area.frame.injEq]
    split <;> rfl

theorem parameterAt?_push (f : Frame) (k : Nat) (name : String) :
    (m.push f).parameterAt? k name
      = if k = m.frames.size then f.parameters.get? name else m.parameterAt? k name := by
  rw [parameterAt?, getElem?_frames_push, parameterAt?]
  split <;> rfl

/-- Only the calls with smaller numbers are left. -/
def cut (k : Nat) : Memory := { m with frames := m.frames.take k }

/-- To leave a call is to cut one frame off. -/
theorem pop_eq_cut : m.pop = m.cut (m.frames.size - 1) := by
  rw [pop, cut, ← Array.extract_eq_pop]
  rfl

theorem size_cut (k : Nat) : (m.cut k).frames.size = min k m.frames.size := by
  simp [cut]

theorem cut_cut (j k : Nat) : (m.cut j).cut k = m.cut (min j k) := by
  simp [cut, Array.take_eq_extract, Nat.min_comm]

theorem cut_of_size_le {k : Nat} (h : m.frames.size ≤ k) : m.cut k = m := by
  rw [cut, Array.take_eq_extract, Array.extract_eq_self_of_le h]

theorem getElem?_frames_cut (j k : Nat) :
    (m.cut j).frames[k]? = if k < j then m.frames[k]? else none := by
  rw [cut, Array.take_eq_extract, Array.getElem?_extract, Nat.sub_zero, Nat.zero_add]
  by_cases hk : k < m.frames.size
  · simp only [Nat.lt_min, hk, and_true]
  · rw [if_neg (by omega), Array.getElem?_eq_none (by omega), ite_self]

/-- Of the areas those below the cut are left. -/
theorem variableAt?_cut (j : Nat) (a : Area) (id : String) :
    (m.cut j).variableAt? a id = if a.Below j then m.variableAt? a id else none := by
  cases a with
  | globals => rfl
  | frame k =>
    rw [variableAt?, getElem?_frames_cut, variableAt?]
    by_cases hk : k < j
    · rw [if_pos hk, if_pos (show Area.Below j (.frame k) from hk)]
    · rw [if_neg hk, if_neg (show ¬ Area.Below j (.frame k) from hk), Option.bind_none]

/-- Of the bindings those below the cut are left. -/
theorem parameterAt?_cut (j k : Nat) (name : String) :
    (m.cut j).parameterAt? k name = if k < j then m.parameterAt? k name else none := by
  rw [parameterAt?, getElem?_frames_cut, parameterAt?]
  split <;> rfl

end Memory

end Primer
