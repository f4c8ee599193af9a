import Primer.Proofs.Run.Parts
import Primer.Proofs.Run.Ready
import Primer.Proofs.Run.Safety

/-!
# Primer.Proofs.Run.Addressed — what a path finds, and what a store leaves as it was.

Of a place a memory knows the declared type and the value, and both tell what indices lead to: the
one says it before a line of input is read (`Memory.addressedType`), the other when the indices are
followed (`Memory.read`).  In a sound memory the two never disagree, and a store is one change of
one value or none at all (`Memory.Coherent`).  Whether a value of the addressed type is stored is
decided by the indices alone: it is if all of them are in range, and else the first that is not is
reported (`Memory.store_of_outside`, `Memory.exists_store_of_holds`).

All three functions look for the place first (`Memory.find`), which succeeds for whatever is bound.
What comes then is a statement about a type and a value that fits it, and this was settled for
values alone: `Value.partAt` follows indices and `stored` changes the part that they lead to.  The
memory adds only where the changed value goes (`Memory.Updates`).

Main statement: `Program.runOn_coherent`.
-/

namespace Primer

/-- A value that fits a type passes the check at its slots unchanged. -/
theorem SlotType.coerce_of_fits {element : Scalar} {sizes : List Nat} {v : Value}
    (hpos : ∀ size ∈ sizes, 0 < size) (h : v.Fits element sizes) :
    v.coerce (ofSizes element sizes) = .ok v := by
  rw [coerce_ofSizes_eq_ok_iff]
  cases sizes with
  | nil =>
    left
    cases v <;> cases h <;> exact ⟨rfl, rfl⟩
  | cons size inner =>
    right
    obtain ⟨items, rfl, -⟩ := h.exists_items
    exact ⟨List.cons_ne_nil _ _, ⟨items, rfl⟩, Value.shape_eq_of_fits hpos h, rfl⟩

namespace Memory

variable {m m' : Memory} {id : String} {place : Location} {type : SlotType} {v new : Value}

/-- What a variable or parameter holds behind a path of indices. -/
def read (m : Memory) (id : String) (path : List Integer) : Except Fault Value := do
  (← m.load id).partAt path

/-- The second memory holds this value in the place; else nothing has changed. -/
structure Updates (m : Memory) (place : Location) (new : Value) (m' : Memory) : Prop where
  size : m'.frames.size = m.frames.size
  variableAt : ∀ a id, m'.variableAt? a id =
    if a.place id = place then (m.variableAt? a id).map fun v => { v with value := new }
    else m.variableAt? a id
  parameterAt : ∀ k name, m'.parameterAt? k name =
    if place = .parameterIn k name then (m.parameterAt? k name).map (·.withValue new)
    else m.parameterAt? k name

/-- Writing a value is one change of one value. -/
theorem updates_write (m : Memory) (place : Location) (new : Value) :
    m.Updates place new (m.write place new) :=
  ⟨m.size_frames_write place new, m.variableAt?_write place new, m.parameterAt?_write place new⟩

/-! ## Places -/

/-- Every place that is found in a sound memory holds something. -/
theorem Sound.exists_slot (h : m.Sound) (hplace : m.locate? id = some place) :
    ∃ type v, m.slot? place = some (type, v) := by
  unfold locate? at hplace
  split at hplace
  · rw [locateVariable?_eq] at hplace
    split at hplace
    · rename_i hsome
      obtain ⟨w, hw⟩ := Option.isSome_iff_exists.1 hsome
      cases hplace
      exact ⟨_, _, by rw [slot?_place, hw]; rfl⟩
    · split at hplace
      · rename_i hsome
        obtain ⟨w, hw⟩ := Option.isSome_iff_exists.1 hsome
        cases hplace
        exact ⟨_, _, by rw [slot?_place, hw]; rfl⟩
      · cases hplace
  · rw [locateParameter?_eq] at hplace
    split at hplace
    · rename_i place' hreference
      cases hplace
      -- the reference was made by the frame, so its place is further down
      obtain ⟨f, hf, hget⟩ := Option.bind_eq_some_iff.1 hreference
      obtain ⟨⟨type, v⟩, hslot⟩ := ((h.frame hf).2 _ _ hget).exists_slot
      exact ⟨type, v, hslot⟩
    · rename_i t w hvalue
      cases hplace
      exact ⟨_, _, by rw [slot?_parameterIn, hvalue]⟩
    · cases hplace

theorem Updates.isSome_variableAt? (h : m.Updates place new m') (a : Area) (id : String) :
    (m'.variableAt? a id).isSome = (m.variableAt? a id).isSome := by
  rw [h.variableAt]
  split
  · rw [Option.isSome_map]
  · rfl

/-- Ids stand for the same places as before. -/
theorem Updates.locate? (h : m.Updates place new m') (id : String) :
    m'.locate? id = m.locate? id := by
  have htop : m'.top = m.top := by rw [top, top, h.size]
  unfold Memory.locate?
  rw [locateVariable?_eq, locateVariable?_eq, area_of_size_eq h.size, h.isSome_variableAt?,
    h.isSome_variableAt?, locateParameter?_eq, locateParameter?_eq, htop, h.parameterAt]
  by_cases hparameter : place = .parameterIn m.top id
  · -- a binding keeps its kind, whatever value it has
    rw [if_pos hparameter]
    rcases m.parameterAt? m.top id with _ | _ | _ <;> rfl
  · rw [if_neg hparameter]

/-- The changed place has the new value, and its type. -/
theorem Updates.slot? (h : m.Updates place new m') (hslot : m.slot? place = some (type, v)) :
    m'.slot? place = some (type, new) := by
  have hvariable (a : Area) (id : String) (hplace : a.place id = place)
      (hslot : m.slot? (a.place id) = some (type, v)) :
      m'.slot? (a.place id) = some (type, new) := by
    rw [slot?_place] at hslot
    obtain ⟨w, hw, heq⟩ := Option.map_eq_some_iff.1 hslot
    cases heq
    rw [slot?_place, h.variableAt, if_pos hplace, hw]
    rfl
  cases place with
  | global id => exact hvariable .globals id rfl hslot
  | localIn k id => exact hvariable (.frame k) id rfl hslot
  | parameterIn k name =>
    rw [slot?_parameterIn] at hslot
    split at hslot
    · rename_i t w hw
      cases hslot
      rw [slot?_parameterIn, h.parameterAt, if_pos rfl, hw]
      rfl
    · cases hslot

theorem find_eq_ok (hplace : m.locate? id = some place) (hslot : m.slot? place = some (type, v)) :
    m.find id = .ok (place, type, v) := by
  simp [find, hplace, hslot]

/-! ## Types, reads and stores at a place -/

/-- The declared type and the value of an id tell the same of every path, and a store at the id
changes the value in its place or nothing. -/
structure Coherent (m : Memory) (id : String) (place : Location) (v : Value) : Prop where
  load : m.load id = .ok v
  /-- There are indices in range, as many as one likes. -/
  inRange : ∀ depth, ∃ path, path.length = depth ∧ InRange path v.shape
  /-- The type refuses a number of indices if reading with them does, when they are in range. -/
  refused : ∀ path, InRange path v.shape →
    (m.addressedType id path.length = .error .expectedArray ↔
      m.read id path = .error .expectedArray)
  /-- Else the value that is read has the type. -/
  typed : ∀ path, InRange path v.shape → m.addressedType id path.length ≠ .error .expectedArray →
    ∃ type w, m.addressedType id path.length = .ok type ∧ m.read id path = .ok w ∧ type.Holds w
  /-- Indices out of range are no question of types: the first of them is reported. -/
  outside : ∀ path index size, outside? path v.shape = some (index, size) →
    m.read id path = .error (.indexOutOfBounds size index)
  /-- With indices out of range nothing is stored, whatever it is. -/
  storeOutside : ∀ path index size w, outside? path v.shape = some (index, size) →
    m.store id path w = .error (.indexOutOfBounds size index)
  /-- A value that has the type is stored if all indices are in range. -/
  storeInRange : ∀ path type w, m.addressedType id path.length = .ok type → type.Holds w →
    InRange path v.shape → ∃ m', m.store id path w = .ok m'
  /-- So it fails to be stored at an index out of range only, and the first of them is reported. -/
  storeFault : ∀ path type w fault, m.addressedType id path.length = .ok type → type.Holds w →
    m.store id path w = .error fault →
    ∃ index size, outside? path v.shape = some (index, size) ∧
      fault = .indexOutOfBounds size index
  /-- Behind a line that is read and converted, an input is a store. -/
  inputStore : ∀ path expected console text console' w line steps,
    m.addressedType id path.length = .ok (.scalar expected) →
    Console.read console = .ok (text, console') → Value.ofInput text expected = .ok w →
    Program.input id path line { memory := m, console, steps } =
      Run.store id path w line { memory := m, console := console', steps }
  /-- So it too fails at the first index out of range only. -/
  inputError : ∀ path expected console text console' w line steps e s,
    m.addressedType id path.length = .ok (.scalar expected) →
    Console.read console = .ok (text, console') → Value.ofInput text expected = .ok w →
    Program.input id path line { memory := m, console, steps } = .error (.error e) s →
    (∃ index size, outside? path v.shape = some (index, size) ∧
      e = ⟨.indexOutOfBounds size index, line⟩) ∧
      s = { memory := m, console := console', steps }
  /-- A store that fails leaves the machine as it was. -/
  atomic : ∀ path w line console steps e s,
    Run.store id path w line { memory := m, console, steps } = .error (.error e) s →
    s = { memory := m, console, steps }
  /-- A store that succeeds changes the value in the place, and what is read back is the value
  that was stored, as its type holds it. -/
  stored : ∀ path w m', m.store id path w = .ok m' →
    (∀ line console steps, Run.store id path w line { memory := m, console, steps } =
      Run.tick { memory := m', console, steps }) ∧
    ∃ new type w', m.Updates place new m' ∧ m'.locate? id = some place ∧
      m.addressedType id path.length = .ok type ∧ w.coerce type = .ok w' ∧
      m'.read id path = .ok w'

section

variable (hfind : m.find id = .ok (place, type, v))

include hfind

/-- A read is a part of the value. -/
theorem read_eq_partAt (path : List Integer) : m.read id path = v.partAt path := by
  rw [read, load, hfind]
  rfl

/-- A store is a change of a part of the value. -/
theorem store_eq_map_stored (path : List Integer) (w : Value) :
    m.store id path w = (stored type v path w).map (m.write place) := by
  rw [store_eq, hfind]

/-- The addressed type is the declared one, as many dimensions in. -/
theorem addressedType_eq (depth : Nat) :
    m.addressedType id depth = match type.indexed? depth with
      | some addressed => .ok addressed
      | none => .error .expectedArray := by
  rw [addressedType, hfind]
  show (match type.indexed? depth with
    | some addressed => pure addressed
    | none => throw .expectedArray : Except Fault SlotType) = _
  cases type.indexed? depth <;> rfl

variable (hproper : type.Proper) (hholds : type.Holds v)

include hproper

/-- It is there if the indices are no more than the dimensions. -/
theorem addressedType_eq_ok_iff {depth : Nat} {addressed : SlotType} :
    m.addressedType id depth = .ok addressed ↔
      depth ≤ type.sizes.length ∧ addressed = .ofSizes type.element (type.sizes.drop depth) := by
  rw [addressedType_eq hfind]
  rcases Nat.lt_or_ge type.sizes.length depth with hlt | hle
  · rw [SlotType.indexed?_of_lt hlt]
    simp [Nat.not_le.2 hlt]
  · rw [hproper.indexed?_of_le hle]
    simp [hle, eq_comm]

omit hproper in
/-- With more indices than dimensions, something that is no array is indexed. -/
theorem addressedType_eq_error_of_lt {depth : Nat} (hlt : type.sizes.length < depth) :
    m.addressedType id depth = .error .expectedArray := by
  rw [addressedType_eq hfind, SlotType.indexed?_of_lt hlt]

include hholds

omit hproper in
/-- A store with indices out of range reports the first of them. -/
theorem store_of_outside {path : List Integer} {index : Integer} {size : Nat} (w : Value)
    (hout : outside? path type.sizes = some (index, size)) :
    m.store id path w = .error (.indexOutOfBounds size index) := by
  rw [store_eq_map_stored hfind, stored_of_outside hholds hout]
  rfl

/-- A value that has the addressed type is stored if all indices are in range. -/
theorem exists_store_of_holds {path : List Integer} {addressed : SlotType} {w : Value}
    (haddressed : m.addressedType id path.length = .ok addressed) (hw : addressed.Holds w)
    (hrange : InRange path type.sizes) : ∃ m', m.store id path w = .ok m' := by
  obtain ⟨hle, rfl⟩ := (addressedType_eq_ok_iff hfind hproper).1 haddressed
  have hrest : ∀ size ∈ type.sizes.drop path.length, 0 < size := fun size hsize =>
    hproper.sizes_pos size (List.mem_of_mem_drop hsize)
  have hcoerce := SlotType.coerce_of_fits hrest (SlotType.holds_ofSizes_iff.1 hw)
  obtain ⟨new, hnew, -⟩ := exists_stored hproper.sizes_pos hholds hrange hle hcoerce
  refine ⟨m.write place new, ?_⟩
  rw [store_eq_map_stored hfind, ← hproper.eq_ofSizes, hnew]
  rfl

/-- A value that has the addressed type fails to be stored at an index out of range only. -/
theorem fault_of_store {path : List Integer} {addressed : SlotType} {w : Value} {fault : Fault}
    (haddressed : m.addressedType id path.length = .ok addressed) (hw : addressed.Holds w)
    (h : m.store id path w = .error fault) :
    ∃ index size, outside? path type.sizes = some (index, size) ∧
      fault = .indexOutOfBounds size index := by
  cases hout : outside? path type.sizes with
  | some outside =>
    rw [store_of_outside hfind hholds w hout] at h
    cases h
    exact ⟨_, _, rfl, rfl⟩
  | none =>
    obtain ⟨m', hstore⟩ :=
      exists_store_of_holds hfind hproper hholds haddressed hw (outside?_eq_none_iff.1 hout)
    rw [hstore] at h
    cases h

/-- A store that succeeds changes the value in the place and can be read back. -/
theorem updates_of_store (hplace : m.locate? id = some place)
    (hslot : m.slot? place = some (type, v)) {path : List Integer} {w : Value}
    (h : m.store id path w = .ok m') : ∃ new addressed w',
      m.Updates place new m' ∧ m'.locate? id = some place ∧
        m.addressedType id path.length = .ok addressed ∧ w.coerce addressed = .ok w' ∧
        m'.read id path = .ok w' := by
  rw [store_eq_map_stored hfind] at h
  cases hstored : stored type v path w with
  | error fault =>
    rw [hstored] at h
    cases h
  | ok new =>
    rw [hstored] at h
    cases h
    rw [← hproper.eq_ofSizes] at hstored
    obtain ⟨hle, w', hw', hreplaces⟩ := replaces_of_stored hproper.sizes_pos hholds hstored
    have hupdates := m.updates_write place new
    have hplace' : (m.write place new).locate? id = some place :=
      (hupdates.locate? id).trans hplace
    refine ⟨new, _, w', hupdates, hplace',
      (addressedType_eq_ok_iff hfind hproper).2 ⟨hle, rfl⟩, hw', ?_⟩
    rw [read_eq_partAt (find_eq_ok hplace' (hupdates.slot? hslot))]
    have hback := hreplaces.1 []
    rwa [List.append_nil, Value.partAt_nil] at hback

end

/-- Zero is in range of every dimension that is not empty. -/
theorem inRange_replicate_zero {sizes : List Nat} (hpos : ∀ size ∈ sizes, 0 < size) (depth : Nat) :
    InRange (List.replicate depth .zero) sizes := by
  intro p hp
  obtain ⟨hindex, hsize⟩ := List.of_mem_zip (a := p.1) (b := p.2) hp
  rw [List.eq_of_mem_replicate hindex]
  exact ⟨le_rfl, Int.natCast_pos.2 (hpos p.2 hsize)⟩

/-- An input whose line is read and converted stores the value. -/
theorem input_eq_store {path : List Integer} {expected : Scalar} {console console' : Console}
    {text : String} {w : Value} {line steps : Nat}
    (htype : m.addressedType id path.length = .ok (.scalar expected))
    (hread : console.read = .ok (text, console')) (hw : Value.ofInput text expected = .ok w) :
    Program.input id path line { memory := m, console, steps } =
      Run.store id path w line { memory := m, console := console', steps } := by
  show (Run.atLine line (m.addressedType id path.length) >>= _ : Run Unit)
    { memory := m, console, steps } = _
  rw [htype]
  show EStateM.bind (Run.readLine line) (fun text =>
    Run.atLine line (Value.ofInput text expected) >>= fun v => Run.store id path v line)
      { memory := m, console, steps } = _
  rw [EStateM.bind, Run.readLine_run, hread]
  show (Run.atLine line (Value.ofInput text expected) >>= fun v =>
    Run.store id path v line : Run Unit) { memory := m, console := console', steps } = _
  rw [hw]
  rfl

/-- A store that fails reports a fault of the memory, and the machine is as it was. -/
theorem store_eq_error {path : List Integer} {w : Value} {line : Nat} {e : RuntimeError}
    {s s' : Machine} (h : Run.store id path w line s = .error (.error e) s') :
    s' = s ∧ ∃ fault, s.memory.store id path w = .error fault ∧ e = ⟨fault, line⟩ := by
  rw [Run.store_run] at h
  cases hstore : s.memory.store id path w with
  | error fault =>
    rw [hstore] at h
    cases h
    exact ⟨rfl, fault, rfl, rfl⟩
  | ok memory =>
    rw [hstore] at h
    -- the step behind a store can only run out
    obtain ⟨memory', console, steps⟩ := s
    cases steps <;> cases h

/-- In a sound memory every place that is found is coherent. -/
theorem Sound.coherent (h : m.Sound) (hplace : m.locate? id = some place) :
    ∃ v, m.Coherent id place v := by
  obtain ⟨type, v, hslot⟩ := h.exists_slot hplace
  obtain ⟨hproper, hholds⟩ := h.slot hslot
  have hfind := find_eq_ok hplace hslot
  have hshape : v.shape = type.sizes := Value.shape_eq_of_fits hproper.sizes_pos hholds
  refine ⟨v, ?load, ?inRange, ?refused, ?typed, ?outside, ?storeOutside, ?storeInRange,
    ?storeFault, ?inputStore, ?inputError, ?atomic, ?stored⟩
  case load =>
    rw [load, hfind]
    rfl
  case inRange =>
    intro depth
    rw [hshape]
    exact ⟨_, List.length_replicate, inRange_replicate_zero hproper.sizes_pos depth⟩
  case refused =>
    intro path hpath
    rw [hshape] at hpath
    rw [read_eq_partAt hfind]
    -- both count the indices against the declared sizes
    rcases Nat.lt_or_ge type.sizes.length path.length with hlt | hle
    · exact iff_of_true (addressedType_eq_error_of_lt hfind hlt)
        (Value.partAt_of_length_lt hholds hpath hlt)
    · obtain ⟨w, hw, -⟩ := Value.exists_partAt hholds hpath hle
      rw [(addressedType_eq_ok_iff hfind hproper).2 ⟨hle, rfl⟩, hw]
      simp
  case typed =>
    intro path hpath hok
    rw [hshape] at hpath
    rcases Nat.lt_or_ge type.sizes.length path.length with hlt | hle
    · exact absurd (addressedType_eq_error_of_lt hfind hlt) hok
    · obtain ⟨w, hw, hfits⟩ := Value.exists_partAt hholds hpath hle
      exact ⟨_, w, (addressedType_eq_ok_iff hfind hproper).2 ⟨hle, rfl⟩,
        (read_eq_partAt hfind path).trans hw, SlotType.holds_ofSizes_iff.2 hfits⟩
  case outside =>
    intro path index size hout
    rw [hshape] at hout
    rw [read_eq_partAt hfind]
    exact Value.partAt_of_outside hholds hout
  case storeOutside =>
    intro path index size w hout
    exact store_of_outside hfind hholds w (hshape ▸ hout)
  case storeInRange =>
    intro path addressed w haddressed hw hrange
    exact exists_store_of_holds hfind hproper hholds haddressed hw (hshape ▸ hrange)
  case storeFault =>
    intro path addressed w fault
    rw [hshape]
    apply fault_of_store hfind hproper hholds
  case inputStore =>
    intro path expected console text console' w line steps
    apply input_eq_store
  case inputError =>
    intro path expected console text console' w line steps e s htype hread hw hinput
    -- behind the line an input is a store of a value of the type it was read for
    rw [input_eq_store htype hread hw] at hinput
    obtain ⟨hmachine, fault, hfault, rfl⟩ := store_eq_error hinput
    have hvalue := Value.meets_ofInput text expected
    rw [hw] at hvalue
    obtain ⟨index, size, hout, rfl⟩ := fault_of_store hfind hproper hholds htype hvalue hfault
    exact ⟨⟨index, size, hshape ▸ hout, rfl⟩, hmachine⟩
  case atomic =>
    intro path w line console steps e s hstore
    exact (store_eq_error hstore).1
  case stored =>
    intro path w m' hstore
    refine ⟨fun line console steps => ?_, ?_⟩
    · rw [Run.store_run, hstore]
    · exact updates_of_store hfind hproper hholds hplace hslot hstore

end Memory

namespace Program

variable {p : Program} {source : String}

/-- Every state of a run of an accepted program has a sound memory. -/
theorem runOn_sound (h : ofSource source = .ok p) (steps : Nat) (console : Console) :
    (p.runOn steps console).2.memory.Sound := by
  have hends := ends_run h steps console
  rw [runOn_eq]
  cases hrun : p.run steps { memory := .empty, console, steps } with
  | ok a m =>
    rw [hrun] at hends
    exact hends.1
  | error stop m =>
    rw [hrun] at hends
    cases stop with
    | error e => exact hends.1
    | outOfSteps => exact hends

/-- In every state of a run of an accepted program, and for every id that is found in it, the
declared type tells what indices lead to, a value of that type is stored unless an index is out of
range, and a store is one change or none. -/
theorem runOn_coherent (h : ofSource source = .ok p) (steps : Nat) (console : Console) {id : String}
    {place : Location} (hplace : (p.runOn steps console).2.memory.locate? id = some place) :
    ∃ v, (p.runOn steps console).2.memory.Coherent id place v :=
  (runOn_sound h steps console).coherent hplace

/-- The sample after twenty steps, while its procedure is called: the parameter stands for a
variable of the caller. -/
theorem sampleText_coherent : ∃ p, ofSource sampleText = .ok p ∧
    (p.runOn 20 (.ofInput [] none)).2.memory.locate? "n" = some (.global "demo^beginning^y") ∧
    ∃ v, (p.runOn 20 (.ofInput [] none)).2.memory.Coherent "n" (.global "demo^beginning^y") v := by
  have hlocate : (ofSource sampleText).toOption.any (fun p => decide
      ((p.runOn 20 (.ofInput [] none)).2.memory.locate? "n" = some (.global "demo^beginning^y"))) =
        true := by
    decide +kernel
  obtain ⟨p, -, -, hp, -⟩ := exists_sample
  rw [hp] at hlocate
  have hplace := of_decide_eq_true hlocate
  exact ⟨p, hp, hplace, runOn_coherent hp 20 (.ofInput [] none) hplace⟩

end Program

end Primer
