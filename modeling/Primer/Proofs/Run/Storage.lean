import Primer.Memory
import Primer.Proofs.Value.Fits

/-!
# Primer.Proofs.Run.Storage — what every memory of a run is like.

A memory is sound if every entry has exactly the type that it was declared with, and every
reference stands for a variable that is there: a global one, or one of an older call.  While a call
runs, places are added to its frame and none is lost: this is the order `Memory.Le`, under which
everything that is known of the places of a memory remains true.

The order is on the topmost frame: older frames are the same as far as their places are concerned,
and their values may change.  All changes of a memory that a run makes are covered: a write into a
slot, a declaration, and a frame that comes or goes.  For the last, soundness of the frame below has
to be kept while the one above may refer to it.
-/

namespace Primer

/-! ## Entries of tables -/

namespace Table

variable {α : Type} {P : String → α → Prop} {t : Table α} {key : String} {a : α}

/-- Every entry has a property. -/
def All (P : String → α → Prop) (t : Table α) : Prop := ∀ entry ∈ t.entries, P entry.1 entry.2

theorem all_empty : (empty : Table α).All P := fun _ h => absurd h List.not_mem_nil

theorem mem_of_lookup {entries : List (String × α)} (h : lookup key entries = some a) :
    (key, a) ∈ entries := by
  induction entries with
  | nil => cases h
  | cons entry rest ih =>
    rw [lookup] at h
    split at h
    · rename_i hkey
      cases h
      subst hkey
      exact List.mem_cons_self
    · exact List.mem_cons_of_mem _ (ih h)

theorem All.get (h : t.All P) (ha : t.get? key = some a) : P key a :=
  h _ (mem_of_lookup ha)

/-- An entry of the changed table is the new one, or was there. -/
theorem mem_put {entries : List (String × α)} {entry : String × α}
    (h : entry ∈ put key a entries) : entry = (key, a) ∨ entry ∈ entries := by
  induction entries with
  | nil => exact Or.inl (List.mem_singleton.1 h)
  | cons first rest ih =>
    rw [put] at h
    split at h
    · rename_i hkey
      rcases List.mem_cons.1 h with rfl | h
      · exact Or.inl (by rw [hkey])
      · exact Or.inr (List.mem_cons_of_mem _ h)
    · rcases List.mem_cons.1 h with rfl | h
      · exact Or.inr List.mem_cons_self
      · exact (ih h).imp_right (List.mem_cons_of_mem _)

theorem All.insert (h : t.All P) (ha : P key a) : (t.insert key a).All P := by
  intro entry hmem
  rcases mem_put hmem with rfl | hmem
  · exact ha
  · exact h entry hmem

end Table

/-! ## Entries that have their types -/

/-- Every variable stands under its own id and holds a value of exactly its type. -/
def Variables.WellTyped (vs : Variables) : Prop :=
  vs.All fun key v => v.id = key ∧ v.type.Proper ∧ v.type.Holds v.value

/-- A value that was passed is a scalar of the type of its parameter. -/
def Binding.WellTyped : Binding → Prop
  | value type v => (SlotType.scalar type).Holds v
  | reference _ => True

/-- The parameters and variables of a call have their types. -/
structure Frame.WellTyped (f : Frame) : Prop where
  parameters : f.parameters.All fun _ b => b.WellTyped
  locals : f.locals.WellTyped

/-- Everything that is stored has its type. -/
structure Memory.WellTyped (m : Memory) : Prop where
  globals : m.globals.WellTyped
  frames : ∀ f ∈ m.frames, f.WellTyped

/-- A variable that is declared with a value of its type. -/
theorem Variables.WellTyped.declare {vs : Variables} (h : vs.WellTyped) {v : Variable}
    (hproper : v.type.Proper) (hholds : v.type.Holds v.value) : (vs.declare v).WellTyped :=
  Table.All.insert h ⟨rfl, hproper, hholds⟩

/-- A variable that is assigned a value of its type. -/
theorem Variables.WellTyped.assign {vs : Variables} (h : vs.WellTyped) {id : String} {value : Value}
    (hholds : ∀ v, vs.get? id = some v → v.type.Holds value) : (vs.assign id value).WellTyped := by
  rw [Variables.assign]
  split
  · rename_i v hv
    obtain ⟨hid, hproper, -⟩ := Table.All.get h hv
    exact Table.All.insert h ⟨hid, hproper, hholds v hv⟩
  · exact h

/-- A local variable that is assigned a value of its type. -/
theorem Frame.WellTyped.assign {f : Frame} (h : f.WellTyped) {id : String} {value : Value}
    (hholds : ∀ v, f.locals.get? id = some v → v.type.Holds value) :
    (f.assign id value).WellTyped :=
  ⟨h.parameters, h.locals.assign hholds⟩

/-- A parameter that is assigned a value of its type. -/
theorem Frame.WellTyped.assignParameter {f : Frame} (h : f.WellTyped) {name : String}
    {value : Value} (hholds : ∀ type v, f.parameters.get? name = some (.value type v) →
      (SlotType.scalar type).Holds value) : (f.assignParameter name value).WellTyped := by
  rw [Frame.assignParameter]
  split
  · rename_i type v hv
    exact ⟨h.parameters.insert (hholds type v hv), h.locals⟩
  · exact h

/-! ## Places that stay -/

/-- The place that a parameter passed by reference stands for. -/
def Binding.place? : Binding → Option Location
  | reference place => some place
  | value .. => none

/-- The second frame has all variables of the first, and its parameters are bound the same way. -/
structure Frame.Le (f f' : Frame) : Prop where
  locals : ∀ id, f.locals.contains id = true → f'.locals.contains id = true
  parameters : ∀ name,
    (f'.parameters.get? name).map Binding.place? = (f.parameters.get? name).map Binding.place?

namespace Frame.Le

variable {f f₁ f₂ : Frame}

theorem refl (f : Frame) : f.Le f := ⟨fun _ h => h, fun _ => rfl⟩

theorem trans (h : f.Le f₁) (h' : f₁.Le f₂) : f.Le f₂ :=
  ⟨fun id hid => h'.locals id (h.locals id hid),
    fun name => (h'.parameters name).trans (h.parameters name)⟩

theorem assign (f : Frame) (id : String) (value : Value) : f.Le (f.assign id value) := by
  refine ⟨fun other hother => ?_, fun _ => rfl⟩
  rw [Frame.assign, Variables.contains_assign]
  exact hother

theorem assignParameter (f : Frame) (name : String) (value : Value) :
    f.Le (f.assignParameter name value) := by
  rw [Frame.assignParameter]
  split
  · rename_i type v hv
    refine ⟨fun _ h => h, fun other => ?_⟩
    by_cases hname : other = name
    · subst hname
      rw [Table.get?_insert_self, hv]
      rfl
    · rw [Table.get?_insert_of_ne _ hname]
  · exact refl f

theorem declare (f : Frame) (v : Variable) :
    f.Le { f with locals := f.locals.declare v } := by
  refine ⟨fun other hother => ?_, fun _ => rfl⟩
  rw [Variables.declare, Table.contains_insert, hother, Bool.or_true]

end Frame.Le

namespace Memory

/-- The second memory has all places of the first, and as many frames. -/
structure Le (m m' : Memory) : Prop where
  globals : ∀ id, m.globals.contains id = true → m'.globals.contains id = true
  size : m'.frames.size = m.frames.size
  frame : ∀ {k : Nat} {f : Frame}, m.frames[k]? = some f → ∃ f', m'.frames[k]? = some f' ∧ f.Le f'

namespace Le

variable {m m₁ m₂ : Memory}

theorem refl (m : Memory) : m.Le m := ⟨fun _ h => h, rfl, fun hf => ⟨_, hf, .refl _⟩⟩

theorem trans (h : m.Le m₁) (h' : m₁.Le m₂) : m.Le m₂ := by
  refine ⟨fun id hid => h'.globals id (h.globals id hid), h'.size.trans h.size, fun hf => ?_⟩
  obtain ⟨f₁, hf₁, hle⟩ := h.frame hf
  obtain ⟨f₂, hf₂, hle'⟩ := h'.frame hf₁
  exact ⟨f₂, hf₂, hle.trans hle'⟩

theorem back (h : m.Le m₁) {f : Frame} (hf : m.frames.back? = some f) :
    ∃ f', m₁.frames.back? = some f' ∧ f.Le f' := by
  rw [Array.back?_eq_getElem?] at hf
  rw [Array.back?_eq_getElem?, h.size]
  exact h.frame hf

end Le

/-- A frame with this number may refer to the place: it is a global variable, or a variable of an
older call. -/
def Backs (m : Memory) (frame : Nat) : Location → Prop
  | .global id => m.globals.contains id = true
  | .localIn k id => k < frame ∧ ∃ f, m.frames[k]? = some f ∧ f.locals.contains id = true
  | .parameterIn .. => False

/-- A reference keeps its place while places are added. -/
theorem Backs.mono {m m' : Memory} (hle : m.Le m') {frame : Nat} {place : Location}
    (h : m.Backs frame place) : m'.Backs frame place := by
  cases place with
  | global id => exact hle.globals id h
  | localIn k id =>
    obtain ⟨hlt, f, hf, hid⟩ := h
    obtain ⟨f', hf', hle'⟩ := hle.frame hf
    exact ⟨hlt, f', hf', hle'.locals id hid⟩
  | parameterIn => exact h.elim

/-- All references of a frame may be made by it. -/
def BacksFrame (m : Memory) (frame : Nat) (f : Frame) : Prop :=
  ∀ name place, f.parameters.get? name = some (.reference place) → m.Backs frame place

theorem BacksFrame.mono {m m' : Memory} (hle : m.Le m') {frame : Nat} {f f' : Frame}
    (h : m.BacksFrame frame f) (hf : f.Le f') : m'.BacksFrame frame f' := by
  intro name place hplace
  have hparameter := hf.parameters name
  rw [hplace, Option.map_some] at hparameter
  obtain ⟨b, hb, hbplace⟩ := Option.map_eq_some_iff.1 hparameter.symm
  cases b with
  | value => cases hbplace
  | reference place' =>
    cases hbplace
    exact (h name place hb).mono hle

/-- Everything has its type, and every reference a place to stand for. -/
structure Sound (m : Memory) : Prop where
  globals : m.globals.WellTyped
  frame : ∀ {k : Nat} {f : Frame}, m.frames[k]? = some f → f.WellTyped ∧ m.BacksFrame k f

theorem Sound.wellTyped {m : Memory} (h : m.Sound) : m.WellTyped := by
  refine ⟨h.globals, fun f hmem => ?_⟩
  obtain ⟨k, hk⟩ := Array.mem_iff_getElem?.1 hmem
  exact (h.frame hk).1

theorem sound_empty : empty.Sound :=
  ⟨Table.all_empty, fun hf => by simp [empty] at hf⟩

/-! ## Changes of a memory -/

/-- Changing one frame so that it keeps its places keeps all places. -/
theorem le_modify (m : Memory) (k : Nat) {g : Frame → Frame}
    (hle : ∀ f, m.frames[k]? = some f → f.Le (g f)) :
    m.Le { m with frames := m.frames.modify k g } := by
  refine ⟨fun _ h => h, Array.size_modify, fun {j f} hf => ?_⟩
  rw [Array.getElem?_modify]
  split
  · rename_i hkj
    subst hkj
    exact ⟨g f, by rw [hf]; rfl, hle f hf⟩
  · exact ⟨f, hf, .refl f⟩

/-- A frame that is replaced by a larger one of the right types. -/
theorem Sound.modify {m : Memory} (h : m.Sound) (k : Nat) {g : Frame → Frame}
    (hle : ∀ f, m.frames[k]? = some f → f.Le (g f))
    (htyped : ∀ f, m.frames[k]? = some f → (g f).WellTyped) :
    Sound { m with frames := m.frames.modify k g } := by
  refine ⟨h.globals, fun {j f'} hf' => ?_⟩
  rw [Array.getElem?_modify] at hf'
  split at hf'
  · rename_i hkj
    subst hkj
    obtain ⟨f, hf, rfl⟩ := Option.map_eq_some_iff.1 hf'
    exact ⟨htyped f hf, (h.frame hf).2.mono (m.le_modify k hle) (hle f hf)⟩
  · exact ⟨(h.frame hf').1, (h.frame hf').2.mono (m.le_modify k hle) (.refl f')⟩

/-- Changing the globals so that they keep their variables keeps all places. -/
theorem le_globals (m : Memory) {vs : Variables}
    (hle : ∀ id, m.globals.contains id = true → vs.contains id = true) :
    m.Le { m with globals := vs } :=
  ⟨hle, rfl, fun hf => ⟨_, hf, .refl _⟩⟩

/-- Globals that are replaced by more of them, of the right types. -/
theorem Sound.withGlobals {m : Memory} (h : m.Sound) {vs : Variables} (htyped : vs.WellTyped)
    (hle : ∀ id, m.globals.contains id = true → vs.contains id = true) :
    Sound { m with globals := vs } :=
  ⟨htyped, fun hf => ⟨(h.frame hf).1, (h.frame hf).2.mono (m.le_globals hle) (.refl _)⟩⟩

/-- A write of a value that fits the place. -/
theorem Sound.write {m : Memory} (h : m.Sound) {place : Location} {type : SlotType}
    {old value : Value} (hslot : m.slot? place = some (type, old)) (hholds : type.Holds value) :
    (m.write place value).Sound ∧ m.Le (m.write place value) := by
  cases place with
  | global id =>
    have hle : ∀ other, m.globals.contains other = true →
        (m.globals.assign id value).contains other = true := by
      intro other hother
      rw [Variables.contains_assign]
      exact hother
    refine ⟨h.withGlobals (h.globals.assign fun v hv => ?_) hle, m.le_globals hle⟩
    rw [slot?, hv] at hslot
    cases hslot
    exact hholds
  | localIn k id =>
    have hle : ∀ f, m.frames[k]? = some f → f.Le (f.assign id value) :=
      fun f _ => .assign f id value
    refine ⟨h.modify k hle fun f hf => (h.frame hf).1.assign fun v hv => ?_, m.le_modify k hle⟩
    rw [slot?, hf, Option.bind_some, hv] at hslot
    cases hslot
    exact hholds
  | parameterIn k name =>
    have hle : ∀ f, m.frames[k]? = some f → f.Le (f.assignParameter name value) :=
      fun f _ => .assignParameter f name value
    refine ⟨h.modify k hle fun f hf => (h.frame hf).1.assignParameter fun t v hv => ?_,
      m.le_modify k hle⟩
    rw [slot?, hf, Option.bind_some, hv] at hslot
    cases hslot
    exact hholds

/-- The variables of the latest call, or the globals when there is none: where declarations go. -/
def current (m : Memory) : Variables := (m.frames.back?.map (·.locals)).getD m.globals

/-- A place of the current frame stays one. -/
theorem Le.current {m m' : Memory} (h : m.Le m') {id : String}
    (hid : m.current.contains id = true) : m'.current.contains id = true := by
  unfold Memory.current at hid ⊢
  cases hb : m.frames.back? with
  | none =>
    have hsize := h.size
    rw [Array.back?_eq_none_iff.1 hb, Array.size_empty] at hsize
    rw [hb] at hid
    rw [Array.back?_eq_none_iff.2 (Array.eq_empty_of_size_eq_zero hsize)]
    exact h.globals id hid
  | some f =>
    obtain ⟨f', hf', hle⟩ := h.back hb
    rw [hb] at hid
    rw [hf']
    exact hle.locals id hid

/-- Declaring a variable adds a place for it. -/
theorem Sound.declare {m : Memory} (h : m.Sound) {v : Variable} (hproper : v.type.Proper)
    (hholds : v.type.Holds v.value) :
    (m.declare v).Sound ∧ m.Le (m.declare v) ∧ (m.declare v).current.contains v.id = true := by
  have hnew (vs : Variables) : (vs.declare v).contains v.id = true := by
    rw [Variables.declare, Table.contains_insert, beq_self_eq_true, Bool.true_or]
  unfold Memory.declare
  split
  · rename_i hempty
    have hle : ∀ id, m.globals.contains id = true → (m.globals.declare v).contains id = true := by
      intro id hid
      rw [Variables.declare, Table.contains_insert, hid, Bool.or_true]
    refine ⟨h.withGlobals (h.globals.declare hproper hholds) hle, m.le_globals hle, ?_⟩
    rw [Memory.current, Array.isEmpty_iff.1 hempty]
    exact hnew m.globals
  · rename_i hframes
    have hle : ∀ f, m.frames[m.top]? = some f →
        f.Le { f with locals := f.locals.declare v } := fun f _ => .declare f v
    refine ⟨h.modify m.top hle fun f hf => ⟨(h.frame hf).1.parameters,
      (h.frame hf).1.locals.declare hproper hholds⟩, m.le_modify m.top hle, ?_⟩
    -- there is a call, so the variable goes into its frame
    have hne : m.frames.size ≠ 0 := fun h0 =>
      hframes (Array.isEmpty_iff.2 (Array.eq_empty_of_size_eq_zero h0))
    have hpos : m.frames.size - 1 < m.frames.size := by omega
    have htop : m.top = m.frames.size - 1 := rfl
    rw [Memory.current, Array.back?_eq_getElem?, Array.size_modify, Array.getElem?_modify,
      if_pos htop, Array.getElem?_eq_getElem hpos]
    exact hnew _

/-- Entering a call. -/
theorem Sound.push {m : Memory} (h : m.Sound) {f : Frame} (htyped : f.WellTyped)
    (hbacks : m.BacksFrame m.frames.size f) : (m.push f).Sound := by
  have hmono : ∀ k g, k ≤ m.frames.size → m.BacksFrame k g → (m.push f).BacksFrame k g := by
    intro k g hk hg name place hplace
    cases place with
    | global id => exact hg name _ hplace
    | localIn j id =>
      obtain ⟨hj, fj, hfj, hid⟩ := hg name _ hplace
      refine ⟨hj, fj, ?_, hid⟩
      rw [Memory.push, Array.getElem?_push, if_neg (by omega)]
      exact hfj
    | parameterIn => exact (hg name _ hplace).elim
  refine ⟨h.globals, fun {k g} hg => ?_⟩
  rw [Memory.push, Array.getElem?_push] at hg
  split at hg
  · rename_i hk
    cases hg
    exact ⟨htyped, hmono k f (Nat.le_of_eq hk) (hk ▸ hbacks)⟩
  · have hk : k < m.frames.size := (Array.getElem?_eq_some_iff.1 hg).1
    exact ⟨(h.frame hg).1, hmono k g (Nat.le_of_lt hk) (h.frame hg).2⟩

/-- Leaving a call. -/
theorem Sound.pop {m : Memory} (h : m.Sound) : m.pop.Sound := by
  refine ⟨h.globals, fun {k g} hg => ?_⟩
  rw [Memory.pop, Array.getElem?_pop] at hg
  split at hg
  · rename_i hk
    refine ⟨(h.frame hg).1, fun name place hplace => ?_⟩
    cases place with
    | global id => exact (h.frame hg).2 name _ hplace
    | localIn j id =>
      obtain ⟨hj, f, hf, hid⟩ := (h.frame hg).2 name _ hplace
      refine ⟨hj, f, ?_, hid⟩
      -- an older frame is still there when the latest is gone
      rw [Memory.pop, Array.getElem?_pop, if_pos (by omega)]
      exact hf
    | parameterIn => exact ((h.frame hg).2 name _ hplace).elim
  · cases hg

/-- What is there before a call is there after it. -/
theorem Le.pop {m m' : Memory} {f : Frame} (h : (m.push f).Le m') : m.Le m'.pop := by
  have hsize : m'.frames.size = m.frames.size + 1 := h.size.trans (Array.size_push _)
  refine ⟨h.globals, ?_, fun {k g} hg => ?_⟩
  · rw [Memory.pop, Array.size_pop, hsize]
    rfl
  · have hk : k < m.frames.size := (Array.getElem?_eq_some_iff.1 hg).1
    have hpush : (m.push f).frames[k]? = some g := by
      rw [Memory.push, Array.getElem?_push, if_neg (by omega)]
      exact hg
    obtain ⟨g', hg', hle⟩ := h.frame hpush
    refine ⟨g', ?_, hle⟩
    rw [Memory.pop, Array.getElem?_pop, if_pos (by omega)]
    exact hg'

end Memory

end Primer
