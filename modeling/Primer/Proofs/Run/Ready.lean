import Primer.Proofs.Run.Triple
import Primer.Proofs.Scope.Env

/-!
# Primer.Proofs.Run.Ready — memories in which the names of a point have their places.

`Env.Ready` is the link between the text of a program and its runs: when a point is reached, the
names declared in the blocks around it have slots where they are looked for, and the frame of the
call binds the parameters of the routine around it.  So everything that the point may name is found
in the memory, and what it may write is never a value that was passed.

Both halves of a look-up are used: the parameters of the current call come first, then the variables
of its frame, then the globals.  A name of the point is either a parameter of the heading, and then
`Memory.Runs` binds it, or it was declared on a level of the point, and then the level has a slot.
`Ready.locate` puts the two together; the lemmas behind it say what reading and writing at the place
may answer.
-/

namespace Primer

/-! ## Places that are found -/

namespace Memory

variable {m : Memory}

/-- What a slot holds fits its type. -/
theorem Sound.slot (h : m.Sound) {place : Location} {type : SlotType} {v : Value}
    (hslot : m.slot? place = some (type, v)) : type.Proper ∧ type.Holds v := by
  cases place with
  | global id =>
    obtain ⟨w, hw, heq⟩ := Option.map_eq_some_iff.1 hslot
    cases heq
    exact (Table.All.get h.globals hw).2
  | localIn k id =>
    obtain ⟨w, hw, heq⟩ := Option.map_eq_some_iff.1 hslot
    obtain ⟨f, hf, hw⟩ := Option.bind_eq_some_iff.1 hw
    cases heq
    exact (Table.All.get (h.frame hf).1.locals hw).2
  | parameterIn k name =>
    rw [slot?] at hslot
    split at hslot
    · rename_i t w hw
      obtain ⟨f, hf, hw⟩ := Option.bind_eq_some_iff.1 hw
      cases hslot
      exact ⟨trivial, (h.frame hf).1.parameters.get hw⟩
    · cases hslot

/-- A reference goes to a place with a slot. -/
theorem Backs.exists_slot {frame : Nat} {place : Location} (h : m.Backs frame place) :
    ∃ slot, m.slot? place = some slot := by
  cases place with
  | global id =>
    obtain ⟨v, hv⟩ := Option.isSome_iff_exists.1 h
    exact ⟨_, by rw [slot?, hv]; rfl⟩
  | localIn k id =>
    obtain ⟨-, f, hf, hid⟩ := h
    obtain ⟨v, hv⟩ := Option.isSome_iff_exists.1 hid
    exact ⟨_, by rw [slot?, hf, Option.bind_some, hv]; rfl⟩
  | parameterIn => exact h.elim

theorem Backs.weaken {frame frame' : Nat} {place : Location} (h : m.Backs frame place)
    (hle : frame ≤ frame') : m.Backs frame' place := by
  cases place with
  | global id => exact h
  | localIn k id => exact ⟨Nat.lt_of_lt_of_le h.1 hle, h.2⟩
  | parameterIn => exact h.elim

theorem lt_size_of_back {f : Frame} (h : m.frames.back? = some f) : m.top < m.frames.size := by
  rw [Array.back?_eq_getElem?] at h
  exact (Array.getElem?_eq_some_iff.1 h).1

/-- A variable of the latest call or of the unit is found where a reference may go. -/
theorem exists_locateVariable {id : String}
    (h : m.current.contains id = true ∨ m.globals.contains id = true) :
    ∃ place, m.locateVariable? id = some place ∧ m.Backs m.frames.size place := by
  unfold locateVariable?
  split
  · rename_i hlocal
    cases hb : m.frames.back? with
    | none =>
      rw [hb] at hlocal
      cases hlocal
    | some f =>
      rw [hb] at hlocal
      refine ⟨_, rfl, lt_size_of_back hb, f, ?_, hlocal⟩
      rw [← hb, Array.back?_eq_getElem?]
      rfl
  · rename_i hlocal
    have hglobal : m.globals.contains id = true := by
      rcases h with h | h
      · unfold current at h
        cases hb : m.frames.back? with
        | none =>
          rw [hb] at h
          exact h
        | some f =>
          rw [hb] at h hlocal
          exact absurd h hlocal
      · exact h
    rw [if_pos hglobal]
    exact ⟨_, rfl, hglobal⟩

end Memory

/-! ## Points that are reached -/

/-- The frame binds every parameter, to a place of the caller if it was passed by reference and to a
value of its own otherwise. -/
def Frame.Binds (f : Frame) (parameters : List Parameter) : Prop :=
  ∀ parameter ∈ parameters, ∃ place,
    (f.parameters.get? parameter.name).map Binding.place? = some place ∧
      (place.isSome = true ↔ parameter.mode = .byReference)

/-- What binds parameters binds them while places are added. -/
theorem Frame.Binds.mono {f f' : Frame} {parameters : List Parameter} (h : f.Binds parameters)
    (hle : f.Le f') : f'.Binds parameters := by
  intro parameter hmem
  rw [hle.parameters]
  exact h parameter hmem

/-- No call is running, or the latest one is of this routine. -/
def Memory.Runs (m : Memory) : Option Heading → Prop
  | none => m.frames.size = 0
  | some heading => ∃ f, m.frames.back? = some f ∧ f.Binds heading.parameters

/-- A memory runs a routine while places are added. -/
theorem Memory.Runs.mono {m m' : Memory} {heading : Option Heading} (h : m.Runs heading)
    (hle : m.Le m') : m'.Runs heading := by
  cases heading with
  | none => exact hle.size.trans h
  | some heading =>
    obtain ⟨f, hf, hbinds⟩ := h
    obtain ⟨f', hf', hle'⟩ := hle.back hf
    exact ⟨f', hf', hbinds.mono hle'⟩

/-- The names of a point have places. -/
structure Env.Ready (Γ : Env) (m : Memory) : Prop where
  unit : ∀ name ∈ Γ.unit.names,
    m.globals.contains (Name.qualify Γ.unit.scope name) = true
  inner : ∀ l ∈ Γ.inner, ∀ name ∈ l.names,
    m.current.contains (Name.qualify l.scope name) = true
  runs : m.Runs Γ.heading

namespace Env

variable {Γ : Env}

/-- A point that is ready stays ready while places are added. -/
theorem lasting_ready (Γ : Env) : Memory.Lasting Γ.Ready := by
  intro m m' hle h
  exact ⟨fun name hname => hle.globals _ (h.unit name hname),
    fun l hl name hname => hle.current (h.inner l hl name hname), h.runs.mono hle⟩

namespace Ready

variable {m : Memory} {id : String}

/-- A parameter has a place; one that was passed by reference has the place of a variable. -/
theorem locate_parameter (h : Γ.Ready m) (hm : m.Sound) (hid : Name.IsSegment id)
    {heading : Heading} {parameter : Parameter} (hheading : Γ.heading = some heading)
    (hparameter : heading.parameter? id = some parameter) :
    ∃ place, m.locate? id = some place ∧ (∃ slot, m.slot? place = some slot) ∧
      (parameter.mode = .byReference → m.Backs m.frames.size place) := by
  have hruns := h.runs
  rw [hheading] at hruns
  obtain ⟨f, hf, hbinds⟩ := hruns
  have hname : parameter.name = id := by simpa using List.find?_some hparameter
  obtain ⟨place?, hplace, hmode⟩ := hbinds parameter (List.mem_of_find?_eq_some hparameter)
  rw [hname] at hplace
  obtain ⟨b, hb, rfl⟩ := Option.map_eq_some_iff.1 hplace
  have htop : m.frames[m.top]? = some f := by
    rw [← hf, Array.back?_eq_getElem?]
    rfl
  rw [Memory.locate?, Name.isQualified_eq_false hid]
  unfold Memory.locateParameter?
  rw [hf, Option.bind_some, hb]
  -- a value has its place in the frame, a reference stands for a place of the caller
  cases b with
  | value t v =>
    refine ⟨_, rfl, ⟨(.scalar t, v), ?_⟩, fun hreference => ?_⟩
    · rw [Memory.slot?, htop, Option.bind_some, hb]
    · cases hmode.2 hreference
  | reference place =>
    have hbacks := (hm.frame htop).2 id place hb
    exact ⟨place, rfl, hbacks.exists_slot,
      fun _ => hbacks.weaken (Nat.le_of_lt (Memory.lt_size_of_back hf))⟩

/-- A variable has a place. -/
theorem locate_variable (h : Γ.Ready m) {l : Level} (hl : l ∈ Γ.levels) {name : String}
    (hname : name ∈ l.names) :
    ∃ place, m.locate? (Name.qualify l.scope name) = some place ∧ m.Backs m.frames.size place := by
  rw [Memory.locate?, Name.isQualified_qualify, if_pos rfl]
  refine Memory.exists_locateVariable ?_
  rcases List.mem_append.1 hl with hl | hl
  · exact Or.inl (h.inner l hl name hname)
  · rw [List.mem_singleton.1 hl] at hname ⊢
    exact Or.inr (h.unit name hname)

/-- Whatever may be named is found, and what may be written is found where a reference may go. -/
theorem locate (h : Γ.Ready m) (hm : m.Sound) (hid : Γ.names.reads id) :
    ∃ place, m.locate? id = some place ∧ (∃ slot, m.slot? place = some slot) ∧
      (Γ.isReadOnly id = false → m.Backs m.frames.size place) := by
  have hresolve : Γ.resolve (Name.bare id) = some id := hid
  unfold resolve at hresolve
  split at hresolve
  · rename_i hparameter
    have hbare : Name.bare id = id := Option.some.inj hresolve
    have hsegment : Name.IsSegment id := hbare ▸ Name.isSegment_bare id
    rw [hbare, isParameter] at hparameter
    obtain ⟨parameter, hparameter⟩ := Option.isSome_iff_exists.1 hparameter
    obtain ⟨heading, hheading, hfind⟩ := Option.bind_eq_some_iff.1 hparameter
    obtain ⟨place, hplace, hslot, hbacks⟩ := h.locate_parameter hm hsegment hheading hfind
    refine ⟨place, hplace, hslot, fun hwrite => hbacks ?_⟩
    rw [isReadOnly, hparameter] at hwrite
    have hvalue : parameter.mode ≠ .byValue := of_decide_eq_false hwrite
    cases hmode : parameter.mode with
    | byValue => exact absurd hmode hvalue
    | byReference => rfl
  · obtain ⟨l, hl, heq⟩ := Option.map_eq_some_iff.1 hresolve
    have hname : Name.bare id ∈ l.names := by simpa using List.find?_some hl
    obtain ⟨place, hplace, hbacks⟩ := h.locate_variable (List.mem_of_find?_eq_some hl) hname
    rw [heq] at hplace
    exact ⟨place, hplace, hbacks.exists_slot, fun _ => hbacks⟩

/-- Looking up what may be named gives a slot. -/
theorem meets_find (h : Γ.Ready m) (hm : m.Sound) (hid : Γ.names.reads id) :
    Meets (m.find id) fun slot => m.slot? slot.1 = some slot.2 ∧
      (Γ.isReadOnly id = false → m.Backs m.frames.size slot.1) := by
  obtain ⟨place, hplace, ⟨slot, hslot⟩, hbacks⟩ := h.locate hm hid
  rw [Memory.find, hplace]
  dsimp only
  rw [hslot]
  exact ⟨hslot, hbacks⟩

/-- A name that may be read has a regular value. -/
theorem meets_load (h : Γ.Ready m) (hm : m.Sound) (hid : Γ.names.reads id) :
    Meets (m.load id) Value.Regular := by
  have hfind := h.meets_find hm hid
  rw [Memory.load]
  cases hslot : m.find id with
  | ok slot =>
    rw [hslot] at hfind
    obtain ⟨hproper, hholds⟩ := hm.slot hfind.1
    exact hholds.regular hproper
  | error fault =>
    rw [hslot] at hfind
    exact hfind

/-- A name that may be read has a type, also in part. -/
theorem meets_addressedType (h : Γ.Ready m) (hm : m.Sound) (hid : Γ.names.reads id)
    (depth : Nat) : Meets (m.addressedType id depth) fun _ => True := by
  refine (h.meets_find hm hid).bind fun slot _ => ?_
  obtain ⟨place, type, old⟩ := slot
  dsimp only
  cases type.indexed? depth with
  | none => exact fun hunbound => hunbound
  | some addressed => trivial

/-- A store keeps the memory sound and all its places. -/
theorem meets_store (h : Γ.Ready m) (hm : m.Sound) (hid : Γ.names.writes id) {v : Value}
    (hv : v.Regular) (indices : List Integer) :
    Meets (m.store id indices v) fun m' => m'.Sound ∧ m.Le m' := by
  refine (h.meets_find hm hid.1).bind fun slot hslot => ?_
  obtain ⟨place, type, old⟩ := slot
  obtain ⟨hproper, hholds⟩ := hm.slot hslot.1
  dsimp only
  split
  · exact (hv.meets_coerce type).bind fun w hw => hm.write hslot.1 hw
  -- one element or row is replaced, and all sizes stay
  · refine (Grid.meets_asGrid old).bind fun g hg => ?_
    rw [← hg] at hholds
    refine (Grid.meets_store hproper.sizes_pos hholds hv indices).bind fun g' hg' => ?_
    exact hm.write hslot.1 hg'

end Ready

/-! ## Ready for the next point -/

/-- What a declaration adds to a block is the variable that it declares.  Outside all blocks of the
unit no call is running, so that there it is a global one. -/
theorem Ready.declare {m m' : Memory} (h : Γ.Ready m) (hle : m.Le m') {name : String}
    (houter : Γ.inner = [] → Γ.heading = none)
    (hnew : m'.current.contains (Name.qualify Γ.scope name) = true) :
    (Γ.declare name).Ready m' := by
  have hready := Γ.lasting_ready hle h
  unfold Env.declare
  unfold Env.scope at hnew
  split
  · rename_i hinner
    -- no call is running, so the variable is a global one
    have hruns := hready.runs
    rw [houter hinner] at hruns
    rw [hinner, Memory.current, Array.back?_eq_none_iff.2 (Array.eq_empty_of_size_eq_zero hruns)]
      at hnew
    refine ⟨fun other hother => ?_, fun l hl => ?_, hready.runs⟩
    · rcases List.mem_append.1 hother with hother | hother
      · exact hready.unit other hother
      · rw [List.mem_singleton.1 hother]
        exact hnew
    · rw [hinner] at hl
      cases hl
  · rename_i l outer hinner
    rw [hinner] at hnew
    refine ⟨hready.unit, fun l' hl' other hother => ?_, hready.runs⟩
    rcases List.mem_cons.1 hl' with rfl | hl'
    · rcases List.mem_append.1 hother with hother | hother
      · exact hready.inner l (by rw [hinner]; exact List.mem_cons_self) other hother
      · rw [List.mem_singleton.1 hother]
        exact hnew
    · exact hready.inner l' (by rw [hinner]; exact List.mem_cons_of_mem _ hl') other hother

/-- A block that is no routine starts without names of its own. -/
theorem Ready.push {m : Memory} (h : Γ.Ready m) (scope : String) :
    ({ Γ with inner := ⟨scope, []⟩ :: Γ.inner } : Env).Ready m := by
  refine ⟨h.unit, fun l hl name hname => ?_, h.runs⟩
  rcases List.mem_cons.1 hl with rfl | hl
  · cases hname
  · exact h.inner l hl name hname

/-- The body of a routine is ready in a frame that binds its parameters, if the unit has declared
what it had when the routine was read. -/
theorem Ready.enterRoutine {Γ' : Env} {m : Memory} (h : Γ.Ready m)
    (hscope : Γ'.unit.scope = Γ.unit.scope) (hnames : Γ'.unit.names ⊆ Γ.unit.names) {f : Frame}
    {heading : Heading} (hbinds : f.Binds heading.parameters) :
    (Γ'.enter (.routine heading)).Ready (m.push f) := by
  refine ⟨fun name hname => ?_, fun l hl name hname => ?_, f, Array.back?_push, hbinds⟩
  · show m.globals.contains (Name.qualify Γ'.unit.scope name) = true
    rw [hscope]
    exact h.unit name (hnames hname)
  · rw [List.mem_singleton.1 hl] at hname
    cases hname

end Env

end Primer
