import Primer.Proofs.Run.Ready
import Primer.Proofs.Run.Shape

/-!
# Primer.Proofs.Run.Step — what may happen to a memory at once.

`Memory.Step p` lists the changes that a run of the program `p` makes: a declaration, a write, a
frame that is entered, and frames that are left.  A write only goes where the code of the latest
call may write (`Memory.Mine`), and a frame that is entered binds the parameters of a routine of the
program, each to what suits it (`Memory.BindsAll`).  That what a point of a program may write is
such a place is proved here; that runs go by these steps is proved in `Primer.Proofs.Run.Trace`.

A step says all that happens to the memory, so what is kept by every step holds along a run.  The
places that a code may write are named by the memory alone: the variables of the current area and
the globals, and whatever its references stand for.  That names of a point are among them needs the
memory to run the routine around the point.
-/

namespace Primer

namespace Memory

variable {m m' : Memory}

/-! ## Bindings -/

/-- The code of the latest call may write here: to a variable where declarations go, to a global
one, or to a place that a parameter stands for. -/
def Mine (m : Memory) (place : Location) : Prop :=
  (∃ id, place = m.area.place id) ∨ (∃ id, place = .global id) ∨
    ∃ name, m.parameterAt? m.top name = some (.reference place)

/-- The binding is one for this parameter: a value of its type, or a place of exactly its type that
is allowed. -/
def Suits (m : Memory) (allowed : Location → Prop) (parameter : Parameter) : Binding → Prop
  | .value type _ => parameter.mode = .byValue ∧ type = parameter.type
  | .reference place => parameter.mode = .byReference ∧ allowed place ∧
      ∃ v, m.slot? place = some (.scalar parameter.type, v)

/-- These parameters are bound, each to what suits it, and nothing else is. -/
structure BindsAll (m : Memory) (allowed : Location → Prop) (parameters : List Parameter)
    (binding? : String → Option Binding) : Prop where
  bound : ∀ parameter ∈ parameters,
    ∃ b, binding? parameter.name = some b ∧ m.Suits allowed parameter b
  only : ∀ name b, binding? name = some b → ∃ parameter ∈ parameters, parameter.name = name

/-- What a run may do to the memory within one step. -/
inductive Step (p : Program) (m : Memory) : Memory → Prop
  | declare (v : Variable) : Step p m (m.declare v)
  | write {place : Location} (value : Value) (mine : m.Mine place) : Step p m (m.write place value)
  | enter {r : Routine} {table : Table Binding}
      (found : p.routines.get? r.heading.name = some r)
      (binds : m.BindsAll m.Mine r.heading.parameters table.get?) :
      Step p m (m.push { parameters := table, locals := .empty })
  | cut (k : Nat) : Step p m (m.cut k)

theorem Step.stay (p : Program) (m : Memory) : Step p m m := by
  have hcut := Step.cut (p := p) (m := m) m.frames.size
  rwa [m.cut_of_size_le (Nat.le_refl _)] at hcut

/-- What suits a parameter suits it where the allowed places have kept their types. -/
theorem Suits.imp {allowed allowed' : Location → Prop} {parameter : Parameter} {b b' : Binding}
    (h : m.Suits allowed parameter b) (hform : b'.form = b.form)
    (himp : ∀ place, b = .reference place → allowed place →
      allowed' place ∧ (m'.slot? place).map Prod.fst = (m.slot? place).map Prod.fst) :
    m'.Suits allowed' parameter b' := by
  cases b with
  | value type v =>
    cases b' with
    | value type' v' =>
      cases hform
      exact h
    | reference place' => cases hform
  | reference place =>
    cases b' with
    | value type' v' => cases hform
    | reference place' =>
      cases hform
      obtain ⟨hmode, hallowed, v, hv⟩ := h
      obtain ⟨hallowed', hslot⟩ := himp place rfl hallowed
      rw [hv] at hslot
      obtain ⟨⟨type, w⟩, hw, htype⟩ := Option.map_eq_some_iff.1 hslot
      obtain rfl : type = .scalar parameter.type := htype
      exact ⟨hmode, hallowed', w, hw⟩

/-- What suits the parameters goes by the forms of the bindings and the types of the places. -/
theorem BindsAll.imp {allowed allowed' : Location → Prop} {parameters : List Parameter}
    {binding? binding'? : String → Option Binding} (h : m.BindsAll allowed parameters binding?)
    (hforms : ∀ name, (binding'? name).map Binding.form = (binding? name).map Binding.form)
    (himp : ∀ name place, binding? name = some (.reference place) → allowed place →
      allowed' place ∧ (m'.slot? place).map Prod.fst = (m.slot? place).map Prod.fst) :
    m'.BindsAll allowed' parameters binding'? := by
  refine ⟨fun parameter hparameter => ?_, fun name b' hb' => ?_⟩
  · obtain ⟨b, hb, hsuits⟩ := h.bound parameter hparameter
    have hform := hforms parameter.name
    rw [hb] at hform
    obtain ⟨b', hb', hsame⟩ := Option.map_eq_some_iff.1 hform
    refine ⟨b', hb', hsuits.imp hsame fun place hplace => himp parameter.name place ?_⟩
    rw [hb, hplace]
  · have hform := hforms name
    rw [hb'] at hform
    obtain ⟨b, hb, -⟩ := Option.map_eq_some_iff.1 hform.symm
    exact h.only name b hb

/-- Whatever is bound suits the parameter of its name. -/
theorem BindsAll.exists_suits {allowed : Location → Prop} {parameters : List Parameter}
    {binding? : String → Option Binding} (h : m.BindsAll allowed parameters binding?)
    {name : String} {b : Binding} (hname : binding? name = some b) :
    ∃ parameter ∈ parameters, m.Suits allowed parameter b := by
  obtain ⟨parameter, hparameter, rfl⟩ := h.only name b hname
  obtain ⟨b', hb', hsuits⟩ := h.bound parameter hparameter
  rw [hname] at hb'
  cases hb'
  exact ⟨parameter, hparameter, hsuits⟩

/-- A table that binds all parameters makes a frame of their routine. -/
theorem BindsAll.binds {allowed : Location → Prop} {parameters : List Parameter}
    {table : Table Binding} (h : m.BindsAll allowed parameters table.get?) :
    Frame.Binds ⟨table, .empty⟩ parameters := by
  intro parameter hparameter
  obtain ⟨b, hb, hsuits⟩ := h.bound parameter hparameter
  refine ⟨b.place?, ?_, ?_⟩
  · show (table.get? parameter.name).map Binding.place? = some b.place?
    rw [hb, Option.map_some]
  · cases b with
    | value type v => simp [Binding.place?, hsuits.1]
    | reference place => simp [Binding.place?, hsuits.1]

/-- One more parameter, under a name that is not taken. -/
theorem BindsAll.insert {allowed : Location → Prop} {parameters : List Parameter}
    {table : Table Binding} (h : m.BindsAll allowed parameters table.get?) {parameter : Parameter}
    {b : Binding} (hb : m.Suits allowed parameter b)
    (hname : ∀ other ∈ parameters, other.name ≠ parameter.name) :
    m.BindsAll allowed (parameters ++ [parameter]) (table.insert parameter.name b).get? := by
  refine ⟨fun other hother => ?_, fun name b' hb' => ?_⟩
  · rcases List.mem_append.1 hother with hother | hother
    · obtain ⟨c, hc, hsuits⟩ := h.bound other hother
      refine ⟨c, ?_, hsuits⟩
      rw [Table.get?_insert_of_ne _ (hname other hother)]
      exact hc
    · rw [List.mem_singleton.1 hother]
      exact ⟨b, Table.get?_insert_self .., hb⟩
  · by_cases hsame : name = parameter.name
    · exact ⟨parameter, by simp, hsame.symm⟩
    · rw [Table.get?_insert_of_ne _ hsame] at hb'
      obtain ⟨other, hother, heq⟩ := h.only name b' hb'
      exact ⟨other, List.mem_append_left _ hother, heq⟩

theorem bindsAll_nil (m : Memory) (allowed : Location → Prop) :
    m.BindsAll allowed [] (Table.empty : Table Binding).get? :=
  ⟨fun _ h => absurd h List.not_mem_nil, fun _ _ h => by cases h⟩

/-! ## What keeps the shape -/

/-- A slot keeps its type. -/
theorem SameShape.slotType (h : m.SameShape m') (place : Location) :
    (m'.slot? place).map Prod.fst = (m.slot? place).map Prod.fst := by
  have hvariable (a : Area) (id : String) :
      (m'.slot? (a.place id)).map Prod.fst = (m.slot? (a.place id)).map Prod.fst := by
    have htype := congrArg (Option.map Prod.fst) (h.headers a id)
    rw [Option.map_map, Option.map_map] at htype
    rw [slot?_place, slot?_place, Option.map_map, Option.map_map]
    exact htype
  cases place with
  | global id => exact hvariable .globals id
  | localIn k id => exact hvariable (.frame k) id
  | parameterIn k name =>
    have hform := h.forms k name
    rw [slot?_parameterIn, slot?_parameterIn]
    cases hb : m.parameterAt? k name with
    | none =>
      rw [hb] at hform
      rw [Option.map_eq_none_iff.1 hform]
    | some b =>
      rw [hb] at hform
      obtain ⟨b', hb', hsame⟩ := Option.map_eq_some_iff.1 hform
      rw [hb']
      cases b <;> cases b' <;> cases hsame <;> rfl

/-- What the code of a call may write depends on the shape only. -/
theorem Mine.keep (h : m.SameShape m') {place : Location} (hmine : m.Mine place) :
    m'.Mine place := by
  unfold Mine at hmine ⊢
  rw [area_of_size_eq h.size, top, h.size]
  rcases hmine with hmine | hmine | ⟨name, hname⟩
  · exact Or.inl hmine
  · exact Or.inr (Or.inl hmine)
  · exact Or.inr (Or.inr ⟨name, (h.grows.reference_iff _ _ _).2 hname⟩)

theorem BindsAll.keep (h : m.SameShape m') {parameters : List Parameter} {table : Table Binding}
    (hbinds : m.BindsAll m.Mine parameters table.get?) :
    m'.BindsAll m'.Mine parameters table.get? :=
  hbinds.imp (fun _ => rfl) fun _ place _ hmine => ⟨hmine.keep h, h.slotType place⟩

/-! ## Places that are found -/

/-- What is found is located, and has a slot. -/
theorem slot?_of_find {id : String} {place : Location} {slot : SlotType × Value}
    (h : m.find id = .ok (place, slot)) :
    m.locate? id = some place ∧ m.slot? place = some slot := by
  unfold find at h
  cases hplace : m.locate? id with
  | none =>
    rw [hplace] at h
    cases h
  | some found =>
    rw [hplace] at h
    dsimp only at h
    cases hslot : m.slot? found with
    | none =>
      rw [hslot] at h
      cases h
    | some s =>
      rw [hslot] at h
      cases h
      exact ⟨rfl, hslot⟩

/-- The place of a parameter that is passed by reference. -/
theorem Runs.exists_reference {heading : Heading} (h : m.Runs (some heading)) {id : String}
    {parameter : Parameter} (hfind : heading.parameter? id = some parameter)
    (hmode : parameter.mode = .byReference) :
    ∃ place, m.parameterAt? m.top id = some (.reference place) := by
  obtain ⟨f, hf, hbinds⟩ := h
  rw [Array.back?_eq_getElem?] at hf
  have hname : parameter.name = id := by simpa using List.find?_some hfind
  obtain ⟨place?, hplace, hiff⟩ := hbinds parameter (List.mem_of_find?_eq_some hfind)
  rw [hname, ← parameterAt?_eq_some hf id] at hplace
  obtain ⟨b, hb, rfl⟩ := Option.map_eq_some_iff.1 hplace
  cases b with
  | value type v => cases hiff.2 hmode
  | reference place => exact ⟨place, hb⟩

end Memory

/-- A bare name that may be written is that of a parameter that is passed by reference. -/
theorem Env.byReference_of_writes {Γ : Env} {id : String} (h : Γ.names.writes id)
    (hbare : ¬ Name.isQualified id = true) :
    ∃ heading parameter, Γ.heading = some heading ∧ heading.parameter? id = some parameter ∧
      parameter.mode = .byReference := by
  obtain ⟨hresolve, hwritable⟩ := h
  unfold resolve at hresolve
  split at hresolve
  · rename_i hparameter
    have hname : Name.bare id = id := Option.some.inj hresolve
    rw [hname] at hparameter
    obtain ⟨parameter, hparameter⟩ := Option.isSome_iff_exists.1 hparameter
    obtain ⟨heading, hheading, hfind⟩ := Option.bind_eq_some_iff.1 hparameter
    refine ⟨heading, parameter, hheading, hfind, ?_⟩
    unfold isReadOnly at hwritable
    rw [hparameter] at hwritable
    cases hmode : parameter.mode with
    | byValue => simp [hmode] at hwritable
    | byReference => rfl
  · obtain ⟨l, -, heq⟩ := Option.map_eq_some_iff.1 hresolve
    rw [← heq] at hbare
    exact absurd (Name.isQualified_qualify _ _) hbare

/-- What a point may write is the business of the code that is running. -/
theorem Memory.mine_of_locate {m : Memory} {Γ : Env} (hruns : m.Runs Γ.heading) {id : String}
    (hid : Γ.names.writes id) {place : Location} (h : m.locate? id = some place) :
    m.Mine place := by
  unfold locate? at h
  split at h
  · rw [locateVariable?_eq] at h
    split at h
    · cases h
      exact Or.inl ⟨id, rfl⟩
    · split at h
      · cases h
        exact Or.inr (Or.inl ⟨id, rfl⟩)
      · cases h
  · rename_i hbare
    obtain ⟨heading, parameter, hheading, hfind, hmode⟩ := Env.byReference_of_writes hid hbare
    rw [hheading] at hruns
    obtain ⟨place', hplace⟩ := hruns.exists_reference hfind hmode
    rw [locateParameter?_eq, hplace] at h
    cases h
    exact Or.inr (Or.inr ⟨id, hplace⟩)

end Primer
