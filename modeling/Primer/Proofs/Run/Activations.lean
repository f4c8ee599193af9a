import Primer.Proofs.Run.Trace

/-!
# Primer.Proofs.Run.Activations — what calls see of each other.

Two invariants of the steps of a run.  Every frame binds the parameters of a routine, a reference
always goes to a variable of exactly the type of the parameter, global or of an older call, and
nothing that is bound ever changes (`Memory.Orderly`).  And what the calls above a frame can reach
below it, they can only reach by the references of that frame (`Memory.Closed`), so that all other
variables below keep their values while it is there.

Both are proved step by step: `Memory.Step` lists the ways in which one step of a run changes the
memory, and each invariant has one lemma that goes through them.  From there on only states are
compared, those of the run after so many steps (`Context.stateAt`).  A call is recognised by the
number of frames: it lasts as long as there are more of them than at its start.

Main statements: `Context.orderly_stateAt` and `Context.isolated_stateAt`.
-/

namespace Primer

namespace Memory

variable {p : Program} {m m' : Memory} {k : Nat}

/-! ## References to older calls -/

/-- A place that backs a parameter is a variable of an older area. -/
theorem backs_iff {place : Location} : m.Backs k place ↔
    ∃ a id, place = Area.place a id ∧ a.Below k ∧ (m.variableAt? a id).isSome = true := by
  constructor
  · intro h
    cases place with
    | global id => exact ⟨.globals, id, rfl, trivial, h⟩
    | localIn j id =>
      obtain ⟨hj, f, hf, hid⟩ := h
      refine ⟨.frame j, id, rfl, hj, ?_⟩
      rw [variableAt?, hf]
      exact hid
    | parameterIn => exact h.elim
  · rintro ⟨a, id, rfl, hbelow, hid⟩
    cases a with
    | globals => exact hid
    | frame j =>
      obtain ⟨v, hv⟩ := Option.isSome_iff_exists.1 hid
      obtain ⟨f, hf, hv⟩ := Option.bind_eq_some_iff.1 hv
      refine ⟨hbelow, f, hf, ?_⟩
      rw [Table.contains, hv]
      rfl

/-- The frame with this number is that of a routine of the program: it binds the parameters of the
routine and nothing else, values of their types and references to global variables or variables of
older calls, of exactly their types. -/
def Activates (p : Program) (m : Memory) (k : Nat) : Prop :=
  ∃ r, p.routines.get? r.heading.name = some r ∧
    m.BindsAll (m.Backs k) r.heading.parameters (m.parameterAt? k)

/-- Every frame is that of a routine of the program. -/
def Orderly (p : Program) (m : Memory) : Prop := ∀ k, k < m.frames.size → m.Activates p k

theorem Activates.backs (h : m.Activates p k) {name : String} {place : Location}
    (hname : m.parameterAt? k name = some (.reference place)) : m.Backs k place := by
  obtain ⟨r, -, hbinds⟩ := h
  obtain ⟨parameter, -, hsuits⟩ := hbinds.exists_suits hname
  exact hsuits.2.1

/-- A frame only depends on the forms of its bindings and on the variables below it. -/
theorem Activates.keep (h : m.Activates p k)
    (hforms : ∀ name,
      (m'.parameterAt? k name).map Binding.form = (m.parameterAt? k name).map Binding.form)
    (hheaders : ∀ a id, Area.Below k a →
      (m'.variableAt? a id).map Variable.header = (m.variableAt? a id).map Variable.header) :
    m'.Activates p k := by
  obtain ⟨r, hr, hbinds⟩ := h
  refine ⟨r, hr, hbinds.imp hforms fun name place _ hbacks => ?_⟩
  obtain ⟨a, id, rfl, hbelow, hid⟩ := backs_iff.1 hbacks
  have hheader := hheaders a id hbelow
  refine ⟨backs_iff.2 ⟨a, id, rfl, hbelow, ?_⟩, ?_⟩
  · simpa [hid] using congrArg Option.isSome hheader
  · have htype := congrArg (Option.map Prod.fst) hheader
    rw [Option.map_map, Option.map_map] at htype
    rw [slot?_place, slot?_place, Option.map_map, Option.map_map]
    exact htype

/-- The latest call, if there is one. -/
theorem lt_size_of_parameterAt? {name : String} {b : Binding}
    (h : m.parameterAt? k name = some b) : k < m.frames.size := by
  rcases Nat.lt_or_ge k m.frames.size with hk | hk
  · exact hk
  · rw [parameterAt?_of_size_le hk] at h
    cases h

/-- The area of the innermost call is the youngest. -/
theorem area_below (m : Memory) : m.area.Below m.frames.size := by
  unfold area
  split
  · trivial
  · exact Nat.sub_one_lt ‹_›

/-- Where the running code may write and finds a slot, the next frame may refer to. -/
theorem Orderly.backs_of_mine (h : m.Orderly p) {place : Location} (hmine : m.Mine place)
    {slot : SlotType × Value} (hslot : m.slot? place = some slot) :
    m.Backs m.frames.size place := by
  have hvariable (a : Area) (id : String) (hplace : place = a.place id)
      (hbelow : a.Below m.frames.size) : m.Backs m.frames.size place := by
    refine backs_iff.2 ⟨a, id, hplace, hbelow, ?_⟩
    rw [hplace, slot?_place] at hslot
    obtain ⟨v, hv, -⟩ := Option.map_eq_some_iff.1 hslot
    rw [hv]
    rfl
  rcases hmine with ⟨id, hplace⟩ | ⟨id, hplace⟩ | ⟨name, hname⟩
  · exact hvariable m.area id hplace m.area_below
  · exact hvariable .globals id hplace trivial
  · have htop := lt_size_of_parameterAt? hname
    exact ((h m.top htop).backs hname).weaken (Nat.le_of_lt htop)

/-- No write goes to a value that was passed. -/
theorem Orderly.ne_parameterIn (h : m.Orderly p) {place : Location} (hmine : m.Mine place)
    (name : String) : place ≠ .parameterIn k name := by
  rintro rfl
  rcases hmine with ⟨id, hplace⟩ | ⟨id, hplace⟩ | ⟨other, hother⟩
  · exact Area.place_ne_parameterIn _ _ _ _ hplace.symm
  · cases hplace
  · exact (h m.top (lt_size_of_parameterAt? hother)).backs hother

theorem area_ne_of_below (hk : k < m.frames.size) {a : Area} (hbelow : a.Below k) :
    a ≠ m.area := by
  rintro rfl
  unfold area at hbelow
  rw [if_neg (by omega)] at hbelow
  have htop : m.frames.size - 1 < k := hbelow
  omega

theorem Orderly.step (h : m.Orderly p) (hstep : m.Step p m') : m'.Orderly p := by
  intro k hk
  cases hstep with
  | declare v =>
    rw [size_declare] at hk
    refine (h k hk).keep (fun name => by rw [parameterAt?_declare]) fun a id hbelow => ?_
    rw [variableAt?_declare, if_neg fun hwhere => area_ne_of_below hk hbelow hwhere.1]
  | @write place value mine =>
    have hsame := m.sameShape_write place value
    exact (h k (hsame.size ▸ hk)).keep (hsame.forms k) fun a id _ => hsame.headers a id
  | @enter r table found binds =>
    rw [size_push] at hk
    have hold (a : Area) (id : String) (hbelow : a.Below m.frames.size) :
        (m.push ⟨table, .empty⟩).variableAt? a id = m.variableAt? a id := by
      rw [variableAt?_push, if_neg]
      rintro rfl
      exact Nat.lt_irrefl _ hbelow
    by_cases hnew : k = m.frames.size
    · -- what the calling code may write, the new frame may refer to
      subst hnew
      refine ⟨r, found, binds.imp (fun name => ?_) fun name place hplace hmine => ?_⟩
      · rw [parameterAt?_push, if_pos rfl]
      · obtain ⟨parameter, -, -, -, v, hv⟩ := binds.exists_suits hplace
        obtain ⟨a, id, rfl, hbelow, hid⟩ := backs_iff.1 (h.backs_of_mine hmine hv)
        rw [slot?_place, slot?_place, hold a id hbelow]
        refine ⟨backs_iff.2 ⟨a, id, rfl, hbelow, ?_⟩, rfl⟩
        rw [hold a id hbelow]
        exact hid
    · have hlt : k < m.frames.size := by omega
      refine (h k hlt).keep (fun name => ?_) fun a id hbelow => ?_
      · rw [parameterAt?_push, if_neg hnew]
      · rw [hold a id (Area.Below.mono hbelow (Nat.le_of_lt hlt))]
  | cut j =>
    rw [size_cut] at hk
    refine (h k (by omega)).keep (fun name => ?_) fun a id hbelow => ?_
    · rw [parameterAt?_cut, if_pos (by omega)]
    · rw [variableAt?_cut, if_pos (Area.Below.mono hbelow (by omega))]

/-- What a frame binds does not change while it is there. -/
theorem Orderly.parameterAt?_step (h : m.Orderly p) (hstep : m.Step p m') (hk : k < m.frames.size)
    (hk' : k < m'.frames.size) (name : String) :
    m'.parameterAt? k name = m.parameterAt? k name := by
  cases hstep with
  | declare v => rw [parameterAt?_declare]
  | write value mine => rw [parameterAt?_write, if_neg (h.ne_parameterIn mine name)]
  | enter found binds => rw [parameterAt?_push, if_neg (Nat.ne_of_lt hk)]
  | cut j =>
    rw [size_cut] at hk'
    rw [parameterAt?_cut, if_pos (by omega)]

/-! ## What the calls above a frame can reach -/

/-- One of the references of a frame. -/
def RefersTo (m : Memory) (k : Nat) (place : Location) : Prop :=
  ∃ name, m.parameterAt? k name = some (.reference place)

/-- What the frames above this one refer to below it, it refers to itself. -/
def Closed (m : Memory) (k : Nat) : Prop :=
  ∀ above j id, k ≤ above → j < k → m.RefersTo above (.localIn j id) → m.RefersTo k (.localIn j id)

/-- The running code writes below a frame only by the references of the frame. -/
theorem Closed.refersTo_of_mine (h : m.Closed k) (hk : k < m.frames.size) {j : Nat} {id : String}
    (hj : j < k) (hmine : m.Mine (.localIn j id)) : m.RefersTo k (.localIn j id) := by
  have htop : k ≤ m.top := Nat.le_sub_one_of_lt hk
  rcases hmine with ⟨other, hplace⟩ | ⟨other, hplace⟩ | hreference
  · -- the variables of the latest call are not below the frame
    have harea : Area.frame j = m.area :=
      (Area.place_inj.1 (show (Area.frame j).place id = m.area.place other from hplace)).1
    exact absurd harea (area_ne_of_below hk hj)
  · cases hplace
  · exact h m.top j id htop hj hreference

/-- No step opens another way down, as long as the frame is there. -/
theorem Closed.step (h : m.Closed k) (hk : k < m.frames.size) (hk' : k < m'.frames.size)
    (hstep : m.Step p m') : m'.Closed k := by
  intro above j id habove hj hrefers
  cases hstep with
  | declare v =>
    simp only [RefersTo, parameterAt?_declare] at hrefers ⊢
    exact h above j id habove hj hrefers
  | @write place value mine =>
    have hsame := m.sameShape_write place value
    simp only [RefersTo, hsame.grows.reference_iff] at hrefers ⊢
    exact h above j id habove hj hrefers
  | @enter r table found binds =>
    have hrefers' : m.RefersTo k (.localIn j id) := by
      obtain ⟨name, hname⟩ := hrefers
      rw [parameterAt?_push] at hname
      split at hname
      · -- the new frame got its references from the calling code
        obtain ⟨parameter, -, hsuits⟩ := binds.exists_suits hname
        exact h.refersTo_of_mine hk hj hsuits.2.1
      · exact h above j id habove hj ⟨name, hname⟩
    obtain ⟨name, hname⟩ := hrefers'
    refine ⟨name, ?_⟩
    rw [parameterAt?_push, if_neg (Nat.ne_of_lt hk)]
    exact hname
  | cut l =>
    rw [size_cut] at hk'
    obtain ⟨name, hname⟩ := hrefers
    rw [parameterAt?_cut] at hname
    split at hname
    · obtain ⟨name', hname'⟩ := h above j id habove hj ⟨name, hname⟩
      refine ⟨name', ?_⟩
      rw [parameterAt?_cut, if_pos (by omega)]
      exact hname'
    · cases hname

/-- While a frame is there, a variable below it that it does not refer to keeps its value. -/
theorem Closed.variableAt?_step (h : m.Closed k) (hk : k < m.frames.size) (hstep : m.Step p m')
    {j : Nat} (hj : j < k) (hj' : j < m'.frames.size) {id : String}
    (hother : ¬ m.RefersTo k (.localIn j id)) :
    m'.variableAt? (.frame j) id = m.variableAt? (.frame j) id := by
  cases hstep with
  | declare v =>
    rw [variableAt?_declare, if_neg]
    exact fun hwhere => area_ne_of_below hk (show (Area.frame j).Below k from hj) hwhere.1
  | @write place value mine =>
    rw [variableAt?_write, if_neg]
    rintro rfl
    exact hother (h.refersTo_of_mine hk hj mine)
  | enter found binds =>
    rw [variableAt?_push, if_neg]
    intro heq
    cases heq
    omega
  | cut l =>
    rw [size_cut] at hj'
    have hbelow : Area.Below l (.frame j) := (by omega : j < l)
    rw [variableAt?_cut, if_pos hbelow]

/-- A step that adds a frame enters a call. -/
theorem Step.exists_push (h : m.Step p m') (hlt : m.frames.size < m'.frames.size) :
    ∃ table, m' = m.push { parameters := table, locals := .empty } := by
  cases h with
  | declare v =>
    rw [size_declare] at hlt
    omega
  | write value mine =>
    rw [size_frames_write] at hlt
    omega
  | @enter r table found binds => exact ⟨table, rfl⟩
  | cut l =>
    rw [size_cut] at hlt
    omega

/-- A step that takes a frame away changes nothing but the frames. -/
theorem Step.exists_cut (h : m.Step p m') (hlt : m'.frames.size < m.frames.size) :
    ∃ l, m' = m.cut l := by
  cases h with
  | declare v =>
    rw [size_declare] at hlt
    omega
  | write value mine =>
    rw [size_frames_write] at hlt
    omega
  | enter found binds =>
    rw [size_push] at hlt
    omega
  | cut l => exact ⟨l, rfl⟩

end Memory

/-! ## The states of a run -/

namespace Context

variable {c : Context} {source : String}

theorem orderly_stateAt (h : Program.ofSource source = .ok c.program)
    (hframes : c.memory.frames.size = 0) (n : Nat) : (c.stateAt n).Orderly c.program := by
  induction n with
  | zero =>
    have hstart : c.memory.Orderly c.program := fun k hk => by omega
    exact hstart.step (step_stateAt_zero h hframes)
  | succ n ih => exact ih.step (step_stateAt h hframes n)

/-- What a call binds does not change while it is running. -/
theorem parameterAt?_stateAt (h : Program.ofSource source = .ok c.program)
    (hframes : c.memory.frames.size = 0) {n later k : Nat} (hle : n ≤ later)
    (hcall : ∀ i, n ≤ i → i ≤ later → k < (c.stateAt i).frames.size) (name : String) :
    (c.stateAt later).parameterAt? k name = (c.stateAt n).parameterAt? k name := by
  induction later, hle using Nat.le_induction with
  | base => rfl
  | succ later hle ih =>
    have hbefore := hcall later hle (Nat.le_succ later)
    have hafter := hcall (later + 1) (Nat.le_succ_of_le hle) (Nat.le_refl _)
    rw [(orderly_stateAt h hframes later).parameterAt?_step (step_stateAt h hframes later) hbefore
      hafter name]
    exact ih fun i hi hi' => hcall i hi (Nat.le_succ_of_le hi')

end Context

/-- The text of a program whose procedure calls itself, with a variable of its own by reference. -/
def recursionText : String :=
  "module m; procedure public p(in integer n, var integer x)\n" ++
  "variable integer y := n; variable integer z := n;\n" ++
  "if n > 0 then call p(n - 1, y); end if; let x := z; end p;\n" ++
  "beginning variable integer w := 7; call p(1, w); end m."

/-- In the run of the recursion, the second call is running from step 22 to step 35, and it does not
refer to the variable `z` of the first. -/
theorem exists_recursion : ∃ p, Program.ofSource recursionText = .ok p ∧
    let c := Context.fresh p (.ofInput [] none)
    (c.stateAt 21).frames.size = 1 ∧
    (∀ i, 21 < i → i ≤ 35 → 1 < (c.stateAt i).frames.size) ∧
    (c.stateAt 36).frames.size = 1 ∧ ¬ (c.stateAt 22).RefersTo 1 (.localIn 0 "m^p^z") := by
  have hstates : (Program.ofSource recursionText).toOption.any (fun p =>
      let c := Context.fresh p (.ofInput [] none)
      decide ((c.stateAt 21).frames.size = 1) && decide ((c.stateAt 36).frames.size = 1) &&
        (List.range 14).all (fun d => decide (1 < (c.stateAt (22 + d)).frames.size)) &&
        (c.stateAt 22).frames[1]?.any fun f => f.parameters.entries.all fun entry =>
          decide (entry.2.place? ≠ some (.localIn 0 "m^p^z"))) = true := by decide +kernel
  obtain ⟨p, hp, hall⟩ := (Option.any_eq_true _ _).1 hstates
  simp only [Bool.and_eq_true, and_assoc] at hall
  obtain ⟨hstart, hstop, hcall, hframe⟩ := hall
  obtain ⟨f, hf, hentries⟩ := (Option.any_eq_true _ _).1 hframe
  refine ⟨p, ?_, of_decide_eq_true hstart, fun i hi hi' => ?_, of_decide_eq_true hstop, ?_⟩
  · cases hread : Program.ofSource recursionText with
    | error e =>
      rw [hread] at hp
      cases hp
    | ok p' =>
      rw [hread] at hp
      cases hp
      rfl
  · have hinside := List.all_eq_true.1 hcall (i - 22) (List.mem_range.2 (by omega))
    rw [show 22 + (i - 22) = i by omega] at hinside
    exact of_decide_eq_true hinside
  · rintro ⟨name, hname⟩
    rw [Memory.parameterAt?_eq_some hf] at hname
    have hentry := List.all_eq_true.1 hentries _ (Table.mem_of_lookup hname)
    simp [Binding.place?] at hentry

namespace Context

variable {c : Context} {source : String}

/-- In every state of a run, each call has the parameters of a routine of the program: a value of
its type for one that is passed by value, and for one that is passed by reference a place of exactly
its type, which is a global variable or a variable of an older call.  And what a call binds does not
change while it is running. -/
theorem activations_stateAt (h : Program.ofSource source = .ok c.program)
    (hframes : c.memory.frames.size = 0) :
    (∀ n k, k < (c.stateAt n).frames.size → (c.stateAt n).Activates c.program k) ∧
    ∀ n later k, n ≤ later → (∀ i, n ≤ i → i ≤ later → k < (c.stateAt i).frames.size) →
      ∀ name, (c.stateAt later).parameterAt? k name = (c.stateAt n).parameterAt? k name :=
  ⟨fun n => orderly_stateAt h hframes n,
    fun _ _ _ hle hcall name => parameterAt?_stateAt h hframes hle hcall name⟩

/-- The second call of the recursion, all the time that it is running. -/
theorem recursionText_activations : ∃ p, Program.ofSource recursionText = .ok p ∧
    let c := Context.fresh p (.ofInput [] none)
    (c.stateAt 22).Activates p 1 ∧
    ∀ name, (c.stateAt 35).parameterAt? 1 name = (c.stateAt 22).parameterAt? 1 name := by
  obtain ⟨p, hp, -, hcall, -, -⟩ := exists_recursion
  obtain ⟨hactive, hkept⟩ := activations_stateAt (c := Context.fresh p (.ofInput [] none)) hp rfl
  exact ⟨p, hp, hactive 22 1 (hcall 22 (by decide) (by decide)),
    hkept 22 35 1 (by decide) fun i hi hi' => hcall i hi hi'⟩

section Isolation

variable (h : Program.ofSource source = .ok c.program) (hframes : c.memory.frames.size = 0)
  {start last k : Nat} (hstart : (c.stateAt start).frames.size = k)
  (hcall : ∀ i, start < i → i ≤ last → k < (c.stateAt i).frames.size)

include h hframes hstart hcall

/-- From its first state on, a call refers to all that the calls in it refer to below it. -/
theorem closed_stateAt {i : Nat} (hi : start < i) (hlast : i ≤ last) : (c.stateAt i).Closed k := by
  induction i, hi using Nat.le_induction with
  | base =>
    -- the call has just been entered, so there is none above it
    intro above j id habove hj hrefers
    have hnew := hcall (start + 1) (Nat.lt_succ_self start) hlast
    obtain ⟨table, htable⟩ := (step_stateAt h hframes start).exists_push (hstart.symm ▸ hnew)
    obtain ⟨name, hname⟩ := hrefers
    have hlt := Memory.lt_size_of_parameterAt? hname
    rw [htable, Memory.size_push, hstart] at hlt
    obtain rfl : above = k := by omega
    exact ⟨name, hname⟩
  | succ i hi ih =>
    have hi' : i ≤ last := Nat.le_of_succ_le hlast
    exact (ih hi').step (hcall i hi hi') (hcall (i + 1) (Nat.lt_succ_of_lt hi) hlast)
      (step_stateAt h hframes i)

/-- While a call is running, and when it has just been left, the older calls have bound what they
had bound before, and their variables that the call does not refer to are as they were. -/
theorem kept_stateAt (hlt : start < last) {i : Nat} (hi : start ≤ i) (hlast : i ≤ last + 1)
    {j : Nat} (hj : j < k) (hj' : j < (c.stateAt i).frames.size) :
    (∀ name, (c.stateAt i).parameterAt? j name = (c.stateAt start).parameterAt? j name) ∧
    ∀ id, ¬ (c.stateAt (start + 1)).RefersTo k (.localIn j id) →
      (c.stateAt i).variableAt? (.frame j) id = (c.stateAt start).variableAt? (.frame j) id := by
  induction i, hi using Nat.le_induction with
  | base => exact ⟨fun _ => rfl, fun _ _ => rfl⟩
  | succ i hi ih =>
    have hstep := step_stateAt h hframes i
    have hpresent : j < (c.stateAt i).frames.size := by
      rcases Nat.eq_or_lt_of_le hi with rfl | hi
      · rwa [hstart]
      · exact Nat.lt_trans hj (hcall i hi (Nat.le_of_succ_le_succ hlast))
    obtain ⟨hparameters, hvariables⟩ := ih (Nat.le_of_succ_le hlast) hpresent
    refine ⟨fun name => ?_, fun id hother => ?_⟩
    · rw [(orderly_stateAt h hframes i).parameterAt?_step hstep hpresent hj' name]
      exact hparameters name
    · rw [← hvariables id hother]
      rcases Nat.eq_or_lt_of_le hi with rfl | hi
      · -- entering the call changes none of the variables
        have hnew := hcall (start + 1) (Nat.lt_succ_self start) hlt
        obtain ⟨table, htable⟩ := hstep.exists_push (hstart.symm ▸ hnew)
        rw [htable, Memory.variableAt?_push, if_neg]
        intro heq
        cases heq
        omega
      · have hi' : i ≤ last := Nat.le_of_succ_le_succ hlast
        have hclosed := closed_stateAt h hframes hstart hcall hi hi'
        have hsame (name : String) := parameterAt?_stateAt h hframes (n := start + 1) hi
          (fun l hl hl' => hcall l hl (Nat.le_trans hl' hi')) name
        refine hclosed.variableAt?_step (hcall i hi hi') hstep hj hj' fun hrefers => hother ?_
        obtain ⟨name, hname⟩ := hrefers
        exact ⟨name, (hsame name).symm.trans hname⟩

/-- A call leaves the older calls alone: from the state before its frame is entered to the state in
which the frame is gone, all that they bind stays the same, and of their variables only those can
change that the call itself was given by reference.  A frame that is left, also after an error,
takes nothing with it but the frames above. -/
theorem isolated_stateAt (hlt : start < last) :
    (∀ i, start ≤ i → i ≤ last + 1 → ∀ j, j < k → j < (c.stateAt i).frames.size →
      (∀ name, (c.stateAt i).parameterAt? j name = (c.stateAt start).parameterAt? j name) ∧
      ∀ id, ¬ (c.stateAt (start + 1)).RefersTo k (.localIn j id) →
        (c.stateAt i).variableAt? (.frame j) id = (c.stateAt start).variableAt? (.frame j) id) ∧
    ((c.stateAt (last + 1)).frames.size ≤ k →
      ∃ l, c.stateAt (last + 1) = (c.stateAt last).cut l) := by
  refine ⟨fun i hi hi' j hj hj' => kept_stateAt h hframes hstart hcall hlt hi hi' hj hj',
    fun hgone => ?_⟩
  have hthere := hcall last hlt (Nat.le_refl last)
  exact (step_stateAt h hframes last).exists_cut (Nat.lt_of_le_of_lt hgone hthere)

end Isolation

/-- The second call of the recursion: the first keeps its parameters and its variable `z`. -/
theorem recursionText_isolated : ∃ p, Program.ofSource recursionText = .ok p ∧
    let c := Context.fresh p (.ofInput [] none)
    (c.stateAt 36).frames.size = 1 ∧
    (∀ name, (c.stateAt 36).parameterAt? 0 name = (c.stateAt 21).parameterAt? 0 name) ∧
    (c.stateAt 36).variableAt? (.frame 0) "m^p^z"
      = (c.stateAt 21).variableAt? (.frame 0) "m^p^z" := by
  obtain ⟨p, hp, hstart, hcall, hstop, hother⟩ := exists_recursion
  obtain ⟨hkept, -⟩ := isolated_stateAt hp rfl hstart hcall (by decide)
  obtain ⟨hparameters, hvariables⟩ := hkept 36 (by decide) (by decide) 0 (by decide)
    (by rw [hstop]; decide)
  exact ⟨p, hp, hstop, hparameters, hvariables "m^p^z" hother⟩

end Context

end Primer
