import Primer.Proofs.Run.Activations
import Primer.Proofs.Run.Alike
import Primer.Proofs.Scope.Fresh

/-!
# Primer.Proofs.Run.Leftovers — no stale value is ever read.

Nothing is cleaned up when a block is left.  A block that is entered again, in the next turn of a
loop or in the next run of a context, finds the variables of the last time under the very ids that
it declares.  They are never looked at: a name only means a variable that was declared on the way to
it, so what a block declares inside is declared anew before it is used.

`Env.Avoids Γ area ids m` says that nothing that the point `Γ` can reach in the memory is one of
these leftovers.  Every run at a point of an accepted program keeps this, and therefore ignores them
(`Program.Leads.ignores`).  Main statement: `Program.ofSource_ignores_leftovers`.

A point avoids a leftover if it can reach it neither by a name of its own nor by a reference of its
call: the name means something else, declared further in, or the variable lies in another area.  A
declaration that comes anew takes its id out of the leftovers in both runs at once, since it writes
the same value in both.  So the induction over the rules of `Leads` has a set of leftovers that only
shrinks, and at the end the two memories differ in what is left of it.
-/

namespace Primer

/-! ## Points that reach no leftovers -/

/-- None of the variables that can be named at the point, and none that is referred to, is one of
these variables of the area.  A variable of an inner block is found in the latest call; if this is
not the area, the variables of the area are hidden by it. -/
structure Env.Avoids (Γ : Env) (area : Area) (ids : Set String) (m : Memory) : Prop where
  below : area.Below m.frames.size
  unit : ∀ name ∈ Γ.unit.names, Name.qualify Γ.unit.scope name ∉ ids
  inner : ∀ l ∈ Γ.inner, ∀ name ∈ l.names,
    (m.area = area ∧ Name.qualify l.scope name ∉ ids) ∨
      (m.area ≠ area ∧ (m.variableAt? m.area (Name.qualify l.scope name)).isSome = true)
  references : ∀ name id, m.parameterAt? m.top name = some (.reference (area.place id)) → id ∉ ids
  outside : Γ.inner = [] → m.area = area

namespace Env.Avoids

variable {Γ : Env} {area : Area} {ids left : Set String} {m m' : Memory} {id : String}

/-- A variable that can be named is no leftover, or is found in front of them. -/
theorem not_mem_or_hidden (h : Γ.Avoids area ids m) (hid : Γ.names.reads id)
    (hqualified : Name.isQualified id = true) :
    id ∉ ids ∨ (m.area ≠ area ∧ (m.variableAt? m.area id).isSome = true) := by
  have hresolve : Γ.resolve (Name.bare id) = some id := hid
  unfold resolve at hresolve
  split at hresolve
  · -- a parameter has no scope in its id
    have hbare : Name.bare id = id := Option.some.inj hresolve
    have hsegment : Name.IsSegment id := hbare ▸ Name.isSegment_bare id
    rw [Name.isQualified_eq_false hsegment] at hqualified
    cases hqualified
  · obtain ⟨l, hl, heq⟩ := Option.map_eq_some_iff.1 hresolve
    have hname : Name.bare id ∈ l.names := by simpa using List.find?_some hl
    rcases List.mem_append.1 (List.mem_of_find?_eq_some hl) with hl | hl
    · have hinner := h.inner l hl _ hname
      rw [heq] at hinner
      exact hinner.imp And.right fun hhidden => hhidden
    · rw [List.mem_singleton.1 hl] at hname heq
      have hunit := h.unit _ hname
      rw [heq] at hunit
      exact Or.inl hunit

/-- What can be named is found at the same place. -/
theorem locate?_eq (h : Γ.Avoids area ids m) (hm : m.AgreesBut area ids m')
    (hid : Γ.names.reads id) : m'.locate? id = m.locate? id := by
  have htop : m'.top = m.top := by rw [Memory.top, Memory.top, hm.size]
  unfold Memory.locate?
  split
  · rename_i hqualified
    rw [Memory.locateVariable?_eq, Memory.locateVariable?_eq, hm.area_eq]
    rcases h.not_mem_or_hidden hid hqualified with hnot | ⟨hother, hpresent⟩
    · have hsame (a : Area) : m'.variableAt? a id = m.variableAt? a id :=
        hm.elsewhere a id fun hin => hnot hin.2
      rw [hsame, hsame]
    · rw [hm.elsewhere m.area id fun hin => hother hin.1, if_pos hpresent, if_pos hpresent]
  · rw [Memory.locateParameter?_eq, Memory.locateParameter?_eq, htop, hm.parameters]

/-- The place of what can be named is not that of a leftover. -/
theorem not_mem_of_locate? (h : Γ.Avoids area ids m) (hid : Γ.names.reads id) {x : String}
    (hplace : m.locate? id = some (area.place x)) : x ∉ ids := by
  unfold Memory.locate? at hplace
  split at hplace
  · rename_i hqualified
    rw [Memory.locateVariable?_eq] at hplace
    rcases h.not_mem_or_hidden hid hqualified with hnot | ⟨hother, hpresent⟩
    · have hx : id = x := by
        split at hplace
        · exact (Area.place_inj.1 (Option.some.inj hplace)).2
        · split at hplace
          · exact (Area.place_inj.1 (Option.some.inj hplace)).2
          · cases hplace
      exact hx ▸ hnot
    · rw [if_pos hpresent] at hplace
      exact absurd (Area.place_inj.1 (Option.some.inj hplace)).1 hother
  · rw [Memory.locateParameter?_eq] at hplace
    split at hplace
    · rename_i place hname
      cases hplace
      exact h.references id x hname
    · exact absurd (Option.some.inj hplace).symm (Area.place_ne_parameterIn _ _ _ _)
    · cases hplace

/-- What can be named has the same value. -/
theorem find_eq (h : Γ.Avoids area ids m) (hm : m.AgreesBut area ids m')
    (hid : Γ.names.reads id) : m'.find id = m.find id := by
  unfold Memory.find
  rw [h.locate?_eq hm hid]
  cases hplace : m.locate? id with
  | none => rfl
  | some place =>
    dsimp only
    rw [hm.slot?_eq fun x hx => h.not_mem_of_locate? hid (hx ▸ hplace)]

/-! ## On the way -/

/-- A memory that grows gives no new way to a leftover. -/
theorem grows (h : Γ.Avoids area ids m) (hgrows : m.Grows m') (hsub : left ⊆ ids) :
    Γ.Avoids area left m' := by
  have harea := hgrows.area_eq
  have htop : m'.top = m.top := by rw [Memory.top, Memory.top, hgrows.size]
  refine ⟨hgrows.size ▸ h.below, fun name hname hin => h.unit name hname (hsub hin),
    fun l hl name hname => ?_, fun name x hname hin => ?_, fun hinner => ?_⟩
  · rw [harea]
    rcases h.inner l hl name hname with ⟨hsame, hnot⟩ | ⟨hother, hpresent⟩
    · exact Or.inl ⟨hsame, fun hin => hnot (hsub hin)⟩
    · exact Or.inr ⟨hother, hgrows.isSome hpresent⟩
  · rw [htop, hgrows.reference_iff] at hname
    exact h.references name x hname (hsub hin)
  · rw [harea]
    exact h.outside hinner

/-- A block that is no routine starts without names of its own. -/
theorem push (h : Γ.Avoids area ids m) (scope : String) :
    ({ Γ with inner := ⟨scope, []⟩ :: Γ.inner } : Env).Avoids area ids m := by
  refine ⟨h.below, h.unit, fun l hl name hname => ?_, h.references, fun hnil => by cases hnil⟩
  rcases List.mem_cons.1 hl with rfl | hl
  · cases hname
  · exact h.inner l hl name hname

/-- What is declared is not left over, and can be named from now on. -/
theorem declare (h : Γ.Avoids area ids m) {name : String} {v : Variable}
    (hid : v.id = Name.qualify Γ.scope name) :
    (Γ.declare name).Avoids area {id ∈ ids | ¬ (m.area = area ∧ id = v.id)} (m.declare v) := by
  have hgrown := h.grows (m.grows_declare v)
    (show {id ∈ ids | ¬ (m.area = area ∧ id = v.id)} ⊆ ids from fun _ hin => hin.1)
  have harea : (m.declare v).area = m.area := (m.grows_declare v).area_eq
  unfold Env.declare
  unfold Env.scope at hid
  split
  · rename_i hinner
    rw [hinner] at hid
    refine ⟨hgrown.below, fun other hother => ?_, hgrown.inner, hgrown.references, hgrown.outside⟩
    rcases List.mem_append.1 hother with hother | hother
    · exact hgrown.unit other hother
    · -- outside all blocks declarations go to the area
      rw [List.mem_singleton.1 hother]
      exact fun hin => hin.2 ⟨h.outside hinner, hid.symm⟩
  · rename_i l outer hinner
    rw [hinner] at hid
    refine ⟨hgrown.below, hgrown.unit, fun l' hl' other hother => ?_, hgrown.references,
      fun hnil => by cases hnil⟩
    rcases List.mem_cons.1 hl' with rfl | hl'
    · rcases List.mem_append.1 hother with hother | hother
      · exact hgrown.inner l (by rw [hinner]; exact List.mem_cons_self) other hother
      · rw [List.mem_singleton.1 hother, harea]
        have hnew : Name.qualify l.scope name = v.id := hid.symm
        by_cases hsame : m.area = area
        · exact Or.inl ⟨hsame, fun hin => hin.2 ⟨hsame, hnew⟩⟩
        · refine Or.inr ⟨hsame, ?_⟩
          rw [Memory.variableAt?_declare, if_pos ⟨rfl, hnew⟩]
          rfl
    · exact hgrown.inner l' (by rw [hinner]; exact List.mem_cons_of_mem _ hl') other hother

end Env.Avoids

/-- None of these bindings refers to a leftover. -/
def Table.Spares (table : Table Binding) (area : Area) (ids : Set String) : Prop :=
  ∀ name id, table.get? name = some (.reference (area.place id)) → id ∉ ids

namespace Table.Spares

variable {table : Table Binding} {area : Area} {ids left : Set String}

theorem mono (h : table.Spares area ids) (hsub : left ⊆ ids) : table.Spares area left :=
  fun name id hname hin => h name id hname (hsub hin)

theorem insert (h : table.Spares area ids) {b : Binding}
    (hb : ∀ id, b = .reference (area.place id) → id ∉ ids) (name : String) :
    Spares (table.insert name b) area ids := by
  intro other id hother
  by_cases hsame : other = name
  · rw [hsame, get?_insert_self] at hother
    exact hb id (Option.some.inj hother)
  · rw [get?_insert_of_ne _ hsame] at hother
    exact h other id hother

end Table.Spares

/-- The body of a routine that is called starts in a frame in front of all leftovers. -/
theorem Env.Avoids.enterRoutine {Γ Γ' : Env} {area : Area} {ids : Set String} {m : Memory}
    (h : Γ.Avoids area ids m) (hscope : Γ'.unit.scope = Γ.unit.scope)
    (hnames : Γ'.unit.names ⊆ Γ.unit.names) (heading : Heading) {table : Table Binding}
    (htable : table.Spares area ids) :
    (Γ'.enter (.routine heading)).Avoids area ids (m.push ⟨table, .empty⟩) := by
  refine ⟨?_, fun name hname => ?_, fun l hl name hname => ?_, fun name id hname => ?_,
    fun hnil => by cases hnil⟩
  · rw [Memory.size_push]
    exact h.below.mono (Nat.le_succ _)
  · show Name.qualify Γ'.unit.scope name ∉ ids
    rw [hscope]
    exact h.unit name (hnames hname)
  · rw [List.mem_singleton.1 hl] at hname
    cases hname
  · rw [Memory.top_push, Memory.parameterAt?_push, if_pos rfl] at hname
    exact htable name id hname

namespace Program

variable {p : Program} {Γ Δ : Env} {calls : Calls} {area : Area}
  {first : String → Option Variable}

/-! ## Runs ignore leftovers -/

/-- The point reaches no leftovers, and the table refers to none. -/
def Clean (Γ : Env) (area : Area) (table : Table Binding) (ids : Set String) (m : Memory) : Prop :=
  Γ.Avoids area ids m ∧ table.Spares area ids

/-- What a table of arguments spares, it spares while the memory grows. -/
theorem Clean.grows {table : Table Binding} {ids left : Set String} {m m' : Memory}
    (hsub : left ⊆ ids) (hgrows : m.Grows m') (h : Clean Γ area table ids m) :
    Clean Γ area table left m' :=
  ⟨h.1.grows hgrows hsub, h.2.mono hsub⟩

/-- A store at a name of the point goes to no leftover. -/
theorem ignores_store {id : String} {line : Nat} (hid : Γ.names.writes id) (indices : List Integer)
    (value : Value) : Run.Ignores area first (Γ.Avoids area) (Run.store id indices value line)
      fun _ => Γ.Avoids area := by
  intro m m' ids halike h
  rw [Run.store_run, Run.store_run, Memory.store_eq, Memory.store_eq,
    h.find_eq halike.memory hid.1]
  cases hfind : m.memory.find id with
  | error fault => exact .error (fun _ h => h) halike
  | ok found =>
    obtain ⟨place, type, old⟩ := found
    dsimp only
    cases Memory.stored type old indices value with
    | error fault => exact .error (fun _ h => h) halike
    | ok v =>
      have hgrows := (m.memory.sameShape_write place v).grows
      refine Run.matched_tick (fun _ h => h) ⟨halike.console, halike.steps,
        halike.memory.write place v, fun x hx => ?_⟩ (h.grows hgrows fun _ h => h)
      -- what is written is none of the leftovers
      show (m.memory.write place v).variableAt? area x = first x
      rw [Memory.variableAt?_write, if_neg]
      · exact halike.untouched x hx
      · rintro rfl
        exact h.not_mem_of_locate? hid.1 (Memory.slot?_of_find hfind).1 hx

/-- A declaration replaces the leftover of its id, if there is one. -/
theorem ignores_declare {name : String} {v : Variable} (hid : v.id = Name.qualify Γ.scope name) :
    Run.Ignores area first (Γ.Avoids area) (Run.declare v)
      fun _ => (Γ.declare name).Avoids area := by
  intro m m' ids halike h
  refine Run.matched_tick (fun _ hx => hx.1) ⟨halike.console, halike.steps,
    halike.memory.declare v, fun x hx => ?_⟩ (h.declare hid)
  show (m.memory.declare v).variableAt? area x = first x
  rw [Memory.variableAt?_declare, if_neg fun hnew => hx.2 ⟨hnew.1.symm, hnew.2⟩]
  exact halike.untouched x hx.1

/-- One argument is bound alike. -/
theorem ignores_bind (hshapely : Run.ShapelyCalls calls) (routine : String) (parameter : Parameter)
    (argument : Argument) (hfit : Expr.FitArgument Γ.names parameter.mode argument)
    (hvalue : ∀ e, argument = .value e → Run.Ignores area first (Γ.Avoids area)
      (Run.evaluate calls e) fun _ => Γ.Avoids area) (table : Table Binding) :
    Run.Ignores area first (Clean Γ area table) (bind calls routine parameter argument)
      fun b => Clean Γ area (table.insert parameter.name b) := by
  cases argument with
  | value e =>
    have hevaluate := (hvalue e rfl).keep (Run.keeps_evaluate hshapely e).grows
      (I := fun ids _ => table.Spares area ids) fun hsub _ h => h.mono hsub
    refine hevaluate.bind fun v => .bind (.atLine _) fun w => .pure fun ids m h => ⟨h.1, ?_⟩
    exact h.2.insert (fun id hb => by cases hb) parameter.name
  | reference line id =>
    obtain ⟨-, hwrites⟩ := hfit
    have hlook : Run.Ignores area first (Clean Γ area table)
        (do Run.atLine line ((← get).memory.find id)) fun found ids m =>
          Clean Γ area table ids m ∧ ∀ x, found.1 = area.place x → x ∉ ids := by
      refine .look (·.find id) (fun ids m m' h hm => h.1.find_eq hm hwrites.1)
        fun ids m found h hfind => ⟨h, ?_⟩
      intro x hx
      exact h.1.not_mem_of_locate? hwrites.1 (hx ▸ (Memory.slot?_of_find hfind).1)
    have hall := hlook.bind (f := fun found => if found.2.1 = .scalar parameter.type then
        pure (.reference found.1)
      else Run.atLine line
        (.error (.typeError (.wrongVariable parameter.name routine parameter.type found.2.1))))
      (R := fun b => Clean Γ area (table.insert parameter.name b)) fun found => ?_
    · rwa [bind_assoc] at hall
    · obtain ⟨place, type, old⟩ := found
      dsimp only
      split
      · refine .pure fun ids m h => ⟨h.1.1, h.1.2.insert (fun id hb => ?_) parameter.name⟩
        cases hb
        exact h.2 id rfl
      · exact .fails _

/-- Arguments are bound without a look at leftovers. -/
theorem ignores_bindAll (hshapely : Run.ShapelyCalls calls) (routine : String)
    {parameters : List Parameter} {arguments : List Argument}
    (hfit : Expr.Fit Γ.names parameters arguments)
    (hvalues : ∀ e, .value e ∈ arguments → Run.Ignores area first (Γ.Avoids area)
      (Run.evaluate calls e) fun _ => Γ.Avoids area) (table : Table Binding) :
    Run.Ignores area first (Clean Γ area table)
      (bindAll calls routine parameters arguments table) fun table' => Clean Γ area table' := by
  induction arguments generalizing parameters table with
  | nil =>
    obtain rfl : parameters = [] := hfit
    exact .pure fun _ _ h => h
  | cons argument rest ih =>
    obtain ⟨parameter, more, rfl, hargument, hrest⟩ := hfit
    unfold bindAll
    refine (ignores_bind hshapely routine parameter argument hargument (fun e he => ?_) table).bind
      fun b => ?_
    · exact hvalues e (he ▸ List.mem_cons_self)
    · exact ih hrest (fun e he => hvalues e (List.mem_cons_of_mem _ he)) _

/-- A run at a point that reaches no leftovers ignores them, and leaves off at such a point. -/
theorem Leads.ignores {α : Type} {x : Run α} (h : p.Leads Γ x Δ) (area : Area)
    (first : String → Option Variable) :
    Run.Ignores area first (Γ.Avoids area) x fun _ => Δ.Avoids area := by
  -- what is declared on the way need not be known
  have hback {α : Type} {x : Run α} {Γ Γ' Δ : Env} (hgrows : Run.Keeps Memory.Grows x)
      (hx : Run.Ignores area first (Γ'.Avoids area) x fun _ => Δ.Avoids area)
      (hstart : ∀ ids m, Γ.Avoids area ids m → Γ'.Avoids area ids m) :
      Run.Ignores area first (Γ.Avoids area) x fun _ => Γ.Avoids area := by
    have hkept := hx.keep hgrows (I := Γ.Avoids area) fun hsub hm h => h.grows hm hsub
    exact hkept.mono (fun ids m h => ⟨hstart ids m h, h⟩) fun _ _ _ h => h.2
  induction h with
  | pure a => exact .pure fun _ _ h => h
  | bind _ _ ihx ihf => exact ihx.bind ihf
  | outOfSteps => exact .outOfSteps
  | tick => exact .tick
  | atLine result => exact .atLine result
  | look reads looks =>
    exact .look _ (fun ids m m' h hm => looks _ _ (h.find_eq hm reads)) fun _ _ _ h _ => h
  | store writes indices value => exact ignores_store writes indices value
  | declare id_eq => exact ignores_declare id_eq
  | readLine => exact .readLine
  | writeLine text => exact .writeLine text
  | inside scope body ih => exact hback body.grows ih fun _ _ h => h.push scope
  | forget more ih => exact hback more.grows ih fun _ _ h => h
  | routines rs _ ih =>
    exact ih.mono (fun _ _ h => ⟨h.below, h.unit, h.inner, h.references, h.outside⟩)
      fun _ _ _ h => h
  | @call Γ Γ' Δ calls r arguments body found scope names distinct fit shapely values inside ihv
      ihb =>
    have hbind := ignores_bindAll shapely r.heading.name fit ihv .empty
    refine .bind (hbind.mono (fun ids m h => ⟨h, fun _ _ hname => by cases hname⟩) fun _ _ _ h => h)
      fun table => ?_
    have hcall := Run.Ignores.inFrame (P := Clean Γ area table) (fun hsub hm h => h.grows hsub hm)
      (fun _ _ h => h.1.below) (fun ids m h => h.1.enterRoutine scope names r.heading h.2)
      inside.grows ihb
    exact hcall.mono (fun _ _ h => h) fun _ _ _ h => h.1

end Program

/-! ## Blocks that are entered -/

/-- Every reference goes to a global variable or to one of an older call. -/
def Memory.Grounded (m : Memory) : Prop :=
  ∀ k name place, m.parameterAt? k name = some (.reference place) →
    ∃ a id, place = Area.place a id ∧ a.Below k

theorem Memory.Orderly.grounded {p : Program} {m : Memory} (h : m.Orderly p) : m.Grounded := by
  intro k name place hname
  obtain ⟨a, id, hplace, hbelow, -⟩ :=
    backs_iff.1 ((h k (lt_size_of_parameterAt? hname)).backs hname)
  exact ⟨a, id, hplace, hbelow⟩

theorem Memory.Grounded.of_agrees {s m : Memory} {area : Area} {ids : Set String} (h : s.Grounded)
    (hm : s.AgreesBut area ids m) : m.Grounded := by
  intro k name place hname
  rw [hm.parameters] at hname
  exact h k name place hname

/-- Where a block starts, what was declared inside it before is out of reach. -/
theorem Program.Opens.avoids {p : Program} {o : Outline} {block : Nat} {Γ : Env}
    (h : p.Opens o block Γ) {m : Memory} (hm : m.Grounded) {ids : Set String}
    (hids : ∀ x ∈ ids, p.tree.DeclaresInside block x) : Γ.Avoids m.area ids m := by
  refine ⟨m.area_below, fun name hname hin => ?_,
    fun l hl name hname => Or.inl ⟨rfl, fun hin => ?_⟩, fun name id hname => ?_,
    fun hnil => absurd hnil h.inner⟩
  · exact h.new _ (hids _ hin) ⟨Γ.unit, by simp [Env.levels], name, hname, rfl⟩
  · exact h.new _ (hids _ hin) ⟨l, List.mem_append_left _ hl, name, hname, rfl⟩
  · -- the latest call has no references to its own variables
    obtain ⟨a, other, hplace, hbelow⟩ := hm _ name _ hname
    have hsame := (Area.place_inj.1 hplace).1
    have hother := Memory.area_ne_of_below (Memory.lt_size_of_parameterAt? hname) hbelow
    exact absurd hsame.symm hother

namespace Run

variable {α : Type} {area : Area} {ids : Set String}

/-- The same end of two runs: the same answer or the same reason to stop, the same lines read and
written, and memories that agree but for these variables of the area. -/
inductive EndsAlike (area : Area) (ids : Set String) :
    EStateM.Result Stop Machine α → EStateM.Result Stop Machine α → Prop
  | ok {a : α} {m m' : Machine} (console : m'.console = m.console)
      (memory : m.memory.AgreesBut area ids m'.memory) : EndsAlike area ids (.ok a m) (.ok a m')
  | error {stop : Stop} {m m' : Machine} (console : m'.console = m.console)
      (memory : m.memory.AgreesBut area ids m'.memory) :
      EndsAlike area ids (.error stop m) (.error stop m')

theorem Matched.endsAlike {first : String → Option Variable} {Q : α → Set String → Memory → Prop}
    {r r' : EStateM.Result Stop Machine α} (h : Matched area first Q ids r r') :
    EndsAlike area ids r r' := by
  cases h with
  | ok sub alike => exact .ok alike.console (alike.memory.mono sub)
  | error sub alike => exact .error alike.console (alike.memory.mono sub)

end Run

/-- A block of an accepted program ignores what was declared inside it before. -/
theorem Program.Opens.endsAlike {p : Program} {o : Outline} {block : Nat} {Γ : Env}
    (h : p.Opens o block Γ) (hmeans : p.Means o) {ids : Set String}
    (hids : ∀ id ∈ ids, p.tree.DeclaresInside block id) {s : Memory} (hs : s.Grounded)
    {m m' : Machine} (hconsole : m'.console = m.console) (hsteps : m'.steps = m.steps)
    (hm : s.AgreesBut s.area ids m.memory) (hm' : s.AgreesBut s.area ids m'.memory)
    (depth bound : Nat) :
    Run.EndsAlike s.area ids (p.block (p.execute (p.call depth) bound) block m)
      (p.block (p.execute (p.call depth) bound) block m') := by
  obtain ⟨c, line, body, slots, hstands, hsound⟩ := h.stands
  have hleads := leads_body (leadsOn_execute (leadsCalls_call hmeans depth) bound) hstands hsound
    h.serves h.inner
  have havoids := h.avoids (hs.of_agrees hm) hids
  rw [hm.area_eq] at havoids
  have halike : m.Alike s.area (m.memory.variableAt? s.area) ids m' :=
    ⟨hconsole, hsteps, hm.symm.trans hm', fun _ _ => rfl⟩
  exact (hleads.ignores _ _ m m' ids halike havoids).endsAlike

/-! ## Contexts that are used again -/

/-- The variables that a run declares among the globals: those that are there when it was started
where nothing was. -/
def Program.declaredBy (p : Program) (steps : Nat) (console : Console) : Set String :=
  {id | ((p.runOn steps console).2.memory.variableAt? .globals id).isSome = true}

namespace Context

variable {c c' : Context} {source : String}

/-- Two requests that come to the same end answer alike. -/
theorem serve_agrees {α : Type} {area : Area} {first : String → Option Variable}
    {Q : α → Set String → Memory → Prop} {ids : Set String} {request : Run α} {steps : Nat}
    (h : Run.Matched area first Q ids
      (request { memory := c.memory, console := c.console, steps })
      (request { memory := c'.memory, console := c'.console, steps })) :
    (c'.serve steps request).1 = (c.serve steps request).1 ∧
      (c'.serve steps request).2.console = (c.serve steps request).2.console ∧
      ∃ left, (c.serve steps request).2.memory.AgreesBut area left
          (c'.serve steps request).2.memory ∧
        ∀ id ∈ left, (c.serve steps request).2.memory.variableAt? area id = first id := by
  unfold serve EStateM.run
  generalize request { memory := c.memory, console := c.console, steps } = r at h ⊢
  generalize request { memory := c'.memory, console := c'.console, steps } = r' at h ⊢
  cases h with
  | @ok _ _ _ left _ alike =>
    exact ⟨rfl, alike.console, left, alike.memory, alike.untouched⟩
  | @error _ _ _ left _ alike =>
    exact ⟨rfl, alike.console, left, alike.memory, alike.untouched⟩

/-- A run without a call around it is that of a fresh context, whatever was declared before. -/
theorem run_agrees (h : Program.ofSource source = .ok c.program)
    (hframes : c.memory.frames.size = 0) (steps : Nat) :
    (c.run steps).1 = (c.program.runOn steps c.console).1 ∧
      (c.run steps).2.console = (c.program.runOn steps c.console).2.console ∧
      (c.program.runOn steps c.console).2.memory.AgreesBut .globals
        (c.program.declaredBy steps c.console)ᶜ (c.run steps).2.memory := by
  obtain ⟨o, hmeans⟩ := Program.ofSource_means h
  have halike : Machine.Alike .globals (fun _ => none) Set.univ
      { memory := .empty, console := c.console, steps }
      { memory := c.memory, console := c.console, steps } := by
    refine ⟨rfl, rfl, ⟨hframes, fun k name => ?_, fun a id hid => ?_⟩, fun id _ => rfl⟩
    · rw [c.memory.parameterAt?_of_size_le (by omega)]
      rfl
    · cases a with
      | globals => exact absurd ⟨rfl, Set.mem_univ id⟩ hid
      | frame k =>
        rw [c.memory.variableAt?_of_size_le (by omega)]
        rfl
  have hstart : o.start.Avoids .globals Set.univ .empty := by
    refine ⟨trivial, fun name hname => ?_, fun l hl => ?_, fun name id hname => ?_, fun _ => rfl⟩
    · cases hname
    · cases hl
    · cases hname
  have hmatched := (Program.leads_run hmeans steps).ignores .globals (fun _ => none) _ _ _ halike
    hstart
  obtain ⟨hanswer, hconsole, left, hagrees, huntouched⟩ :=
    serve_agrees (c := fresh c.program c.console) hmatched
  refine ⟨hanswer, hconsole, hagrees.mono fun id hid hdeclared => ?_⟩
  -- what is left over in the end was never declared
  have hsome : (((fresh c.program c.console).run steps).2.memory.variableAt? .globals id).isSome
      = true := hdeclared
  rw [show ((fresh c.program c.console).run steps).2.memory.variableAt? .globals id = none from
    huntouched id hid] at hsome
  cases hsome

end Context

namespace Program

/-- What a block of an accepted program declares inside makes no difference before it is declared.
Take a state in which every reference goes to a global variable or to one of an older call, as it
does in all states of a run.  If two states are like this one but for variables, in the latest call
or among the globals, that are declared inside the block, the statements of the block come to the
same end in both, read and write the same lines, and leave states that agree everywhere else.  And
a run of the whole program does not depend on what is among the globals at first. -/
theorem ofSource_ignores_leftovers {source : String} {p : Program} (h : ofSource source = .ok p) :
    (∀ c : Context, c.program = p → c.memory.frames.size = 0 → ∀ n, (c.stateAt n).Grounded) ∧
    (∀ block c, p.tree.construct? block = some c → c.scope? ≠ none → c.isUnit = false →
      ∀ ids : Set String, (∀ id ∈ ids, p.tree.DeclaresInside block id) →
      ∀ s : Memory, s.Grounded → ∀ m m' : Machine,
        s.AgreesBut s.area ids m.memory → s.AgreesBut s.area ids m'.memory →
        m'.console = m.console → m'.steps = m.steps → ∀ depth bound,
          Run.EndsAlike s.area ids (p.block (p.execute (p.call depth) bound) block m)
            (p.block (p.execute (p.call depth) bound) block m')) ∧
    ∀ c c' : Context, c.program = p → c'.program = p → c.memory.frames.size = 0 →
      c'.memory.frames.size = 0 → c'.console = c.console → ∀ steps,
        (c'.run steps).1 = (c.run steps).1 ∧
        (c'.run steps).2.console = (c.run steps).2.console ∧
        (c.run steps).2.memory.AgreesBut .globals (p.declaredBy steps c.console)ᶜ
          (c'.run steps).2.memory := by
  refine ⟨fun c hc hframes n => ?_, fun block c hc hscope hunit ids hids s hs m m' hm hm' hconsole
    hsteps depth bound => ?_, fun c c' hc hc' hframes hframes' hconsole steps => ?_⟩
  · subst hc
    exact (Context.orderly_stateAt h hframes n).grounded
  · obtain ⟨o, hmeans⟩ := ofSource_means h
    obtain ⟨Γ, hopens⟩ := hmeans.exists_opens (hmeans.distinct h) hc hscope hunit
    exact hopens.endsAlike hmeans hids hs hconsole hsteps hm hm' depth bound
  · -- both runs are that of a fresh context
    subst hc
    obtain ⟨hanswer, hwritten, hagrees⟩ := Context.run_agrees h hframes steps
    obtain ⟨hanswer', hwritten', hagrees'⟩ := Context.run_agrees (hc'.symm ▸ h) hframes' steps
    rw [hc', hconsole] at hanswer' hwritten' hagrees'
    exact ⟨hanswer'.trans hanswer.symm, hwritten'.trans hwritten.symm,
      hagrees.symm.trans hagrees'⟩

/-- The entry block of the sample, and a declaration inside it; the sample ends its run. -/
theorem exists_sampleEntry : ∃ p c, ofSource sampleText = .ok p ∧
    p.tree.construct? 7 = some c ∧ c.scope? ≠ none ∧ c.isUnit = false ∧
    p.tree.DeclaresInside 7 "demo^beginning^y" ∧
    (p.runOn 100 (.ofInput [] none)).2.memory.frames.size = 0 := by
  have hentry : (ofSource sampleText).toOption.any (fun p =>
      (p.tree.construct? 7).any (fun c => c.scope?.isSome && !c.isUnit) &&
        (decide (8 ∈ p.tree.successors 7) &&
        (decide ((p.tree.construct? 8).bind Construct.declared? = some "demo^beginning^y") &&
        decide ((p.runOn 100 (.ofInput [] none)).2.memory.frames.size = 0)))) = true := by
    decide +kernel
  obtain ⟨p, -, -, hp, -⟩ := exists_sample
  rw [hp] at hentry
  simp only [Except.toOption, Option.any_some, Bool.and_eq_true] at hentry
  obtain ⟨hblock, hunder, hdeclared, hframes⟩ := hentry
  obtain ⟨c, hc, hkind⟩ := (Option.any_eq_true _ _).1 hblock
  obtain ⟨hscope, hunit⟩ := Bool.and_eq_true_iff.1 hkind
  exact ⟨p, c, hp, hc, Option.isSome_iff_ne_none.1 hscope, by simpa using hunit,
    ⟨8, .direct (of_decide_eq_true hunder), of_decide_eq_true hdeclared⟩,
    of_decide_eq_true hframes⟩

/-- The entry block of the sample, entered once more with another variable in the place of its own,
and the sample run once more. -/
theorem sampleText_ignores_leftovers : ∃ p, ofSource sampleText = .ok p ∧
    let used := (p.runOn 100 (.ofInput [] none)).2.memory
    let stale : Variable :=
      { type := .scalar .string, name := "y", id := "demo^beginning^y", value := .string "old" }
    Run.EndsAlike used.area {"demo^beginning^y"}
      (p.block (p.execute (p.call 50) 50) 7
        { memory := used, console := .ofInput [] none, steps := 50 })
      (p.block (p.execute (p.call 50) 50) 7
        { memory := used.declare stale, console := .ofInput [] none, steps := 50 }) ∧
    ((⟨p, used, .ofInput [] none⟩ : Context).run 100).1
      = ((Context.fresh p (.ofInput [] none)).run 100).1 := by
  obtain ⟨p, c, hp, hc, hscope, hunit, hinside, hframes⟩ := exists_sampleEntry
  obtain ⟨-, hblock, hrun⟩ := ofSource_ignores_leftovers hp
  refine ⟨p, hp, ?_⟩
  intro used stale
  have hgrounded : used.Grounded := by
    intro k name place hname
    rw [used.parameterAt?_of_size_le (hframes.trans_le (Nat.zero_le k))] at hname
    cases hname
  have hids : ∀ id ∈ ({"demo^beginning^y"} : Set String), p.tree.DeclaresInside 7 id := by
    intro id hid
    rw [Set.mem_singleton_iff.1 hid]
    exact hinside
  have hends := hblock 7 c hc hscope hunit _ hids used hgrounded
    { memory := used, console := .ofInput [] none, steps := 50 }
    { memory := used.declare stale, console := .ofInput [] none, steps := 50 }
    (.refl used) (.declared used stale) rfl rfl 50 50
  have hagain := hrun (Context.fresh p (.ofInput [] none)) ⟨p, used, .ofInput [] none⟩ rfl rfl rfl
    hframes rfl 100
  exact ⟨hends, hagain.1⟩

end Program

end Primer
