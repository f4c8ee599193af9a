import Primer.Proofs.Grammar.Names
import Primer.Proofs.Scope.Ids
import Primer.Proofs.Tree.Forest

/-!
# Primer.Proofs.Scope.Env — what names mean, block by block.

An `Env` lists the blocks around a point of a program with the names that each has declared so far,
and the routines that are complete.  It knows no ids and no table: a name means the parameter of the
routine around the point, or else the innermost declaration.

`Forest.Sound` goes through a forest with the environment of each point and asks that every
construct fits the names there.  This is the judgement that accepted programs satisfy, and all that
is said about names, at rest or when a program runs, starts from it.

The levels are the open blocks from the inside out, the unit last.  Going from one construct to the
next only adds the name of a declaration to the innermost level, or a routine to those that are
complete (`Env.after`); going inside adds a level and, for a routine, its heading.  Meanings of
names are `Names`, which say what may be read, what may be written, and what may be called with how
many arguments and of which modes.
-/

namespace Primer

/-- A block with the names that it has declared so far, in the order of the text. -/
structure Level where
  scope : String
  names : List String

/-- The level with one more name. -/
def Level.declare (l : Level) (name : String) : Level := { l with names := l.names ++ [name] }

/-- What a point of a program is surrounded by.  `inner` lists the blocks inside the unit, innermost
first, and `routines` the complete routines, latest first. -/
structure Env where
  unit : Level
  routines : List Routine
  heading : Option Heading
  inner : List Level

namespace Env

/-- All blocks around a point, innermost first. -/
def levels (Γ : Env) : List Level := Γ.inner ++ [Γ.unit]

/-- The scope of the innermost block. -/
def scope (Γ : Env) : String := (Γ.inner.headD Γ.unit).scope

/-- The name is a parameter of the routine around the point. -/
def isParameter (Γ : Env) (name : String) : Bool :=
  (Γ.heading.bind (·.parameter? name)).isSome

/-- The id that a name stands for. -/
def resolve (Γ : Env) (name : String) : Option String :=
  if Γ.isParameter name then some name
  else (Γ.levels.find? (name ∈ ·.names)).map fun l => Name.qualify l.scope name

/-- The id is a parameter that may not be written. -/
def isReadOnly (Γ : Env) (id : String) : Bool :=
  match Γ.heading.bind (·.parameter? id) with
  | some parameter => decide (parameter.mode = .byValue)
  | none => false

/-- The complete routine of this name. -/
def routine? (Γ : Env) (name : String) : Option Routine :=
  Γ.routines.find? (·.heading.name == name)

/-- The heading of a routine that may be called: one that is complete, or the one around the
point. -/
def callable? (Γ : Env) (name : String) : Option Heading :=
  match Γ.routine? name with
  | some r => some r.heading
  | none => Γ.heading.filter (·.name == name)

/-- What can be named at a point.  An id is the meaning of its own bare name. -/
def names (Γ : Env) : Names where
  reads id := Γ.resolve (Name.bare id) = some id
  writes id := Γ.resolve (Name.bare id) = some id ∧ Γ.isReadOnly id = false
  callable := Γ.callable?
  heading := Γ.heading

/-! ## From one point to the next -/

/-- The innermost block has declared a name. -/
def declare (Γ : Env) (name : String) : Env :=
  match Γ.inner with
  | [] => { Γ with unit := Γ.unit.declare name }
  | l :: outer => { Γ with inner := l.declare name :: outer }

/-- What follows a construct that stands at a position. -/
def after (Γ : Env) (start : NodeId) : Construct → Env
  | .declaration d => Γ.declare d.name
  | .routine heading => { Γ with routines := ⟨start, heading⟩ :: Γ.routines }
  | .unit .. | .entry _ | .assignment .. | .loop .. | .conditional .. | .elseIf .. | .otherwise _
  | .call .. | .input .. | .output _ | .result _ => Γ

/-- The start of the body of a block. -/
def enter (Γ : Env) : Construct → Env
  | .routine heading => { Γ with heading := some heading, inner := [⟨heading.scope, []⟩] }
  | .entry scope | .loop scope _ | .conditional scope .. | .elseIf scope _ | .otherwise scope =>
    { Γ with inner := ⟨scope, []⟩ :: Γ.inner }
  | .unit .. | .declaration _ | .assignment .. | .call .. | .input .. | .output _ | .result _ => Γ

/-- What follows a whole forest. -/
def afterAll (Γ : Env) (start : Nat) : Forest → Env
  | .nil => Γ
  | .cons c _ body slots rest =>
    (Γ.after start c).afterAll (start + 1 + body.size + slots.size) rest

/-- What a construct has to be where it stands.  The unit and its entry block stand around all
others. -/
def Allows (Γ : Env) : Construct → Prop
  | .declaration d => d.id = Name.qualify Γ.scope d.name ∧ Name.IsSegment d.name
  | .routine heading =>
    Γ.inner = [] ∧ Γ.heading = none ∧ Γ.routine? heading.name = none ∧
      heading.scope = Name.qualify Γ.unit.scope heading.name ∧
      (heading.parameters.map (·.name)).Nodup ∧
      ∀ parameter ∈ heading.parameters, Name.IsSegment parameter.name
  | .unit .. | .entry _ => False
  | .assignment .. | .loop .. | .conditional .. | .elseIf .. | .otherwise _ | .call .. | .input ..
  | .output _ | .result _ => True

end Env

/-- The construct is a further branch of a conditional. -/
def Construct.IsBranch : Construct → Prop
  | .elseIf .. | .otherwise _ => True
  | .unit .. | .entry _ | .routine _ | .declaration _ | .assignment .. | .loop .. | .conditional ..
  | .call .. | .input .. | .output _ | .result _ => False

/-- A branch declares nothing. -/
theorem Construct.IsBranch.after_eq {c : Construct} (h : c.IsBranch) (Γ : Env) (start : NodeId) :
    Γ.after start c = Γ := by
  cases c with
  | declaration | routine => exact h.elim
  | _ => rfl

/-- The outermost constructs have a property. -/
def Forest.Tops (P : Construct → Prop) : Forest → Prop
  | .nil => True
  | .cons c _ _ _ rest => P c ∧ rest.Tops P

theorem Forest.Tops.imp {P Q : Construct → Prop} {f : Forest} (h : f.Tops P)
    (himp : ∀ c, P c → Q c) : f.Tops Q := by
  induction f with
  | nil => trivial
  | cons c line body slots rest _ _ ih => exact ⟨himp c h.1, ih h.2⟩

/-- Branches declare nothing where their conditional stands. -/
theorem Forest.Tops.afterAll_eq {Γ : Env} {f : Forest} (h : f.Tops Construct.IsBranch)
    (start : Nat) : Γ.afterAll start f = Γ := by
  induction f generalizing start with
  | nil => rfl
  | cons c line body slots rest _ _ ih =>
    rw [Env.afterAll, h.1.after_eq]
    exact ih h.2 _

/-- Only blocks have a body, and only branches hang in slots. -/
structure Construct.Bears (c : Construct) (body slots : Forest) : Prop where
  body : c.scope? = none → body = .nil
  slots : slots.Tops IsBranch

/-- A block may have any body. -/
theorem Construct.Bears.block {c : Construct} {scope : String} {body slots : Forest}
    (h : c.scope? = some scope) (hslots : slots.Tops IsBranch) : c.Bears body slots := by
  refine ⟨fun hnone => ?_, hslots⟩
  rw [h] at hnone
  cases hnone

/-- Every construct fits what surrounds it.  A branch sees what its conditional sees. -/
def Forest.Sound (Γ : Env) (start : Nat) : Forest → Prop
  | .nil => True
  | .cons c _ body slots rest =>
    (c.Sound Γ.names ∧ Γ.Allows c ∧ c.Bears body slots) ∧ body.Sound (Γ.enter c) (start + 1) ∧
      slots.Sound Γ (start + 1 + body.size) ∧
      rest.Sound (Γ.after start c) (start + 1 + body.size + slots.size)

/-! ## Meanings -/

namespace Env

/-- A name that means an id is the bare name of it. -/
theorem bare_of_resolve {Γ : Env} {name id : String} (hname : Name.IsSegment name)
    (h : Γ.resolve name = some id) : Name.bare id = name := by
  unfold resolve at h
  split at h
  · cases h
    exact Name.bare_of_isSegment hname
  · obtain ⟨l, -, rfl⟩ := Option.map_eq_some_iff.1 h
    exact Name.bare_qualify l.scope name hname

end Env

/-! ## Levels -/

namespace Env

theorem levels_ne_nil (Γ : Env) : Γ.levels ≠ [] := by
  simp [levels]

/-- The scope of a point is that of the innermost level. -/
theorem scope_eq (Γ : Env) : Γ.levels.head?.map (·.scope) = some Γ.scope := by
  unfold levels scope
  cases Γ.inner <;> rfl

theorem levels_declare (Γ : Env) (name : String) :
    (Γ.declare name).levels = Γ.levels.modifyHead (·.declare name) := by
  unfold declare levels
  split <;> rename_i h <;> rw [h] <;> rfl

theorem inner_declare (Γ : Env) (name : String) :
    (Γ.declare name).inner = Γ.inner.modifyHead (·.declare name) := by
  unfold declare
  split <;> rename_i h <;> rw [h] <;> rfl

@[simp]
theorem routines_declare (Γ : Env) (name : String) : (Γ.declare name).routines = Γ.routines := by
  unfold declare
  split <;> rfl

@[simp]
theorem heading_declare (Γ : Env) (name : String) : (Γ.declare name).heading = Γ.heading := by
  unfold declare
  split <;> rfl

@[simp]
theorem unit_scope_declare (Γ : Env) (name : String) :
    (Γ.declare name).unit.scope = Γ.unit.scope := by
  unfold declare
  split <;> rfl

theorem map_scope_declare (Γ : Env) (name : String) :
    (Γ.declare name).levels.map (·.scope) = Γ.levels.map (·.scope) := by
  rw [levels_declare]
  cases Γ.levels <;> rfl

/-- Going on in a block changes neither the blocks nor their scopes. -/
theorem scope_after (Γ : Env) (start : NodeId) (c : Construct) :
    (Γ.after start c).scope = Γ.scope := by
  cases c with
  | declaration d =>
    show (Γ.declare d.name).scope = Γ.scope
    unfold declare
    split <;> rename_i h <;> rw [scope, scope, h] <;> rfl
  | _ => rfl

/-- Behind the constructs of a block the point is in the same block. -/
theorem scope_afterAll (Γ : Env) (start : Nat) (f : Forest) :
    (Γ.afterAll start f).scope = Γ.scope := by
  induction f generalizing Γ start with
  | nil => rfl
  | cons c line body slots rest _ _ ih => exact (ih _ _).trans (Γ.scope_after start c)

theorem afterAll_append (Γ : Env) (start : Nat) (f g : Forest) :
    Γ.afterAll start (f.append g) = (Γ.afterAll start f).afterAll (start + f.size) g := by
  induction f generalizing Γ start with
  | nil => rfl
  | cons c line body slots rest _ _ ih =>
    simp only [Forest.append, afterAll, Forest.add_size_cons, ih]

end Env

/-- A construct opens and closes no block of its own. -/
theorem Env.inner_after_ne_nil {Γ : Env} (h : Γ.inner ≠ []) (start : NodeId) (c : Construct) :
    (Γ.after start c).inner ≠ [] := by
  cases c with
  | declaration d =>
    show (Γ.declare d.name).inner ≠ []
    rw [inner_declare]
    cases hinner : Γ.inner with
    | nil => exact absurd hinner h
    | cons l outer => exact List.cons_ne_nil _ _
  | _ => exact h

/-- The items of the unit leave it the innermost block. -/
theorem Env.inner_afterAll {Γ : Env} (h : Γ.inner = []) (start : Nat) (f : Forest) :
    (Γ.afterAll start f).inner = [] := by
  induction f generalizing Γ start with
  | nil => exact h
  | cons c line body slots rest _ _ ih =>
    refine ih ?_ _
    cases c with
    | declaration d =>
      show (Γ.declare d.name).inner = []
      rw [inner_declare, h]
      rfl
    | _ => exact h

theorem Env.unit_scope_afterAll (Γ : Env) (start : Nat) (f : Forest) :
    (Γ.afterAll start f).unit.scope = Γ.unit.scope := by
  induction f generalizing Γ start with
  | nil => rfl
  | cons c line body slots rest _ _ ih =>
    refine (ih _ _).trans ?_
    cases c with
    | declaration d => exact Γ.unit_scope_declare d.name
    | _ => rfl

/-- The statements of a block inside the unit declare names in it and change nothing else. -/
theorem Forest.Sound.afterAll_inner {Γ : Env} {start : Nat} {f : Forest} (h : f.Sound Γ start)
    {l : Level} {outer : List Level} (hinner : Γ.inner = l :: outer) :
    ∃ names, Γ.afterAll start f = { Γ with inner := ⟨l.scope, names⟩ :: outer } := by
  induction f generalizing Γ l start with
  | nil =>
    refine ⟨l.names, ?_⟩
    rw [Env.afterAll, ← hinner]
  | cons c line body slots rest _ _ ih =>
    obtain ⟨⟨-, hallows, -⟩, -, -, hrest⟩ := h
    rw [Env.afterAll]
    cases c with
    | declaration d =>
      have hdeclare : Γ.declare d.name = { Γ with inner := l.declare d.name :: outer } := by
        rw [Env.declare, hinner]
      have hrest' : rest.Sound (Γ.declare d.name) (start + 1 + body.size + slots.size) := hrest
      rw [hdeclare] at hrest'
      obtain ⟨names, hnames⟩ := ih hrest' rfl
      refine ⟨names, ?_⟩
      show (Γ.declare d.name).afterAll _ rest = _
      rw [hdeclare, hnames]
      rfl
    | routine heading =>
      have hempty : Γ.inner = [] := hallows.1
      rw [hinner] at hempty
      cases hempty
    | _ => exact ih hrest hinner

/-- What holds of every construct that fits its surroundings holds throughout a sound forest. -/
theorem Forest.Sound.all {P : Construct → Prop} {f : Forest} {start : Nat} {Γ : Env}
    (h : f.Sound Γ start) (hP : ∀ (Γ' : Env) (c : Construct), c.Sound Γ'.names → P c) :
    f.All P := by
  induction f generalizing Γ start with
  | nil => trivial
  | cons c line body slots rest ihb ihs ihr =>
    obtain ⟨⟨hc, -, -⟩, hbody, hslots, hrest⟩ := h
    exact ⟨hP Γ c hc, ihb hbody, ihs hslots, ihr hrest⟩

/-- Two forests are sound if each is at its point. -/
theorem Forest.sound_append (Γ : Env) (start : Nat) (f g : Forest) :
    (f.append g).Sound Γ start
      ↔ f.Sound Γ start ∧ g.Sound (Γ.afterAll start f) (start + f.size) := by
  induction f generalizing Γ start with
  | nil => simp [append, Sound, Env.afterAll, size]
  | cons c line body slots rest _ _ ih =>
    simp only [append, Sound, Env.afterAll, add_size_cons, ih, and_assoc]

end Primer
