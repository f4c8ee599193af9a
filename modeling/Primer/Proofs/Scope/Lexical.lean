import Primer.Proofs.Scope.Routines
import Primer.Proofs.Tree.Spelling

/-!
# Primer.Proofs.Scope.Lexical — lexical scoping, read off a finished tree.

The law is about the tree alone: `Tree.around` walks from a node to the root and lists the blocks
around it, each with the statements before the point, and an id must be what the innermost
declaration among these statements makes of its name.  That its name is the one that was written is
`Program.names_eq`.  The proof shows that the walk lists the levels of the environment that the
point was read in.  Main statement: `Program.ofSource_lexical`.

`Env.Matches` says that an environment is what the walk from a node finds: each level is a block
around the node with the names declared before it, and the parameters are those of the routine on
the way.  Every node of a layout is reached from the root by steps into blocks and past statements,
and each step changes the environment and the walk in the same way.
-/

namespace Primer

/-! ## The names that are used -/

namespace Expr

mutual

/-- Every variable that is used in a sound expression may be read. -/
theorem reads_of_use {v : Names} (hv : ∀ id, v.writes id → v.reads id) {x : String} :
    ∀ e : Expr, Sound v e → .use x ∈ mentions e → v.reads x
  | literal .., _, hx => by cases hx
  | ident _ id, h, hx => by
    rw [mentions, List.mem_singleton] at hx
    cases hx
    exact h
  | element _ id indices, h, hx => by
    rw [mentions, List.mem_cons] at hx
    rcases hx with hx | hx
    · cases hx
      exact h.1
    · exact reads_of_use_list hv indices h.2.2 hx
  | call _ _ arguments, ⟨heading, _, hfit⟩, hx => by
    rw [mentions, List.mem_cons] at hx
    rcases hx with hx | hx
    · cases hx
    · exact reads_of_use_arguments hv heading.parameters arguments hfit hx
  | unary _ _ operand, h, hx => reads_of_use hv operand h hx
  | binary _ _ left right, h, hx => by
    rw [mentions, List.mem_append] at hx
    rcases hx with hx | hx
    · exact reads_of_use hv left h.1 hx
    · exact reads_of_use hv right h.2 hx

/-- A name that is used among indices may be read. -/
theorem reads_of_use_list {v : Names} (hv : ∀ id, v.writes id → v.reads id) {x : String} :
    ∀ es : List Expr, SoundList v es → .use x ∈ mentionsList es → v.reads x
  | [], _, hx => by cases hx
  | e :: rest, h, hx => by
    rw [mentionsList, List.mem_append] at hx
    rcases hx with hx | hx
    · exact reads_of_use hv e h.1 hx
    · exact reads_of_use_list hv rest h.2 hx

theorem reads_of_use_arguments {v : Names} (hv : ∀ id, v.writes id → v.reads id) {x : String} :
    ∀ (parameters : List Parameter) (arguments : List Argument),
      Fit v parameters arguments → .use x ∈ mentionsArguments arguments → v.reads x
  | _, [], _, hx => by cases hx
  | _, argument :: rest, ⟨parameter, more, _, hfit, hrest⟩, hx => by
    rw [mentionsArguments, List.mem_append] at hx
    rcases hx with hx | hx
    · exact reads_of_use_argument hv parameter.mode argument hfit hx
    · exact reads_of_use_arguments hv more rest hrest hx

theorem reads_of_use_argument {v : Names} (hv : ∀ id, v.writes id → v.reads id) {x : String}
    (mode : PassMode) :
    ∀ argument : Argument, FitArgument v mode argument → .use x ∈ mentionsArgument argument →
      v.reads x
  | .value e, h, hx => reads_of_use hv e h.2 hx
  | .reference .., h, hx => by
    rw [mentionsArgument, List.mem_singleton] at hx
    cases hx
    exact hv x h.2

end

end Expr

/-- Every variable that a sound construct uses may be read: in its expressions, as the target of an
assignment or of an input, and as an argument. -/
theorem Construct.reads_of_use {v : Names} (hv : ∀ id, v.writes id → v.reads id) {c : Construct}
    (h : c.Sound v) {x : String} (hx : .use x ∈ c.mentions) : v.reads x := by
  cases c with
  | declaration d =>
    rw [mentions, List.mem_cons] at hx
    rcases hx with hx | hx
    · cases hx
    · obtain ⟨-, hinit⟩ := h
      cases hi : d.initializer with
      | computed e =>
        rw [hi] at hinit hx
        exact e.reads_of_use hv hinit.2 hx
      | fixed value =>
        rw [hi] at hx
        cases hx
  | assignment target indices value =>
    rw [mentions, List.mem_cons, List.mem_append] at hx
    rcases hx with hx | hx | hx
    · cases hx
      -- A target is written to, and what can be written to can be read.
      exact hv _ h.1
    · exact Expr.reads_of_use_list hv indices h.2.1 hx
    · exact value.reads_of_use hv h.2.2 hx
  | loop _ condition | conditional _ condition _ _ | elseIf _ condition =>
    exact condition.reads_of_use hv h hx
  | call _ arguments =>
    obtain ⟨heading, -, hfit⟩ := h
    rw [mentions, List.mem_cons] at hx
    rcases hx with hx | hx
    · cases hx
    · exact Expr.reads_of_use_arguments hv heading.parameters arguments hfit hx
  | input target indices =>
    rw [mentions, List.mem_cons] at hx
    rcases hx with hx | hx
    · cases hx
      exact hv _ h.1
    · exact Expr.reads_of_use_list hv indices h.2 hx
  | output value => exact value.reads_of_use hv h hx
  | result value =>
    cases value with
    | some value => exact value.reads_of_use hv h.2 hx
    | none => cases hx
  | unit | routine => simp [mentions] at hx
  | entry | otherwise => cases hx

/-- The name that a declaration declares. -/
def Construct.declaredName? : Construct → Option String
  | declaration d => some d.name
  | _ => none

/-! ## The blocks around a node -/

namespace Tree

/-- The blocks around a node, innermost first, each with those of its statements that stand before
the point.  A conditional is no block around its further branches, and the entry block stands behind
all statements of the unit. -/
def blocksAround (t : Tree) : Nat → NodeId → List (NodeId × List NodeId)
  | 0, _ => []
  | bound + 1, id =>
    match t.parent? id with
    | none => []
    | some owner =>
      if id ∈ t.children owner then
        (owner, (t.children owner).takeWhile (· != id)) :: t.blocksAround bound owner
      else if (t.construct? owner).any Construct.isUnit then
        (owner, t.children owner) :: t.blocksAround bound owner
      else t.blocksAround bound owner

/-- The blocks around a node. -/
def around (t : Tree) (id : NodeId) : List (NodeId × List NodeId) := t.blocksAround t.size id

/-- One of these statements declares the name. -/
def Declares (t : Tree) (statements : List NodeId) (name : String) : Prop :=
  ∃ id ∈ statements, ∃ d, t.construct? id = some (.declaration d) ∧ d.name = name

/-- The node lies in a routine that has a parameter of this name. -/
def HasParameter (t : Tree) (id : NodeId) (name : String) : Prop :=
  ∃ b ∈ t.around id, ∃ heading, t.construct? b.1 = some (.routine heading) ∧
    ∃ parameter ∈ heading.parameters, parameter.name = name

/-- Of the blocks around the node that declare the name before it, the innermost one has this
scope. -/
def DeclaredIn (t : Tree) (id : NodeId) (name scope : String) : Prop :=
  ∃ inner block statements outer, t.around id = inner ++ (block, statements) :: outer ∧
    (∀ b ∈ inner, ¬ t.Declares b.2 name) ∧ t.Declares statements name ∧
    (t.construct? block).bind Construct.scope? = some scope

/-- A walk that is long enough for the node finds these blocks. -/
def Reaches (t : Tree) (id : Nat) (blocks : List (NodeId × List NodeId)) : Prop :=
  ∀ bound, id < bound → t.blocksAround bound id = blocks

/-- A child is in the block of its owner, behind its elder siblings. -/
theorem reaches_child {t : Tree} {owner id : Nat} {earlier later : List NodeId}
    {outer : List (NodeId × List NodeId)} (hparent : t.parent? id = some owner) (hlt : owner < id)
    (hchildren : t.children owner = earlier ++ id :: later) (hnew : id ∉ earlier)
    (h : t.Reaches owner outer) : t.Reaches id ((owner, earlier) :: outer) := by
  intro bound hbound
  obtain ⟨more, rfl⟩ : ∃ more, bound = more + 1 := ⟨bound - 1, by omega⟩
  have hmem : id ∈ t.children owner := by
    rw [hchildren]
    simp
  have hbefore : (t.children owner).takeWhile (· != id) = earlier := by
    rw [hchildren, List.takeWhile_append_of_pos]
    · simp
    · intro x hx
      rw [bne_iff_ne]
      rintro rfl
      exact hnew hx
  rw [blocksAround, hparent]
  simp only [hmem, if_true]
  rw [hbefore, h more (by omega)]

/-- A further branch is in the blocks that its conditional is in. -/
theorem reaches_branch {t : Tree} {owner id : Nat} {c : Construct}
    {blocks : List (NodeId × List NodeId)} (hparent : t.parent? id = some owner) (hlt : owner < id)
    (hnot : id ∉ t.children owner) (hc : t.construct? owner = some c) (hunit : c.isUnit = false)
    (h : t.Reaches owner blocks) : t.Reaches id blocks := by
  intro bound hbound
  obtain ⟨more, rfl⟩ : ∃ more, bound = more + 1 := ⟨bound - 1, by omega⟩
  rw [blocksAround, hparent]
  simp only [hnot, if_false, hc, Option.any_some, hunit]
  exact h more (by omega)

/-- The entry block is in the unit, behind all items. -/
theorem reaches_entry {t : Tree} {owner id : Nat} {c : Construct}
    {outer : List (NodeId × List NodeId)} (hparent : t.parent? id = some owner) (hlt : owner < id)
    (hnot : id ∉ t.children owner) (hc : t.construct? owner = some c) (hunit : c.isUnit = true)
    (h : t.Reaches owner outer) : t.Reaches id ((owner, t.children owner) :: outer) := by
  intro bound hbound
  obtain ⟨more, rfl⟩ : ∃ more, bound = more + 1 := ⟨bound - 1, by omega⟩
  rw [blocksAround, hparent]
  simp only [hnot, if_false, hc, Option.any_some, hunit, if_true]
  rw [h more (by omega)]

/-- A node without an owner is in no block. -/
theorem reaches_root {t : Tree} {id : Nat} {n : Node} (hn : t.node? id = some n)
    (hparent : n.parent = none) (hprevious : n.previous = none) : t.Reaches id [] := by
  have hnone : t.parent? id = none := by
    rw [parent?]
    cases t.size with
    | zero => rfl
    | succ size => simp [parentWithin, hn, hparent, hprevious]
  intro bound hbound
  obtain ⟨more, rfl⟩ : ∃ more, bound = more + 1 := ⟨bound - 1, by omega⟩
  rw [blocksAround, hnone]

/-! ## Blocks and levels -/

/-- The level that a block is at a point behind these of its statements. -/
def levelOf (t : Tree) (b : NodeId × List NodeId) : Level where
  scope := ((t.construct? b.1).bind Construct.scope?).getD ""
  names := b.2.filterMap fun id => (t.construct? id).bind Construct.declaredName?

/-- The names of a level are those that its statements have declared. -/
theorem mem_names_levelOf {t : Tree} {b : NodeId × List NodeId} {name : String} :
    name ∈ (t.levelOf b).names ↔ t.Declares b.2 name := by
  rw [levelOf, List.mem_filterMap]
  refine exists_congr fun id => and_congr_right fun _ => ?_
  cases t.construct? id with
  | none => simp
  | some c => cases c <;> simp [Construct.declaredName?]

end Tree

/-- The blocks around a point are the levels of the environment. -/
structure Env.Matches (Γ : Env) (t : Tree) (blocks : List (NodeId × List NodeId)) : Prop where
  levels : blocks.map t.levelOf = Γ.levels
  scopes : ∀ b ∈ blocks, ((t.construct? b.1).bind Construct.scope?).isSome = true
  headings : blocks.filterMap (fun b => (t.construct? b.1).bind Construct.heading?)
    = Γ.heading.toList

namespace Env.Matches

variable {Γ : Env} {t : Tree} {id : Nat}

/-- The parameters of a point are those of the routine on the way to the root. -/
theorem isParameter_iff (h : Γ.Matches t (t.around id)) (name : String) :
    Γ.isParameter name = true ↔ t.HasParameter id name := by
  have hheading : ∀ heading, Γ.heading = some heading ↔
      ∃ b ∈ t.around id, t.construct? b.1 = some (.routine heading) := by
    intro heading
    rw [← Option.mem_toList, ← h.headings, List.mem_filterMap]
    refine exists_congr fun b => and_congr_right fun _ => ?_
    cases t.construct? b.1 with
    | none => simp
    | some c => cases c <;> simp [Construct.heading?]
  have hparameter : ∀ heading : Heading, (heading.parameter? name).isSome = true ↔
      ∃ parameter ∈ heading.parameters, parameter.name = name := by
    intro heading
    simp [Heading.parameter?, List.find?_isSome]
  rw [isParameter, Option.isSome_iff_exists]
  constructor
  · rintro ⟨parameter, hp⟩
    obtain ⟨heading, hh, hfind⟩ := Option.bind_eq_some_iff.1 hp
    obtain ⟨b, hb, hc⟩ := (hheading heading).1 hh
    exact ⟨b, hb, heading, hc, (hparameter heading).1 (by rw [hfind]; rfl)⟩
  · rintro ⟨b, hb, heading, hc, hp⟩
    rw [(hheading heading).2 ⟨b, hb, hc⟩, Option.bind_some]
    exact Option.isSome_iff_exists.1 ((hparameter heading).2 hp)

/-- What the environment resolves is what the innermost declaration makes of the name. -/
theorem resolve_law (h : Γ.Matches t (t.around id)) {x : String}
    (hx : Γ.resolve (Name.bare x) = some x) :
    (x = Name.bare x ↔ t.HasParameter id (Name.bare x)) ∧
      (¬ t.HasParameter id (Name.bare x) →
        ∃ scope, t.DeclaredIn id (Name.bare x) scope ∧ x = Name.qualify scope (Name.bare x)) := by
  rw [← h.isParameter_iff]
  unfold resolve at hx
  split at hx
  · rename_i hparameter
    have heq : Name.bare x = x := Option.some.inj hx
    exact ⟨iff_of_true heq.symm hparameter, fun hnot => absurd hparameter hnot⟩
  · rename_i hnone
    obtain ⟨l, hfind, heq⟩ := Option.map_eq_some_iff.1 hx
    -- an id with a scope is no bare name
    have hne : x ≠ Name.bare x := by
      intro hsame
      have hsegment := Name.isSegment_bare x
      rw [← hsame, ← heq] at hsegment
      exact Name.not_isSegment_qualify _ _ hsegment
    refine ⟨iff_of_false hne hnone, fun _ => ⟨l.scope, ?_, heq.symm⟩⟩
    -- the level that was found splits the blocks into inner ones, itself and outer ones
    rw [← h.levels, List.find?_eq_some_iff_append] at hfind
    obtain ⟨hl, before, after, hsplit, hbefore⟩ := hfind
    obtain ⟨inner, rest, haround, rfl, hrest⟩ := List.map_eq_append_iff.1 hsplit
    obtain ⟨⟨block, statements⟩, outer, rfl, rfl, rfl⟩ := List.map_eq_cons_iff.1 hrest
    refine ⟨inner, block, statements, outer, haround, fun b hb hdeclares => ?_, ?_, ?_⟩
    · have hnot := hbefore _ (List.mem_map_of_mem hb)
      rw [Bool.not_eq_true', decide_eq_false_iff_not, Tree.mem_names_levelOf] at hnot
      exact hnot hdeclares
    · rwa [decide_eq_true_iff, Tree.mem_names_levelOf] at hl
    · have hscope := h.scopes (block, statements) (by rw [haround]; simp)
      obtain ⟨scope, hs⟩ := Option.isSome_iff_exists.1 hscope
      rw [hs, Tree.levelOf, hs]
      rfl

/-- A block that is no routine was entered. -/
theorem push {blocks : List (NodeId × List NodeId)} (h : Γ.Matches t blocks) {c : Construct}
    {scope : String} (hc : t.construct? id = some c) (hscope : c.scope? = some scope)
    (hheading : c.heading? = none) :
    ({ Γ with inner := ⟨scope, []⟩ :: Γ.inner } : Env).Matches t ((id, []) :: blocks) := by
  refine ⟨?_, fun b hb => ?_, ?_⟩
  · rw [List.map_cons, h.levels, Tree.levelOf, hc, Option.bind_some, hscope]
    rfl
  · rcases List.mem_cons.1 hb with rfl | hb
    · rw [hc, Option.bind_some, hscope]
      rfl
    · exact h.scopes b hb
  · rw [List.filterMap_cons_none, h.headings]
    rw [hc, Option.bind_some, hheading]

/-- A routine was entered, directly in the unit. -/
theorem enterRoutine {blocks : List (NodeId × List NodeId)} (h : Γ.Matches t blocks)
    {heading : Heading} (hc : t.construct? id = some (.routine heading)) (hnil : Γ.inner = [])
    (hnone : Γ.heading = none) : (Γ.enter (.routine heading)).Matches t ((id, []) :: blocks) := by
  refine ⟨?_, fun b hb => ?_, ?_⟩
  · rw [List.map_cons, h.levels, Tree.levelOf, hc, Env.levels, hnil]
    rfl
  · rcases List.mem_cons.1 hb with rfl | hb
    · rw [hc]
      rfl
    · exact h.scopes b hb
  · rw [List.filterMap_cons_some (b := heading), h.headings, hnone]
    · rfl
    · rw [hc]
      rfl

/-- Entering a block puts it around whatever stands in it. -/
theorem enter {blocks : List (NodeId × List NodeId)} (h : Γ.Matches t blocks) {c : Construct}
    (hc : t.construct? id = some c) (hscope : c.scope? ≠ none) (hallows : Γ.Allows c) :
    (Γ.enter c).Matches t ((id, []) :: blocks) := by
  cases c with
  | routine heading => exact h.enterRoutine hc hallows.1 hallows.2.1
  | loop | conditional | elseIf | otherwise => exact h.push hc rfl rfl
  | unit | entry => exact hallows.elim
  | _ => exact absurd rfl hscope

/-- A statement of the innermost block was passed. -/
theorem after {owner : NodeId} {earlier : List NodeId} {outer : List (NodeId × List NodeId)}
    (h : Γ.Matches t ((owner, earlier) :: outer)) {c : Construct} (hc : t.construct? id = some c) :
    (Γ.after id c).Matches t ((owner, earlier ++ [id]) :: outer) := by
  have hlevels := h.levels
  rw [List.map_cons] at hlevels
  refine ⟨?_, fun b hb => ?_, ?_⟩
  · have hlevel : t.levelOf (owner, earlier ++ [id])
        = { t.levelOf (owner, earlier) with
            names := (t.levelOf (owner, earlier)).names ++ c.declaredName?.toList } := by
      have hnew : [id].filterMap (fun id => (t.construct? id).bind Construct.declaredName?)
          = c.declaredName?.toList := by
        rw [List.filterMap_cons, hc, Option.bind_some]
        cases c.declaredName? <;> rfl
      rw [Tree.levelOf, Tree.levelOf, List.filterMap_append, hnew]
    rw [List.map_cons, hlevel]
    cases c with
    | declaration d =>
      show _ = (Γ.declare d.name).levels
      rw [Γ.levels_declare, ← hlevels]
      rfl
    | _ =>
      simp only [Construct.declaredName?, Option.toList_none, List.append_nil]
      exact hlevels
  · rcases List.mem_cons.1 hb with rfl | hb
    · exact h.scopes (owner, earlier) List.mem_cons_self
    · exact h.scopes b (List.mem_cons_of_mem _ hb)
  · have hheading : (Γ.after id c).heading = Γ.heading := by
      cases c with
      | declaration d => exact Γ.heading_declare d.name
      | _ => rfl
    rw [hheading, ← h.headings]
    rfl

/-- All statements of a layout were passed. -/
theorem afterAll {owner : NodeId} {o : Option NodeId} {linkage : Forest.Linkage} {start : Nat}
    {f : Forest} {earlier : List NodeId} {outer : List (NodeId × List NodeId)}
    (h : Γ.Matches t ((owner, earlier) :: outer)) (hlays : t.Lays o linkage start f) :
    (Γ.afterAll start f).Matches t ((owner, earlier ++ f.roots start) :: outer) := by
  induction f generalizing Γ linkage start earlier with
  | nil =>
    rw [Forest.roots, List.append_nil]
    exact h
  | cons c line body slots rest _ _ ih =>
    obtain ⟨hstands, hrest⟩ := hlays.parts
    have hmore := ih (h.after hstands.construct?_eq) hrest
    rw [List.append_assoc] at hmore
    exact hmore

end Env.Matches

/-! ## Every node of an accepted program -/

/-- The construct at a node fits an environment that matches the blocks around the node. -/
def Tree.Fits (t : Tree) (id : Nat) : Prop :=
  ∀ c, t.construct? id = some c →
    ∃ (Γ : Env) (blocks : List (NodeId × List NodeId)),
      c.Sound Γ.names ∧ t.Reaches id blocks ∧ Γ.Matches t blocks

namespace Forest

/-- Every construct of a block fits, if the block is known with its statements before it. -/
def FitsInBlock (t : Tree) (f : Forest) : Prop :=
  ∀ {owner start : Nat} {earlier : List NodeId} {outer : List (NodeId × List NodeId)}
    {previous : Option NodeId} {Γ : Env},
    t.Lays (some owner) (.chain previous none) start f → f.Sound Γ start → owner < start →
    t.children owner = earlier ++ f.roots start → (∀ id ∈ earlier, id < start) →
    t.Reaches owner outer → Γ.Matches t ((owner, earlier) :: outer) →
    ∀ id : Nat, start ≤ id → id < start + f.size → t.Fits id

/-- Every construct in the slots of a conditional fits, if the blocks around the conditional are
known. -/
def FitsInSlots (t : Tree) (f : Forest) : Prop :=
  ∀ {owner start : Nat} {blocks : List (NodeId × List NodeId)} {c : Construct} {Γ : Env},
    t.Lays (some owner) .slots start f → f.Sound Γ start → f.Tops Construct.IsBranch →
    owner < start → (∀ id ∈ t.children owner, id < start) → t.construct? owner = some c →
    c.isUnit = false → t.Reaches owner blocks → Γ.Matches t blocks →
    ∀ id : Nat, start ≤ id → id < start + f.size → t.Fits id

/-- One construct with all that is under it. -/
theorem fits_under {t : Tree} {start : Nat} {c : Construct} {line : Nat} {body slots : Forest}
    {Γ : Env} {blocks : List (NodeId × List NodeId)} (hbody : body.FitsInBlock t)
    (hslots : slots.FitsInSlots t) (hseats : t.Seats Γ start c line body slots)
    (hreaches : t.Reaches start blocks) (hmatches : Γ.Matches t blocks) :
    ∀ id : Nat, start ≤ id → id < start + 1 + body.size + slots.size → t.Fits id := by
  intro id hge hlt
  have hstands := hseats.stands
  by_cases hid : id = start
  · subst hid
    intro c' hc'
    cases hstands.construct?_eq.symm.trans hc'
    exact ⟨Γ, blocks, hseats.sound, hreaches, hmatches⟩
  by_cases hb : id < start + 1 + body.size
  -- a construct without a scope has no body
  · by_cases hscope : c.scope? = none
    · rw [hseats.bears.body hscope, size] at hb
      omega
    · refine hbody hstands.inBody hseats.inside (Nat.lt_succ_self _) ?_ ?_ hreaches
        (hmatches.enter hstands.construct?_eq hscope hseats.allows) id (by omega) hb
      · exact hstands.children_eq
      · exact fun _ hx => absurd hx List.not_mem_nil
  · have hunit : c.isUnit = false := by
      have hallows := hseats.allows
      cases c <;> first | rfl | exact hallows.elim
    refine hslots hstands.inSlots hseats.branches hseats.bears.slots (by omega) (fun x hx => ?_)
      hstands.construct?_eq hunit hreaches hmatches id (by omega) hlt
    rw [hstands.children_eq] at hx
    exact (mem_roots hx).2

/-- Everything in a forest fits the blocks around it. -/
theorem fits (t : Tree) (f : Forest) : f.FitsInBlock t ∧ f.FitsInSlots t := by
  induction f with
  | nil =>
    constructor
    · intro owner start earlier outer previous Γ _ _ _ _ _ _ _ id hge hlt
      rw [size] at hlt
      omega
    · intro owner start blocks c Γ _ _ _ _ _ _ _ _ _ id hge hlt
      rw [size] at hlt
      omega
  | cons c line body slots rest ihb ihs ihr =>
    constructor
    · intro owner start earlier outer previous Γ hlays hsound howner hchildren hearlier hreaches
        hmatches id hge hlt
      obtain ⟨hseats, hrest, hmore⟩ := hlays.seats hsound
      rw [size] at hlt
      rw [roots] at hchildren
      have hparent := hlays.parent?_of_mem_roots (List.mem_cons_self)
      have hnew : start ∉ earlier := fun hmem => Nat.lt_irrefl _ (hearlier start hmem)
      by_cases hunder : id < start + 1 + body.size + slots.size
      · exact fits_under ihb.1 ihs.2 hseats
          (Tree.reaches_child hparent howner hchildren hnew hreaches) hmatches id hge hunder
      -- the later statements see this one
      · refine ihr.1 hrest hmore (by omega) ?_ (fun x hx => ?_) hreaches
          (hmatches.after hseats.stands.construct?_eq) id (by omega) (by omega)
        · rw [hchildren, List.append_assoc]
          rfl
        · rcases List.mem_append.1 hx with hx | hx
          · have hlt' : (x : Nat) < start := hearlier x hx
            exact Nat.lt_of_lt_of_le hlt' (by omega)
          · rw [List.mem_singleton.1 hx]
            exact Nat.lt_of_lt_of_le (Nat.lt_succ_self start) (by omega)
    · intro owner start blocks c' Γ hlays hsound htops howner hchildren hc' hunit hreaches hmatches
        id hge hlt
      obtain ⟨hseats, hrest, hmore⟩ := hlays.seats hsound
      obtain ⟨hbranch, htops'⟩ := htops
      rw [size] at hlt
      have hparent := hlays.parent?_of_mem_roots (List.mem_cons_self)
      have hnot : start ∉ t.children owner := fun hmem => Nat.lt_irrefl _ (hchildren start hmem)
      by_cases hunder : id < start + 1 + body.size + slots.size
      · exact fits_under ihb.1 ihs.2 hseats
          (Tree.reaches_branch hparent howner hnot hc' hunit hreaches) hmatches id hge hunder
      -- a branch declares nothing that the next one could see
      · rw [hbranch.after_eq] at hmore
        refine ihr.2 hrest hmore htops' (by omega) (fun x hx => ?_) hc' hunit hreaches hmatches id
          (by omega) (by omega)
        have hlt' : (x : Nat) < start := hchildren x hx
        exact Nat.lt_of_lt_of_le hlt' (by omega)

end Forest

namespace Program.Means

variable {p : Program} {o : Outline}

theorem reaches_unit (h : p.Means o) : p.tree.Reaches 0 [] :=
  Tree.reaches_root h.lays.node rfl rfl

/-- The unit before its first item. -/
theorem matches_start (h : p.Means o) : o.start.Matches p.tree [(0, [])] := by
  have hunit := h.lays.parts.1.construct?_eq
  refine ⟨?_, fun b hb => ?_, ?_⟩
  · rw [List.map_cons, Tree.levelOf, hunit]
    rfl
  · rw [List.mem_singleton.1 hb, hunit]
    rfl
  · rw [List.filterMap_cons_none]
    · rfl
    · rw [hunit]
      rfl

/-- Around the entry block there is the unit, with all of its items. -/
theorem reaches_entry (h : p.Means o) :
    p.tree.Reaches o.entryNode [(0, p.tree.children 0)] := by
  have hunit := h.lays.parts.1
  have hmem : o.entryNode ∈ (Forest.block (.entry o.entryScope) o.entryLine o.body).roots
      (0 + 1 + o.items.size) := by
    rw [Nat.zero_add]
    exact List.mem_cons_self
  have hparent := hunit.inSlots.parent?_of_mem_roots hmem
  refine Tree.reaches_entry hparent ?_ (fun hmem => ?_) hunit.construct?_eq rfl h.reaches_unit
  · exact Nat.lt_of_lt_of_le Nat.zero_lt_one (Nat.le_add_right _ _)
  · rw [h.children_unit] at hmem
    exact Nat.lt_irrefl _ (Forest.mem_roots hmem).2

/-- Every construct of an accepted program but the unit and its entry block fits an environment that
matches the blocks around it. -/
theorem fits (h : p.Means o) {id : Nat} {c : Construct} (hc : p.tree.construct? id = some c)
    {x : String} (hx : .use x ∈ c.mentions) : p.tree.Fits id := by
  have hunit := h.lays.parts.1
  have hlt : id < 1 + o.items.size + (1 + o.body.size) := by
    have hsize := Tree.lt_size_of_construct? hc
    rw [Tree.size_eq_length, h.nodes, Forest.length_nodes] at hsize
    simpa [Outline.forest, Forest.size, Forest.block, Nat.add_assoc] using hsize
  by_cases hroot : id = 0
  · subst hroot
    cases hunit.construct?_eq.symm.trans hc
    simp [Construct.mentions] at hx
  by_cases hitem : id < 1 + o.items.size
  · exact (Forest.fits p.tree o.items).1 hunit.inBody h.items Nat.zero_lt_one h.children_unit
      (fun _ hx => absurd hx List.not_mem_nil) h.reaches_unit h.matches_start id (by omega) hitem
  by_cases hentry : id = o.entryNode
  · subst hentry
    cases h.stands_entry.construct?_eq.symm.trans hc
    cases hx
  · have hready := h.matches_start.afterAll hunit.inBody
    rw [List.nil_append, ← h.children_unit] at hready
    have hmatches := hready.push h.stands_entry.construct?_eq rfl rfl
    have hge : o.entryNode + 1 ≤ id := by
      rw [Outline.entryNode] at hentry ⊢
      omega
    refine (Forest.fits p.tree o.body).1 h.stands_entry.inBody h.body (Nat.lt_succ_self _)
      h.stands_entry.children_eq (fun _ hx => absurd hx List.not_mem_nil) h.reaches_entry hmatches
      id hge ?_
    rw [Outline.entryNode]
    omega

end Program.Means

namespace Program

/-- The names in the tree of an accepted program are those of its text, in the same order.  A use of
a name means a parameter of the routine around it, if there is one of that name, and then the id is
the name; otherwise it means the innermost declaration of the name before it, and the id is made of
the scope of that block and the name. -/
theorem ofSource_lexical {source : String} {p : Program} (h : ofSource source = .ok p) :
    (∃ tokens, Token.scan source = .ok tokens ∧ Token.names tokens = p.tree.spelling) ∧
    ∀ (id : NodeId) (c : Construct) (x : String), p.tree.construct? id = some c →
      .use x ∈ c.mentions →
      (x = Name.bare x ↔ p.tree.HasParameter id (Name.bare x)) ∧
        (¬ p.tree.HasParameter id (Name.bare x) →
          ∃ scope, p.tree.DeclaredIn id (Name.bare x) scope ∧
            x = Name.qualify scope (Name.bare x)) := by
  obtain ⟨tokens, hscan, hread⟩ := ofTokens_of_ofSource h
  refine ⟨⟨tokens, hscan, names_eq hread (Token.scan_plain hscan)⟩, fun id c x hc hx => ?_⟩
  obtain ⟨o, hmeans⟩ := ofSource_means h
  obtain ⟨Γ, blocks, hsound, hreaches, hmatches⟩ := hmeans.fits hc hx c hc
  have haround : p.tree.around id = blocks := hreaches _ (Tree.lt_size_of_construct? hc)
  rw [← haround] at hmatches
  have hwrites : ∀ y, Γ.names.writes y → Γ.names.reads y := fun _ hw => hw.1
  exact hmatches.resolve_law (Construct.reads_of_use hwrites hsound hx)

/-- The text of a program in which a name is declared in the unit and again in a procedure, behind a
parameter. -/
def sampleText : String :=
  "module demo; variable real x := 5;\n" ++
  "procedure public bump(var integer n) variable integer x := n;\n" ++
  "while x > 0 repeat let n := n + 1; let x := x - 1; end while; end bump;\n" ++
  "beginning variable integer y := 1; call bump(y); end demo."

/-- The sample is accepted, and in the body of its loop the parameter and the variable are used. -/
theorem exists_sample : ∃ p c c', ofSource sampleText = .ok p ∧
    p.tree.construct? 5 = some c ∧ .use "n" ∈ c.mentions ∧
    p.tree.construct? 6 = some c' ∧ .use "demo^bump^x" ∈ c'.mentions := by
  have huses : (ofSource sampleText).toOption.any (fun p =>
      (p.tree.construct? 5).any (.use "n" ∈ ·.mentions) &&
        (p.tree.construct? 6).any (.use "demo^bump^x" ∈ ·.mentions)) = true := by decide +kernel
  cases hp : ofSource sampleText with
  | error e =>
    rw [hp] at huses
    cases huses
  | ok p =>
    rw [hp] at huses
    obtain ⟨hn, hx⟩ := Bool.and_eq_true_iff.1 huses
    obtain ⟨c, hc, hn⟩ := (Option.any_eq_true _ _).1 hn
    obtain ⟨c', hc', hx⟩ := (Option.any_eq_true _ _).1 hx
    exact ⟨p, c, c', rfl, hc, of_decide_eq_true hn, hc', of_decide_eq_true hx⟩

/-- A parameter that hides a variable of the unit, and a variable that does not. -/
theorem sampleText_lexical : ∃ p scope, ofSource sampleText = .ok p ∧
    p.tree.spelling = ["demo", "x", "bump", "n", "x", "n", "x", "n", "n", "x", "x", "y", "bump",
      "y"] ∧
    p.tree.HasParameter 5 "n" ∧ p.tree.DeclaredIn 6 "x" scope ∧
    "demo^bump^x" = Name.qualify scope "x" := by
  have hn : Name.bare "n" = "n" := by decide +kernel
  have hx : Name.bare "demo^bump^x" = "x" := by decide +kernel
  obtain ⟨p, c, c', hp, hc, huse, hc', huse'⟩ := exists_sample
  obtain ⟨⟨tokens, hscan, hnames⟩, hlaw⟩ := ofSource_lexical hp
  have hparameter := (hlaw 5 c "n" hc huse).1
  rw [hn] at hparameter
  obtain ⟨hiff, hdeclared⟩ := hlaw 6 c' "demo^bump^x" hc' huse'
  rw [hx] at hiff hdeclared
  obtain ⟨scope, hscope, heq⟩ := hdeclared fun hmem => absurd (hiff.2 hmem) (by decide)
  have hspelled : (Token.scan sampleText).toOption.map Token.names = some ["demo", "x", "bump",
      "n", "x", "n", "x", "n", "n", "x", "x", "y", "bump", "y"] := by decide +kernel
  rw [hscan] at hspelled
  exact ⟨p, scope, hp, hnames.symm.trans (Option.some.inj hspelled), hparameter.1 rfl, hscope, heq⟩

end Program

end Primer
