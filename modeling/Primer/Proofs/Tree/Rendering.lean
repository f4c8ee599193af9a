import Primer.Proofs.Language.Headers
import Primer.Proofs.Tree.Depth

/-!
# Primer.Proofs.Tree.Rendering — a rendered tree is the walk from its root, line by line.

`Tree.render` goes through a tree by recursion, with branches of its own, `Tree.reachable` with a
list of nodes that wait, and `Tree.parent?` upwards.  On a layout all three follow the same forest:
the marks of a forest (`Forest.marks`) are its positions in order, those of constructs with a
closing line once more behind all that is under them, and every mark is one line, as deep as its
node stands.

Lines are told apart by line feeds, and no line has one in it (`Program.onLines_of_ofSource`).

The lines of the rendered text are marks with a depth, and a mark is computed from one node
(`Tree.lineOf`).  What the text looks like is then said of marks alone: they come in the order of
the walk, the closing mark of a node behind those of everything under it (`Tree.RenderedBy`), and
the depth is the level of the node, which goes up by one from a parent to a child (`Tree.Leveled`).

Main statement: `Program.ofSource_rendered`.
-/

namespace Primer

open Text (OneLine)

/-! ## Lines of a text -/

namespace Text

/-- The lines of a text, without the line feeds between them. -/
def lines (s : String) : List String := (s.toList.splitOn '\n').map String.ofList

/-- Lines that were joined by line feeds are told apart again. -/
theorem lines_intercalate {ls : List String} (hne : ls ≠ []) (h : ∀ l ∈ ls, OneLine l) :
    lines ("\n".intercalate ls) = ls := by
  have hsplit : (List.intercalate ['\n'] (ls.map String.toList)).splitOn '\n'
      = ls.map String.toList :=
    List.splitOn_intercalate '\n' (List.forall_mem_map.2 h) (by simpa using hne)
  rw [lines, String.toList_intercalate, show "\n".toList = ['\n'] from rfl, hsplit, List.map_map]
  simp [Function.comp_def]

end Text

namespace Tree

/-! ## Lines of a tree -/

theorem Line.oneLine_written {l : Line} (h : OneLine l.text) : OneLine l.written := by
  rw [Line.written, Text.oneLine_append]
  refine ⟨fun hmem => ?_, h⟩
  rw [String.toList_ofList] at hmem
  exact absurd (List.eq_of_mem_replicate hmem) (by decide)

/-- The line one step further from the margin. -/
def Line.deeper (l : Line) : Line := { l with depth := l.depth + 1 }

theorem Line.written_deeper (l : Line) : l.deeper.written = "  " ++ l.written := by
  have hspaces : List.replicate (2 * (l.depth + 1)) ' '
      = ' ' :: ' ' :: List.replicate (2 * l.depth) ' ' := rfl
  rw [← String.toList_inj, deeper, written, written]
  simp [hspaces]

variable {t : Tree}

/-- The lines of a tree are headers and closing lines of its constructs. -/
theorem oneLine_of_mem_lines (h : ∀ id c, t.construct? id = some c → c.OnLines) {bound depth : Nat}
    {id : NodeId} {l : Line} (hl : l ∈ t.lines bound depth id) : OneLine l.text := by
  induction bound generalizing depth id l with
  | zero => cases hl
  | succ bound ih =>
    rw [lines] at hl
    cases hc : t.construct? id with
    | none =>
      rw [hc] at hl
      cases hl
    | some c =>
      have hlines := h id c hc
      have hbranch (slot : NodeId) :
          OneLine (((t.construct? slot).map Construct.header).getD "") := by
        cases hslot : t.construct? slot with
        | none => decide
        | some c' => exact (h slot c' hslot).header
      rw [hc] at hl
      dsimp only at hl
      split at hl
      · rw [List.mem_singleton.1 hl]
        exact hlines.header
      · simp only [List.mem_append, List.mem_cons, List.mem_flatMap, Option.mem_toList,
          Option.map_eq_some_iff] at hl
        -- The header, the body, the branches and the closing lines, in the order they are written.
        rcases hl with (((rfl | ⟨child, -, hl⟩) | ⟨slot, -, hl⟩) | ⟨s, hs, rfl⟩)
        · exact hlines.header
        · exact ih hl
        · split at hl
          · rcases List.mem_cons.1 hl with rfl | hl
            · exact hbranch slot
            · obtain ⟨child, -, hl⟩ := List.mem_flatMap.1 hl
              exact ih hl
          · exact ih hl
        · exact hlines.closing s hs

/-- The lines of the text of a node. -/
theorem lines_render (h : ∀ id c, t.construct? id = some c → c.OnLines) {id : NodeId}
    (hid : id < t.size) : Text.lines (t.render id) = (t.lines t.size 0 id).map Line.written := by
  have hne : t.lines t.size 0 id ≠ [] := by
    obtain ⟨bound, hbound⟩ : ∃ bound, t.size = bound + 1 :=
      ⟨t.size - 1, (Nat.succ_pred_eq_of_pos (Nat.zero_lt_of_lt hid)).symm⟩
    have hnode : t.node? id = some t.nodes[id] := Array.getElem?_eq_getElem hid
    rw [hbound, lines, construct?, hnode]
    dsimp only [Option.map_some]
    split <;> simp
  refine Text.lines_intercalate (by simpa using hne) (List.forall_mem_map.2 fun l hl => ?_)
  exact Line.oneLine_written (oneLine_of_mem_lines h hl)

end Tree

/-! ## Lines of a forest -/

/-- The lines of constructs in order, each with its body and its slots.  Branches stand where their
conditional stands. -/
def Forest.rendered (depth : Nat) : Forest → List Tree.Line
  | nil => []
  | cons c _ body slots rest =>
    ⟨depth, c.header⟩ :: (body.rendered (depth + 1)
      ++ (slots.rendered (if Tree.isConditional c then depth else depth + 1)
      ++ ((c.closing?.map (Tree.Line.mk depth)).toList ++ rest.rendered depth)))

/-- The lines of a forest one level deeper. -/
theorem Forest.rendered_succ (depth : Nat) (f : Forest) :
    f.rendered (depth + 1) = (f.rendered depth).map Tree.Line.deeper := by
  induction f generalizing depth with
  | nil => rfl
  | cons c line body slots rest ihb ihs ihr =>
    have hslots : slots.rendered (if Tree.isConditional c then depth + 1 else depth + 1 + 1)
        = (slots.rendered (if Tree.isConditional c then depth else depth + 1)).map
          Tree.Line.deeper := by
      split <;> exact ihs _
    have hclosing : (c.closing?.map (Tree.Line.mk (depth + 1))).toList
        = (c.closing?.map (Tree.Line.mk depth)).toList.map Tree.Line.deeper := by
      cases c.closing? <;> rfl
    simp only [rendered, ihb, hslots, hclosing, ihr, List.map_cons, List.map_append]
    rfl

/-- What has no scope has neither slots nor a closing line. -/
theorem Construct.leaf_of_scope?_eq_none {c : Construct} (h : c.scope? = none) :
    c.slots = [] ∧ c.closing? = none := by
  cases c <;> first | exact ⟨rfl, rfl⟩ | cases h

namespace Tree

variable {t : Tree} {owner : Option NodeId} {linkage : Forest.Linkage} {start : Nat} {f : Forest}

/-- A branch is rendered as its header and its body. -/
theorem Stands.lines_branch {id : Nat} {c : Construct} {line : Nat} {body slots : Forest}
    (h : t.Stands id c line body slots) (hbranch : c.IsBranch) (bound depth : Nat) :
    t.lines (bound + 1) depth id = ⟨depth, ((t.construct? id).map Construct.header).getD ""⟩
      :: (t.children id).flatMap (t.lines bound (depth + 1)) := by
  rw [lines, h.construct?_eq]
  cases c with
  | elseIf | otherwise => simp [Construct.scope?, Construct.slots, Construct.closing?]
  | _ => exact hbranch.elim

/-- A walk that may go deep enough renders a forest that is laid out in the tree. -/
theorem Lays.lines_eq (h : t.Lays owner linkage start f) (hcarried : f.Carried) {bound : Nat}
    (hbound : f.size ≤ bound) (depth : Nat) :
    (f.roots start).flatMap (t.lines bound depth) = f.rendered depth := by
  induction f generalizing owner linkage start bound depth with
  | nil => rfl
  | cons c line body slots rest ihb ihs ihr =>
    obtain ⟨hstands, hrest⟩ := h.parts
    obtain ⟨hcarries, hcbody, hcslots, hcrest⟩ := hcarried
    rw [Forest.size] at hbound
    obtain ⟨more, rfl⟩ : ∃ more, bound = more + 1 := ⟨bound - 1, by omega⟩
    have hslots : (c.slots.flatMap fun slot =>
        if isConditional c then
          ⟨depth, ((t.construct? slot).map Construct.header).getD ""⟩
            :: (t.children slot).flatMap (t.lines more (depth + 1))
        else t.lines more (depth + 1) slot)
        = slots.rendered (if isConditional c then depth else depth + 1) := by
      rw [hstands.slots_eq]
      split
      · rename_i hconditional
        -- the lines of a branch are those of a node, one level less deep
        have hbranches := hcarries.slots.imp fun _ hbranch => hbranch.2 hconditional
        rw [← ihs hstands.inSlots hcslots (show slots.size ≤ more + 1 by omega) depth]
        refine List.flatMap_congr fun slot hslot => ?_
        obtain ⟨_, _, _, _, hbranch, hs⟩ :=
          hstands.inSlots.exists_stands_of_mem_roots hbranches hslot
        exact (hs.lines_branch hbranch more depth).symm
      · exact ihs hstands.inSlots hcslots (by omega) (depth + 1)
    have hfirst : t.lines (more + 1) depth start
        = ⟨depth, c.header⟩ :: (body.rendered (depth + 1)
          ++ (slots.rendered (if isConditional c then depth else depth + 1)
          ++ (c.closing?.map (Line.mk depth)).toList)) := by
      rw [lines, hstands.construct?_eq]
      dsimp only
      rw [hslots, hstands.children_eq, ihb hstands.inBody hcbody (by omega)]
      cases hscope : c.scope? with
      | none =>
        obtain ⟨hnone, hclosing⟩ := Construct.leaf_of_scope?_eq_none hscope
        rw [← hslots, hcarries.block hscope, hnone, hclosing]
        rfl
      | some scope => simp
    rw [Forest.roots, List.flatMap_cons, hfirst, ihr hrest hcrest (by omega), Forest.rendered]
    simp only [List.cons_append, List.append_assoc]

end Tree

/-! ## Marks -/

namespace Tree

/-- What a line of a rendered tree stands for: the start of a node or its end. -/
inductive Mark where
  | opens (id : NodeId)
  | closes (id : NodeId)
deriving DecidableEq, Repr

namespace Mark

def node : Mark → NodeId
  | opens id | closes id => id

/-- The node that starts. -/
def opened? : Mark → Option NodeId
  | opens id => some id
  | closes _ => none

end Mark

end Tree

/-- The constructs that end with a line of their own. -/
def Construct.IsClosed : Construct → Prop
  | unit .. | routine _ | loop .. | conditional .. => True
  | entry _ | declaration _ | assignment .. | elseIf .. | otherwise _ | call .. | input ..
  | output _ | result _ => False

/-- A construct has a closing line exactly if its end is marked. -/
theorem Construct.isSome_closing?_iff (c : Construct) : c.closing?.isSome ↔ c.IsClosed := by
  cases c <;> simp [closing?, IsClosed]

/-- The end of a construct at a position, for those that have a closing line. -/
def Construct.endMark (c : Construct) (start : NodeId) : List Tree.Mark :=
  (c.closing?.map fun _ => Tree.Mark.closes start).toList

/-- The marks of constructs in order, each with its body and its slots. -/
def Forest.marks (start : Nat) : Forest → List Tree.Mark
  | nil => []
  | cons c _ body slots rest =>
    .opens start :: (body.marks (start + 1) ++ (slots.marks (start + 1 + body.size)
      ++ (c.endMark start ++ rest.marks (start + 1 + body.size + slots.size))))

/-- The starts are the positions in order. -/
theorem Forest.filterMap_marks (start : Nat) (f : Forest) :
    (f.marks start).filterMap Tree.Mark.opened? = List.range' start f.size := by
  induction f generalizing start with
  | nil => rfl
  | cons c line body slots rest ihb ihs ihr =>
    have hopens : Tree.Mark.opened? (.opens start) = some start := rfl
    have hend : (c.endMark start).filterMap Tree.Mark.opened? = [] := by
      unfold Construct.endMark
      cases c.closing? <;> rfl
    rw [range'_size_cons, marks, List.filterMap_cons_some hopens]
    simp only [List.filterMap_append, ihb, ihs, ihr, hend, List.nil_append]

namespace Tree

/-- The text of the line that a mark stands for. -/
def text? (t : Tree) : Mark → Option String
  | .opens id => (t.construct? id).map Construct.header
  | .closes id => (t.construct? id).bind Construct.closing?

/-- The line that a mark stands for, as deep as its node. -/
def lineOf (t : Tree) (m : Mark) : Line := ⟨t.level m.node, (t.text? m).getD ""⟩

section

variable {t : Tree} {owner : Option NodeId} {linkage : Forest.Linkage} {start : Nat} {f : Forest}
  {c : Construct} {line : Nat} {body slots : Forest} {id : Nat} {m : Mark}

/-- Behind all that is under it, a node has at most one mark. -/
theorem Stands.mem_endMark (h : t.Stands id c line body slots) :
    m ∈ c.endMark id ↔ m = .closes id ∧ (t.text? m).isSome := by
  have htext : t.text? (.closes id) = c.closing? := by rw [text?, h.construct?_eq, Option.bind_some]
  rw [Construct.endMark]
  constructor
  · intro hm
    obtain ⟨s, hs, rfl⟩ := Option.map_eq_some_iff.1 (Option.mem_toList.1 hm)
    exact ⟨rfl, by rw [htext, hs]; rfl⟩
  · rintro ⟨rfl, hsome⟩
    rw [htext] at hsome
    obtain ⟨s, hs⟩ := Option.isSome_iff_exists.1 hsome
    simp [hs]

/-- The marks of a layout are those of its positions: every start, and every end that is written. -/
theorem Lays.mem_marks (h : t.Lays owner linkage start f) :
    m ∈ f.marks start ↔ m.node ∈ List.range' start f.size ∧ (t.text? m).isSome := by
  induction f generalizing owner linkage start with
  | nil => simp [Forest.marks, Forest.size]
  | cons c line body slots rest ihb ihs ihr =>
    obtain ⟨hstands, hrest⟩ := h.parts
    have hstart : m.node = start ∧ (t.text? m).isSome
        ↔ m = .opens start ∨ (m = .closes start ∧ (t.text? m).isSome) := by
      cases m with
      | opens id =>
        have htext : (t.text? (.opens start)).isSome := by rw [text?, hstands.construct?_eq]; rfl
        simpa [Mark.node] using fun hid : id = start => hid ▸ htext
      | closes id => simp [Mark.node]
    rw [Forest.range'_size_cons]
    simp only [Forest.marks, List.mem_cons, List.mem_append, ihb hstands.inBody,
      ihs hstands.inSlots, ihr hrest, hstands.mem_endMark, or_and_right, hstart]
    tauto

/-- No mark is there twice. -/
theorem Lays.nodup_marks (h : t.Lays owner linkage start f) : (f.marks start).Nodup := by
  induction f generalizing owner linkage start with
  | nil => exact List.nodup_nil
  | cons c line body slots rest ihb ihs ihr =>
    obtain ⟨hstands, hrest⟩ := h.parts
    have hend : (c.endMark start).Nodup := by
      unfold Construct.endMark
      cases c.closing? <;> simp
    -- the parts have no node in common, and of the construct itself start and end are two marks
    have hbody := fun m (hm : m ∈ body.marks (start + 1)) => (hstands.inBody.mem_marks.1 hm).1
    have hslots := fun m (hm : m ∈ slots.marks (start + 1 + body.size)) =>
      (hstands.inSlots.mem_marks.1 hm).1
    have hafter := fun m (hm : m ∈ rest.marks (start + 1 + body.size + slots.size)) =>
      (hrest.mem_marks.1 hm).1
    have hown := fun m (hm : m ∈ c.endMark start) => (hstands.mem_endMark.1 hm).1
    simp only [List.mem_range'_1] at hbody hslots hafter
    simp only [Forest.marks, List.nodup_cons, List.nodup_append', ihb hstands.inBody,
      ihs hstands.inSlots, ihr hrest, hend, List.mem_append, List.disjoint_left, true_and]
    have hopens : (Mark.opens start).node = start := rfl
    have hcloses : (Mark.closes start).node = start := rfl
    grind

/-- Between the start and the end of a construct stand the marks of what is under it. -/
theorem Lays.exists_infix (h : t.Lays owner linkage start f) (hge : start ≤ id)
    (hlt : id < start + f.size) : ∃ c line body slots, t.Stands id c line body slots ∧
      .opens id :: (body.marks (id + 1) ++ (slots.marks (id + 1 + body.size) ++ c.endMark id))
        <:+: f.marks start := by
  induction f generalizing owner linkage start with
  | nil =>
    rw [Forest.size] at hlt
    omega
  | cons c line body slots rest ihb ihs ihr =>
    obtain ⟨hstands, hrest⟩ := h.parts
    rw [Forest.size] at hlt
    rw [Forest.marks]
    by_cases hid : id = start
    · subst hid
      refine ⟨_, _, _, _, hstands,
        List.IsPrefix.isInfix ⟨rest.marks (id + 1 + body.size + slots.size), ?_⟩⟩
      simp only [List.cons_append, List.append_assoc]
    by_cases hb : id < start + 1 + body.size
    · obtain ⟨_, _, _, _, hs, hinfix⟩ := ihb hstands.inBody (by omega) hb
      exact ⟨_, _, _, _, hs, hinfix.trans ⟨[.opens start], _, rfl⟩⟩
    by_cases hs : id < start + 1 + body.size + slots.size
    · obtain ⟨_, _, _, _, hs, hinfix⟩ := ihs hstands.inSlots (by omega) hs
      refine ⟨_, _, _, _, hs, hinfix.trans ⟨.opens start :: body.marks (start + 1),
        c.endMark start ++ rest.marks (start + 1 + body.size + slots.size), ?_⟩⟩
      simp only [List.cons_append, List.append_assoc]
    · obtain ⟨_, _, _, _, hs, hinfix⟩ := ihr hrest (by omega) (by omega)
      refine ⟨_, _, _, _, hs, hinfix.trans (List.IsSuffix.isInfix ⟨.opens start ::
        (body.marks (start + 1) ++ (slots.marks (start + 1 + body.size) ++ c.endMark start)), ?_⟩)⟩
      simp only [List.cons_append, List.append_assoc]

/-- The marks of the body and of the slots are those beneath the construct. -/
theorem Stands.mem_between (h : t.Stands id c line body slots) (ht : t.Descends) :
    m ∈ body.marks (id + 1) ++ slots.marks (id + 1 + body.size)
      ↔ t.Beneath m.node id ∧ (t.text? m).isSome := by
  rw [List.mem_append, h.inBody.mem_marks, h.inSlots.mem_marks, ← or_and_right,
    ← List.mem_append, List.range'_append_1, List.mem_range'_1, ← Nat.add_assoc, h.beneath_iff ht]
  rfl

/-- A construct that ends in a layout ends behind all that is beneath it, and there is nothing else
in between. -/
theorem Lays.nested (h : t.Lays owner linkage start f) (ht : t.Descends)
    (hid : .closes id ∈ f.marks start) : ∃ before inside after,
      f.marks start = before ++ .opens id :: (inside ++ .closes id :: after) ∧
        ∀ m, m ∈ inside ↔ m ∈ f.marks start ∧ t.Beneath m.node id := by
  obtain ⟨hrange, hclosing⟩ := h.mem_marks.1 hid
  obtain ⟨hge, hlt⟩ : start ≤ id ∧ id < start + f.size := List.mem_range'_1.1 hrange
  obtain ⟨c, _, body, slots, hstands, before, after, heq⟩ := h.exists_infix hge hlt
  have hend : c.endMark id = [.closes id] := by
    rw [text?, hstands.construct?_eq, Option.bind_some] at hclosing
    obtain ⟨s, hs⟩ := Option.isSome_iff_exists.1 hclosing
    rw [Construct.endMark, hs]
    rfl
  have hmarks : f.marks start = before ++ .opens id ::
      (body.marks (id + 1) ++ slots.marks (id + 1 + body.size) ++ .closes id :: after) := by
    rw [← heq, hend]
    simp
  refine ⟨before, _, after, hmarks, fun m => ⟨fun hm => ⟨?_, ?_⟩, ?_⟩⟩
  · rw [hmarks]
    exact List.mem_append_right _ (List.mem_cons_of_mem _ (List.mem_append_left _ hm))
  · exact ((hstands.mem_between ht).1 hm).1
  · rintro ⟨hm, hunder⟩
    exact (hstands.mem_between ht).2 ⟨hunder, (h.mem_marks.1 hm).2⟩

/-- The outermost constructs of a layout under a node stand one step further than it, or where it
stands if they are branches. -/
theorem Lays.level_of_mem_roots {n depth : Nat} (h : t.Lays (some n) linkage start f)
    (ht : t.Descends) (hn : t.level n = depth) {branches : Prop} [Decidable branches]
    (htops : f.Tops fun c => c.IsBranch ↔ branches) (hid : id ∈ f.roots start) :
    t.level id = if branches then depth else depth + 1 := by
  obtain ⟨c, _, _, _, hbranch, hs⟩ := h.exists_stands_of_mem_roots htops hid
  rw [ht.level_eq (h.parent?_of_mem_roots hid), hn]
  split
  · rw [step_of_branch hs.construct?_eq (hbranch.2 ‹_›), Nat.add_zero]
  · rw [step_of_not_branch hs.construct?_eq (mt hbranch.1 ‹_›)]

/-- The lines of a layout are those of its marks, if its outermost constructs stand at this
level. -/
theorem Lays.rendered_eq (h : t.Lays owner linkage start f) (hcarried : f.Carried)
    (ht : t.Descends) {depth : Nat} (hlevel : ∀ id ∈ f.roots start, t.level id = depth) :
    f.rendered depth = (f.marks start).map t.lineOf := by
  induction f generalizing owner linkage start depth with
  | nil => rfl
  | cons c line body slots rest ihb ihs ihr =>
    obtain ⟨hstands, hrest⟩ := h.parts
    obtain ⟨hcarries, hcbody, hcslots, hcrest⟩ := hcarried
    obtain ⟨hown, hmore⟩ := List.forall_mem_cons.1 hlevel
    have hopens : t.lineOf (.opens start) = ⟨depth, c.header⟩ := by
      rw [lineOf, text?, hstands.construct?_eq, Mark.node, hown]
      rfl
    have hend : (c.endMark start).map t.lineOf = (c.closing?.map (Line.mk depth)).toList := by
      rw [Construct.endMark]
      cases hclosing : c.closing? with
      | none => rfl
      | some s =>
        simp [lineOf, text?, hstands.construct?_eq, hclosing, Mark.node, hown]
    have hbranches : body.Tops fun c => c.IsBranch ↔ False :=
      hcarries.body.imp fun _ hbranch => iff_false_intro hbranch
    have hbody := ihb hstands.inBody hcbody fun id hid =>
      hstands.inBody.level_of_mem_roots ht hown hbranches hid
    have hslots := ihs hstands.inSlots hcslots fun id hid =>
      hstands.inSlots.level_of_mem_roots ht hown hcarries.slots hid
    rw [if_neg not_false] at hbody
    rw [Forest.rendered, Forest.marks, hbody, hslots, ihr hrest hcrest hmore]
    simp only [List.map_cons, List.map_append, hopens, hend]

end

/-! ## Accepted programs -/

/-- The marks are the lines of the text of the root: one for the start of every node, and one for
the end of every node that has a closing line. -/
structure RenderedBy (t : Tree) (root : NodeId) (marks : List Mark) : Prop where
  lines : Text.lines (t.render root) = marks.map fun m => (t.lineOf m).written
  /-- The nodes start in the order in which the walk from the root meets them. -/
  opens : marks.filterMap Mark.opened? = t.reachable
  nodup : marks.Nodup
  closes : ∀ id, .closes id ∈ marks ↔ id ∈ t.reachable ∧
    ∃ c, t.construct? id = some c ∧ c.IsClosed
  /-- Between the start and the end of a node stands all that is beneath it, and nothing else. -/
  nested : ∀ id, .closes id ∈ marks → ∃ before inside after,
    marks = before ++ .opens id :: (inside ++ .closes id :: after) ∧
      ∀ m, m ∈ inside ↔ m ∈ marks ∧ t.Beneath m.node id

/-- The root stands at the margin, a further branch of a conditional where the conditional stands,
and every other node one step further than its parent. -/
structure Leveled (t : Tree) (top : NodeId) : Prop where
  root : t.level top = 0
  branch : ∀ id ∈ t.reachable, ∀ c, t.construct? id = some c → c.IsBranch →
    ∃ owner ∈ t.reachable, ∃ scope condition elseIfs last, t.parent? id = some owner ∧
      t.construct? owner = some (.conditional scope condition elseIfs last) ∧
      id ∈ elseIfs ++ last.toList ∧ t.level id = t.level owner
  other : ∀ id ∈ t.reachable, ∀ c, t.construct? id = some c → ¬ c.IsBranch → id ≠ top →
    ∃ owner ∈ t.reachable, t.parent? id = some owner ∧ t.level id = t.level owner + 1

end Tree

/-- The program is one unit, and its tree is laid out as the unit with its items and its entry
block. -/
structure Program.LaidOut (p : Program) (c : Construct) (line : Nat) (items entry : Forest) :
    Prop where
  lays : p.tree.Lays none (.chain none none) 0 (.cons c line items entry .nil)
  carried : (Forest.cons c line items entry .nil).Carried
  size : p.tree.size = (Forest.cons c line items entry .nil).size
  root : p.root = 0
  top : p.tree.root = some 0
  unit : ∃ name scope block, c = .unit name scope block

/-- The tree of an accepted program is one layout, with the unit at its front. -/
theorem Grammar.ReadsProgram.laidOut {tokens : List Lexeme} {f : Forest} {p : Program}
    (h : ReadsProgram tokens f p) : ∃ c line items entry, p.LaidOut c line items entry := by
  obtain ⟨hnodes, hlinked, hroot, htop⟩ := h.nodes_eq
  have hcarried := h.carried
  have hsize : p.tree.size = f.size := by
    rw [Tree.size_eq_length, hnodes, Forest.length_nodes]
  cases h
  exact ⟨_, _, _, _, Tree.lays_of_toList hnodes hlinked, hcarried, hsize, hroot, htop, _, _, _, rfl⟩

namespace Program.LaidOut

variable {p : Program} {c : Construct} {line : Nat} {items entry : Forest}

/-- In such a tree, whatever is found by walking down finds its way back. -/
theorem descends (h : p.LaidOut c line items entry) : p.tree.Descends := by
  refine Tree.descends_of_lays h.lays ?_
  have hsize := h.size
  simp only [Forest.size] at hsize
  omega

/-- The walk from the root meets the positions in order. -/
theorem reachable_eq (h : p.LaidOut c line items entry) :
    p.tree.reachable = List.range' 0 (Forest.cons c line items entry .nil).size := by
  rw [h.lays.reachable_eq h.size.symm (by rw [h.top]; rfl), List.range_eq_range', h.size]

theorem mem_reachable_iff (h : p.LaidOut c line items entry) {id : NodeId} :
    id ∈ p.tree.reachable ↔ id < p.tree.size := by
  rw [h.reachable_eq, ← h.size, List.mem_range'_1, Nat.zero_add]
  exact and_iff_right (Nat.zero_le id)

theorem level_root (h : p.LaidOut c line items entry) : p.tree.level 0 = 0 := by
  refine Tree.level_eq_zero (Tree.parent?_eq_none fun n hn => ?_)
  cases hn.symm.trans h.lays.node
  exact ⟨rfl, rfl⟩

/-- The lines below the root are those of the forest. -/
theorem lines_root (h : p.LaidOut c line items entry) :
    p.tree.lines p.tree.size 0 p.root = (Forest.cons c line items entry .nil).rendered 0 := by
  rw [← h.lays.lines_eq h.carried (Nat.le_of_eq h.size.symm) 0, h.root]
  exact (List.flatMap_singleton _ _).symm

theorem rendered_eq (h : p.LaidOut c line items entry) :
    (Forest.cons c line items entry .nil).rendered 0
      = ((Forest.cons c line items entry .nil).marks 0).map p.tree.lineOf :=
  h.lays.rendered_eq h.carried h.descends (List.forall_mem_singleton.2 h.level_root)

theorem pos_size (h : p.LaidOut c line items entry) : p.root < p.tree.size := by
  rw [h.root]
  exact Tree.lt_size_of_construct? h.lays.parts.1.construct?_eq

/-- The rendered tree is the marks of the forest, line by line. -/
theorem renderedBy (h : p.LaidOut c line items entry)
    (hlines : ∀ id c, p.tree.construct? id = some c → c.OnLines) :
    p.tree.RenderedBy p.root ((Forest.cons c line items entry .nil).marks 0) where
  lines := by
    rw [Tree.lines_render hlines h.pos_size, h.lines_root, h.rendered_eq, List.map_map]
    rfl
  opens := by rw [Forest.filterMap_marks, h.reachable_eq]
  nodup := h.lays.nodup_marks
  closes id := by
    rw [h.lays.mem_marks, h.reachable_eq]
    refine and_congr_right fun _ => ?_
    rw [Tree.text?]
    cases p.tree.construct? id <;> simp [Construct.isSome_closing?_iff]
  nested _ hid := h.lays.nested h.descends hid

/-- Every node but the first has a parent, and the level of the parent says its own. -/
theorem exists_parent (h : p.LaidOut c line items entry) {id : NodeId}
    (hid : id ∈ p.tree.reachable) (hne : id ≠ p.root) :
    ∃ owner ∈ p.tree.reachable, id ∈ p.tree.successors owner ∧ p.tree.parent? id = some owner ∧
      p.tree.level id = p.tree.level owner + p.tree.step id := by
  have hlt := h.mem_reachable_iff.1 hid
  rw [h.root] at hne
  rw [h.size] at hlt
  obtain ⟨owner, -, -, hmem, hparent⟩ :=
    h.lays.parts.1.exists_owner (Nat.pos_of_ne_zero hne) (by simpa [Forest.size] using hlt)
  exact ⟨owner, h.mem_reachable_iff.2 (Tree.lt_size_of_mem_successors hmem), hmem, hparent,
    h.descends.level_eq hparent⟩

/-- The levels start at the root and go up by one from a parent to a child. -/
theorem leveled (h : p.LaidOut c line items entry) : p.tree.Leveled p.root where
  root := by rw [h.root, h.level_root]
  branch id hid c' hc hbranch := by
    have hne : id ≠ p.root := by
      rintro rfl
      rw [h.root] at hc
      cases hc.symm.trans h.lays.parts.1.construct?_eq
      obtain ⟨_, _, _, rfl⟩ := h.unit
      exact hbranch
    obtain ⟨owner, howner, hmem, hparent, hlevel⟩ := h.exists_parent hid hne
    have hlt := h.mem_reachable_iff.1 howner
    rw [h.size] at hlt
    obtain ⟨_, _, _, _, hstands, hcarries⟩ :=
      h.lays.exists_carries h.carried (Nat.zero_le owner) (by rwa [Nat.zero_add])
    obtain ⟨scope, condition, elseIfs, last, rfl, hslot⟩ :=
      hstands.conditional_of_branch hcarries hmem hc hbranch
    rw [Tree.step_of_branch hc hbranch, Nat.add_zero] at hlevel
    exact ⟨owner, howner, scope, condition, elseIfs, last, hparent, hstands.construct?_eq, hslot,
      hlevel⟩
  other id hid c' hc hbranch hne := by
    obtain ⟨owner, howner, -, hparent, hlevel⟩ := h.exists_parent hid hne
    rw [Tree.step_of_not_branch hc hbranch] at hlevel
    exact ⟨owner, howner, hparent, hlevel⟩

/-- The statements of the unit and its entry block are what is directly under it. -/
theorem topLevel_eq (h : p.LaidOut c line items entry) :
    p.topLevel = p.tree.successors p.root := by
  obtain ⟨name, scope, block, rfl⟩ := h.unit
  have hunit : p.tree.construct? p.root = some (.unit name scope block) := by
    rw [h.root]
    exact h.lays.parts.1.construct?_eq
  rw [topLevel, entry?, hunit, Tree.successors, hunit]
  rfl

/-- The top level of a program, one step deeper, between the first line and the last. -/
theorem lines_between (h : p.LaidOut c line items entry)
    (hlines : ∀ id c, p.tree.construct? id = some c → c.OnLines) :
    ∃ first last, Text.lines (p.tree.render p.root)
      = first :: ((p.renderTopLevel.flatMap Text.lines).map ("  " ++ ·) ++ [last]) := by
  obtain ⟨hstands, -⟩ := h.lays.parts
  obtain ⟨-, hcitems, hcentry, -⟩ := h.carried
  have hsize := h.size
  simp only [Forest.size] at hsize
  have hbelow : (p.tree.successors p.root).flatMap (p.tree.lines p.tree.size 0)
      = items.rendered 0 ++ entry.rendered 0 := by
    rw [h.root, hstands.successors_eq, List.flatMap_append,
      hstands.inBody.lines_eq hcitems (by omega) 0, hstands.inSlots.lines_eq hcentry (by omega) 0]
  have htop : p.renderTopLevel.flatMap Text.lines
      = (items.rendered 0 ++ entry.rendered 0).map Tree.Line.written := by
    rw [renderTopLevel, h.topLevel_eq, List.flatMap_map, ← hbelow, List.map_flatMap]
    exact List.flatMap_congr fun id hid =>
      Tree.lines_render hlines (h.descends.behind hid).2
  obtain ⟨name, scope, block, rfl⟩ := h.unit
  refine ⟨"module " ++ name, "end " ++ name ++ ".", ?_⟩
  rw [Tree.lines_render hlines h.pos_size, h.lines_root, htop, List.map_map]
  have hindent : ("  " ++ ·) ∘ Tree.Line.written = Tree.Line.written ∘ Tree.Line.deeper :=
    funext fun l => (l.written_deeper).symm
  rw [hindent, ← List.map_map, List.map_append, ← Forest.rendered_succ, ← Forest.rendered_succ]
  simp [Forest.rendered, Tree.isConditional, Construct.closing?, Construct.header,
    Tree.Line.written]

end Program.LaidOut

namespace Program

/-- Of an accepted program, the rendered tree agrees with the walks.  It has one line for every
node, its header, in the order of the walk from the root, and one for the end of every node that has
a closing line, behind the whole subtree; each is indented by two spaces for every level.  Without
the first line and the last, and one step to the left, it is the rendered top level. -/
theorem ofSource_rendered {source : String} {p : Program} (h : ofSource source = .ok p) :
    (∃ marks, p.tree.RenderedBy p.root marks) ∧ p.tree.Leveled p.root ∧
    (∀ id c, p.tree.construct? id = some c → OneLine c.header) ∧
    ∃ first last, Text.lines (p.tree.render p.root)
      = first :: ((p.renderTopLevel.flatMap Text.lines).map ("  " ++ ·) ++ [last]) := by
  obtain ⟨tokens, hscan, hread⟩ := ofTokens_of_ofSource h
  obtain ⟨f, hreads⟩ := ofTokens_reads hread
  obtain ⟨c, line, items, entry, hlaid⟩ := hreads.laidOut
  have hlines : ∀ id c, p.tree.construct? id = some c → c.OnLines :=
    fun _ _ hc => onLines_of_ofSource h hc
  exact ⟨⟨_, hlaid.renderedBy hlines⟩, hlaid.leveled, fun id c hc => (hlines id c hc).header,
    hlaid.lines_between hlines⟩

/-- The text of a program with a loop in a procedure, branches, and a line feed in a literal. -/
def indentedText : String :=
  "module m; procedure public p() while false repeat end while; end p;\n" ++
  "beginning if true then call p(); elseif false then else output '\\n'; end if; end m."

/-- A program with nested blocks, whose rendering is one of its marks. -/
theorem indentedText_rendered : ∃ p marks, ofSource indentedText = .ok p ∧
    p.tree.RenderedBy p.root marks ∧ p.tree.Leveled p.root ∧
    (∀ id c, p.tree.construct? id = some c → OneLine c.header) ∧
    ∃ first last, Text.lines (p.tree.render p.root)
      = first :: ((p.renderTopLevel.flatMap Text.lines).map ("  " ++ ·) ++ [last]) := by
  obtain ⟨p, hp⟩ := Except.exists_eq_ok (x := ofSource indentedText) (by decide +kernel)
  obtain ⟨⟨marks, hmarks⟩, hlevels, hheaders, hbetween⟩ := ofSource_rendered hp
  exact ⟨p, marks, hp, hmarks, hlevels, hheaders, hbetween⟩

/-- Branches stand where their conditional stands, and the entry block has no closing line. -/
example : (ofSource indentedText).toOption.map (fun p => p.tree.render p.root) = some
    ("module m\n  procedure public p()\n    while false repeat\n    end while\n  end p\n" ++
      "  beginning\n    if true then\n      call p()\n    elseif false then\n    else\n" ++
      "      output '\\n'\n    end if\nend m.") := by decide +kernel

end Program

end Primer
