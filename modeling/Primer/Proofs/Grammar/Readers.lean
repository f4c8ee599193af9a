import Primer.Proofs.Grammar.Reading

/-!
# Primer.Proofs.Grammar.Readers — the readers follow the rules.

Each reader of statements, blocks and programs is taken apart step by step and its run is put
together again from the rules of `Reads`.  The readers of nested blocks get the reader of a body as
an argument, so their lemmas have one that follows the rules as a hypothesis; `block_reads` closes
the circle by induction on the bound.  Main statement: `ofTokens_reads`.

In each proof the readers in a sequence are taken apart by `bind_ok`, one after the other, and what
is known of the drafts between them is what the rules ask for.  The rules for statements in a block
differ from those for items of the unit and for branches by a role (`Role`), which says what may
stand beside each other.
-/

namespace Primer.Grammar

/-! ## Single changes -/

theorem allocate_ok {c : Construct} {line : Nat} {d d' : Draft} {id : NodeId}
    (h : (allocate c line).run d = .ok id d') : d.tree.size = id ∧ d.allocated c line = d' := by
  cases h
  exact ⟨rfl, rfl⟩

theorem place_ok {f : Tree → Except TreeFault Tree} {line : Nat} {d d' : Draft} {u : Unit}
    (h : (place f line).run d = .ok u d') : ∃ tree, f d.tree = .ok tree ∧ d.planted tree = d' := by
  obtain ⟨_, _, hg, h⟩ := bind_ok h
  obtain ⟨rfl, rfl⟩ := get_ok hg
  split at h
  · rename_i tree ht
    exact ⟨tree, ht, set_ok h⟩
  · exact (refuse_ok h).elim

/-- A block without a name takes the next number. -/
theorem blockScope_ok {label : String} {d d' : Draft} {scope : String}
    (h : (blockScope label).run d = .ok scope d') :
    d.nextScope label = scope ∧ d.counted = d' := by
  cases h
  exact ⟨rfl, rfl⟩

/-- A statement is attached to the innermost block. -/
theorem attach_ok {node : NodeId} {d d' : Draft} {u : Unit}
    (h : (attach node).run d = .ok u d') : d.attached node = d' := by
  cases h
  rfl

/-- What is read in a block is read with the block open. -/
theorem inBlock_ok {node : NodeId} {scope : String} {body : Parse Unit} {d d' : Draft} {u : Unit}
    (h : (inBlock node scope body).run d = .ok u d') :
    ∃ d₁, body.run (d.opened node scope) = .ok () d₁ ∧ d₁.closed = d' := by
  obtain ⟨_, d₀, ho, h⟩ := bind_ok h
  obtain ⟨_, d₁, hb, hc⟩ := bind_ok h
  have hopened : d.opened node scope = d₀ := by
    cases ho
    rfl
  have hclosed : d₁.closed = d' := by
    cases hc
    rfl
  exact ⟨d₁, hopened ▸ hb, hclosed⟩

/-! ## Ends of blocks -/

/-- The end of a block is two keywords. -/
theorem blockEnd_ok {k : Keyword} (hk : k ≠ .end) {d d' : Draft} {u : Unit}
    (h : (blockEnd k).run d = .ok u d') : d.Spells [] d' := by
  obtain ⟨_, d₁, he, h⟩ := bind_ok h
  obtain ⟨l, d₂, ha, h⟩ := bind_ok h
  split at h
  · rename_i hl
    -- `end` and the keyword behind it are taken together
    have hne : l.token ≠ .word .end := by
      rw [hl]
      exact fun heq => hk (by injection heq)
    have hs := (expect_drops he).closing (advance_ok ha) rfl hne
    obtain ⟨_, d₃, hm, h⟩ := bind_ok h
    obtain ⟨rfl, rfl⟩ := pure_ok h
    exact hs.trans (expect_ok hm rfl).toSpells
  · exact (refuse_ok h).elim

/-- The end of a routine is a keyword and a name. -/
theorem namedEnd_ok {name : String} {d d' : Draft} {u : Unit}
    (h : (namedEnd name).run d = .ok u d') : d.Spells [] d' := by
  obtain ⟨_, d₁, he, h⟩ := bind_ok h
  obtain ⟨found, d₂, hi, h⟩ := bind_ok h
  split at h
  · obtain ⟨rfl, rfl⟩ := pure_ok h
    obtain ⟨line, hdrops⟩ := identifier_drops hi
    exact (expect_drops he).closing hdrops rfl (fun heq => by cases heq)
  · exact (refuse_ok h).elim

/-! ## Declarations -/

/-- A constant names nothing. -/
theorem mentions_of_constant {e : Expr} {n : Int} (h : constant e = .ok n) : e.mentions = [] := by
  fun_induction constant e generalizing n with
  | case1 => rfl
  | case2 => cases h
  | case3 line operand ih =>
    cases hc : constant operand with
    | error fault =>
      rw [hc] at h
      cases h
    | ok m => exact ih hc
  | case4 line op left right ihl ihr =>
    cases hl : constant left with
    | error fault =>
      rw [hl] at h
      cases h
    | ok m =>
      cases hr : constant right with
      | error fault =>
        rw [hl, hr] at h
        cases h
      | ok k =>
        rw [Expr.mentions, ihl hl, ihr hr]
        rfl
  | case5 => cases h

theorem arraySize_ok {e : Expr} {size : Nat} (h : arraySize e = .ok size) :
    0 < size ∧ e.spelling = [] := by
  unfold arraySize at h
  cases hc : constant e with
  | error fault =>
    rw [hc] at h
    cases h
  | ok n =>
    rw [hc] at h
    change (if n < 1 then _ else _) = _ at h
    split at h
    · cases h
    · cases h
      refine ⟨by omega, ?_⟩
      rw [Expr.spelling, mentions_of_constant hc]
      rfl

theorem dimensions_yields (bound : Nat) :
    ∀ more, Yields (dimensions bound more) (fun _ => [])
      (fun _ sizes => ∀ size ∈ sizes, 0 < size) := by
  intro more
  induction more with
  | zero =>
    intro d d' sizes h
    obtain ⟨rfl, rfl⟩ := pure_ok h
    exact ⟨.refl d, by simp⟩
  | succ more ih =>
    intro d d' sizes h
    rw [dimensions] at h
    obtain ⟨b, d₁, hb, h⟩ := bind_ok h
    have hs₁ := eat_ok hb rfl
    split at h
    · obtain ⟨e, d₂, hx, h⟩ := bind_ok h
      have hs₂ := (expression_yields bound hx).1
      split at h
      · cases h
      · rename_i size hsize
        obtain ⟨hpos, hspelling⟩ := arraySize_ok hsize
        rw [hspelling] at hs₂
        obtain ⟨_, d₃, hc, h⟩ := bind_ok h
        obtain ⟨rest, d₄, hr, h⟩ := bind_ok h
        obtain ⟨rfl, rfl⟩ := pure_ok h
        obtain ⟨hs₄, hrest⟩ := ih hr
        refine ⟨((hs₁.trans hs₂).trans (expect_ok hc rfl).toSpells).trans hs₄, ?_⟩
        simpa using ⟨hpos, hrest⟩
    · obtain ⟨rfl, rfl⟩ := pure_ok h
      exact ⟨hs₁, by simp⟩

/-- A declarator gives a name, a type and an initial value that go together. -/
theorem declarator_ok {bound line : Nat} {d d' : Draft} {type : SlotType} {name : String}
    {initializer : Initializer}
    (h : (declarator bound line).run d = .ok (type, name, initializer) d') :
    d.Spells (name :: initializer.mentions.map Mention.name) d' ∧ d.Writes name ∧ type.Proper ∧
      initializer.Sound d.names type := by
  obtain ⟨b, d₁, hb, h⟩ := bind_ok h
  have hs₁ := eat_ok hb rfl
  split at h
  · obtain ⟨sizes, d₂, hd, h⟩ := bind_ok h
    obtain ⟨hs₂, hpos⟩ := dimensions_yields bound bound hd
    dsimp only at h
    split at h
    · obtain ⟨_, _, _, h⟩ := bind_ok h
      obtain ⟨_, _, hr, _⟩ := bind_ok h
      -- No size at all is refused.
      exact (refuse_ok hr).elim
    · rename_i hempty
      obtain ⟨_, d₃, ho, h⟩ := bind_ok h
      obtain ⟨element, d₄, ht, h⟩ := bind_ok h
      obtain ⟨name', d₅, hn, h⟩ := bind_ok h
      obtain ⟨hv, rfl⟩ := pure_ok h
      cases hv
      have hs₄ := ((hs₁.trans hs₂).trans (expect_ok ho rfl).toSpells).trans (scalarType_ok ht)
      obtain ⟨hs₅, hw⟩ := identifier_ok hn
      exact ⟨hs₄.trans hs₅, hs₄.writes hw, ⟨by simpa using hempty, hpos⟩, rfl⟩
  · obtain ⟨t, d₂, ht, h⟩ := bind_ok h
    obtain ⟨name', d₃, hn, h⟩ := bind_ok h
    have hs₂ := hs₁.trans (scalarType_ok ht)
    obtain ⟨hs₃, hw⟩ := identifier_ok hn
    obtain ⟨b', d₄, hb', h⟩ := bind_ok h
    have hs₄ : d.Spells [name'] d₄ := (hs₂.trans hs₃).trans (eat_ok hb' rfl)
    split at h
    · obtain ⟨e, d₅, hx, h⟩ := bind_ok h
      obtain ⟨hv, rfl⟩ := pure_ok h
      cases hv
      obtain ⟨hs₅, he⟩ := expression_yields bound hx
      exact ⟨hs₄.trans hs₅, hs₂.writes hw, trivial, ⟨t, rfl⟩, e.sound_mono hs₄.names_le he⟩
    · obtain ⟨hv, rfl⟩ := pure_ok h
      cases hv
      exact ⟨hs₄, hs₂.writes hw, trivial, rfl⟩

/-- The node of a declaration is the next one to be made. -/
theorem declaration_reads {bound : Nat} {d d' : Draft} {id : NodeId}
    (h : (declaration bound).run d = .ok id d') :
    d.tree.size = id ∧ ∃ v line, Reads .declaration d (.leaf (.declaration v) line) d' := by
  obtain ⟨line, d₁, hl, h⟩ := bind_ok h
  have htaken := expect_ok hl rfl
  obtain ⟨⟨type, name, initializer⟩, d₂, hd, h⟩ := bind_ok h
  obtain ⟨hs₂, hw, hproper, hinit⟩ := declarator_ok hd
  obtain ⟨_, d₃, hm, h⟩ := bind_ok h
  obtain ⟨_, _, hg, h⟩ := bind_ok h
  obtain ⟨rfl, rfl⟩ := get_ok hg
  have hs₃ := hs₂.skips (expect_ok hm rfl).toSpells
  have htaken₃ := htaken.trans hs₃
  have hall := htaken₃.toSkips
  dsimp only at h
  split at h
  · obtain ⟨_, _, hr, _⟩ := bind_ok h
    exact (refuse_ok hr).elim
  · rename_i hnew
    obtain ⟨_, _, hset, h⟩ := bind_ok h
    obtain rfl := set_ok hset
    obtain ⟨rfl, rfl⟩ := allocate_ok h
    -- the id is made after the semicolon, in the block of the first token
    have hscope : d₃.scope = d.scope := by rw [hall.rest]; rfl
    let v : Declaration := { type, name, id := Name.qualify d₃.scope name, initializer }
    refine ⟨congrArg Tree.size hall.tree.symm, v, line, Reads.declaration htaken₃
      (htaken.toSkips.writes hw) ?_ ?_ ?_⟩
    · exact ⟨hproper, initializer.sound_mono htaken.toSkips.names_le hinit⟩
    · exact congrArg (Name.qualify · name) hscope
    · rw [← hall.declared]
      simpa using hnew

/-! ## Statements without a body -/

/-- What a body may have in it: the node that is answered is the next one to be made, and its
reading follows the rules. -/
def Follows (x : Parse NodeId) : Prop :=
  ∀ ⦃d d' : Draft⦄ ⦃id : NodeId⦄, 2 ≤ d.blocks.length → x.run d = .ok id d' →
    d.tree.size = id ∧ ∃ role f, Role.body.Admits role ∧ Reads role d f d'

/-- A statement of one line, whose construct was made when everything else had been read. -/
theorem simple_reads {d d₁ d' : Draft} {line : Nat} {c : Construct} {id : NodeId}
    (h : (allocate c line).run d₁ = .ok id d') (taken : d.Takes line c.spelling d₁)
    (kind : c.IsSimple) (sound : c.Sound d.names) :
    d.tree.size = id ∧ ∃ role f, Role.body.Admits role ∧ Reads role d f d' := by
  obtain ⟨rfl, rfl⟩ := allocate_ok h
  exact ⟨congrArg Tree.size taken.toSkips.tree.symm, .statement, _, trivial,
    .simple taken kind sound⟩

theorem declaration_follows (bound : Nat) : Follows (declaration bound) := by
  intro d d' id _ h
  obtain ⟨hid, v, line, hr⟩ := declaration_reads h
  exact ⟨hid, .declaration, _, trivial, hr⟩

theorem target_ok {bound line : Nat} {d d' : Draft} {id : String} {path : List Expr}
    (h : (target bound line).run d = .ok (id, path) d') :
    d.Spells (Name.bare id :: (Expr.mentionsList path).map Mention.name) d' ∧
      d.names.writes id ∧ Expr.SoundList d.names path := by
  obtain ⟨name, d₁, hn, h⟩ := bind_ok h
  obtain ⟨hs₁, hw⟩ := identifier_ok hn
  obtain ⟨id', d₂, hr, h⟩ := bind_ok h
  obtain ⟨rfl, hid, hro⟩ := resolveWritable_ok hr
  obtain ⟨path', d₃, hi, h⟩ := bind_ok h
  obtain ⟨hv, rfl⟩ := pure_ok h
  cases hv
  obtain ⟨hs₂, hpath⟩ := indices_yields (expression_yields bound) bound hi
  rw [hs₁.resolve?] at hid
  rw [hs₁.isReadOnly] at hro
  exact ⟨(hs₁.trans hs₂).resolved hw hid, ⟨⟨name, hw, hid⟩, hro⟩,
    Expr.soundList_mono hs₁.names_le path hpath⟩

theorem assignment_follows (bound : Nat) : Follows (assignment bound) := by
  intro d d' id _ h
  obtain ⟨line, d₁, hl, h⟩ := bind_ok h
  have htaken := expect_ok hl rfl
  obtain ⟨⟨place, path⟩, d₂, ht, h⟩ := bind_ok h
  obtain ⟨hs₂, hplace, hpath⟩ := target_ok ht
  obtain ⟨_, d₃, ha, h⟩ := bind_ok h
  obtain ⟨value, d₄, hx, h⟩ := bind_ok h
  obtain ⟨_, d₅, hm, h⟩ := bind_ok h
  have hs₃ := hs₂.skips (expect_ok ha rfl).toSpells
  obtain ⟨hs₄, hvalue⟩ := expression_yields bound hx
  have hbefore := htaken.toSkips
  refine simple_reads h ?_ trivial ⟨hbefore.names_le.writes _ hplace, ?_, ?_⟩
  · have hall := htaken.trans ((hs₃.trans hs₄).skips (expect_ok hm rfl).toSpells)
    simpa [Construct.spelling, Construct.mentions, Expr.spelling, Mention.name] using hall
  · exact Expr.soundList_mono hbefore.names_le path hpath
  · exact value.sound_mono (hbefore.trans hs₃.toSkips).names_le hvalue

theorem callStatement_follows (bound : Nat) : Follows (callStatement bound) := by
  intro d d' id _ h
  obtain ⟨line, d₁, hl, h⟩ := bind_ok h
  have htaken := expect_ok hl rfl
  obtain ⟨name, d₂, hn, h⟩ := bind_ok h
  have hs₂ := (identifier_ok hn).1
  obtain ⟨found, d₃, ha, h⟩ := bind_ok h
  obtain ⟨_, d₄, hm, h⟩ := bind_ok h
  obtain ⟨hs₃, heading, hc, hf⟩ := arguments_yields (expression_yields bound) bound name line ha
  have hle := (htaken.toSkips.trans hs₂.toSkips).names_le
  exact simple_reads h (htaken.trans ((hs₂.trans hs₃).skips (expect_ok hm rfl).toSpells)) trivial
    ⟨heading, hle.callable _ _ hc, Expr.fit_mono hle _ found hf⟩

theorem inputStatement_follows (bound : Nat) : Follows (inputStatement bound) := by
  intro d d' id _ h
  obtain ⟨line, d₁, hl, h⟩ := bind_ok h
  have htaken := expect_ok hl rfl
  obtain ⟨⟨place, path⟩, d₂, ht, h⟩ := bind_ok h
  obtain ⟨hs₂, hplace, hpath⟩ := target_ok ht
  obtain ⟨_, d₃, hm, h⟩ := bind_ok h
  have hle := htaken.toSkips.names_le
  exact simple_reads h (htaken.trans (hs₂.skips (expect_ok hm rfl).toSpells)) trivial
    ⟨hle.writes _ hplace, Expr.soundList_mono hle path hpath⟩

theorem outputStatement_follows (bound : Nat) : Follows (outputStatement bound) := by
  intro d d' id _ h
  obtain ⟨line, d₁, hl, h⟩ := bind_ok h
  have htaken := expect_ok hl rfl
  obtain ⟨value, d₂, hx, h⟩ := bind_ok h
  obtain ⟨_, d₃, hm, h⟩ := bind_ok h
  obtain ⟨hs₂, hvalue⟩ := expression_yields bound hx
  exact simple_reads h (htaken.trans (hs₂.skips (expect_ok hm rfl).toSpells)) trivial
    (value.sound_mono htaken.toSkips.names_le hvalue)

theorem returnStatement_follows (bound : Nat) : Follows (returnStatement bound) := by
  intro d d' id _ h
  obtain ⟨line, d₁, hl, h⟩ := bind_ok h
  have htaken := expect_ok hl rfl
  obtain ⟨_, _, hg, h⟩ := bind_ok h
  obtain ⟨rfl, rfl⟩ := get_ok hg
  -- The reader asks behind the keyword, and the blocks are still those in front of it.
  have henclosing : d₁.enclosing? = d.enclosing? := htaken.toSkips.names_le.heading
  split at h
  · exact (refuse_ok h).elim
  · rename_i heading hheading
    rw [henclosing] at hheading
    obtain ⟨next, _, hp, h⟩ := bind_ok h
    obtain ⟨rfl, _⟩ := peek_ok hp
    dsimp only at h
    split at h
    · rename_i _ type hresult _
      obtain ⟨value, d₂, hx, h⟩ := bind_ok h
      obtain ⟨e, hread, rfl⟩ := map_ok hx
      obtain ⟨_, d₃, hm, h⟩ := bind_ok h
      obtain ⟨hs₂, he⟩ := expression_yields bound hread
      exact simple_reads h (htaken.trans (hs₂.skips (expect_ok hm rfl).toSpells)) trivial
        ⟨⟨heading, type, hheading, hresult⟩, e.sound_mono htaken.toSkips.names_le he⟩
    · obtain ⟨_, _, hr, _⟩ := bind_ok h
      exact (refuse_ok hr).elim
    · rename_i hresult _
      obtain ⟨value, d₂, hx, h⟩ := bind_ok h
      obtain ⟨rfl, rfl⟩ := pure_ok hx
      obtain ⟨_, d₃, hm, h⟩ := bind_ok h
      exact simple_reads h (htaken.skips (expect_ok hm rfl).toSpells) trivial
        ⟨heading, hheading, hresult⟩
    · obtain ⟨_, _, hr, _⟩ := bind_ok h
      exact (refuse_ok hr).elim

/-! ## Statements with bodies -/

/-- The reader of a body follows the rules wherever a body may stand. -/
def BodyReads (body : Body) : Prop :=
  ∀ ⦃keywords : List Keyword⦄ ⦃d d' : Draft⦄ ⦃u : Unit⦄, (body keywords).run d = .ok u d' →
    2 ≤ d.blocks.length → ∃ f, Reads .body d f d'

/-- A condition between two keywords, in front of what is read behind it. -/
theorem condition_ok {α : Type} {bound : Nat} {opening closing : Token}
    {next : Nat → Expr → Parse α} {d d' : Draft} {a : α}
    (h : (do
        let line ← expect opening
        let condition ← expression bound
        let _ ← expect closing
        next line condition : Parse α).run d = .ok a d')
    (hopening : opening.isSilent = true) (hclosing : closing.isSilent = true) :
    ∃ line condition d₁, d.Takes line condition.spelling d₁ ∧ condition.Sound d.names ∧
      (next line condition).run d₁ = .ok a d' := by
  obtain ⟨line, d₁, hl, h⟩ := bind_ok h
  have htaken := expect_ok hl hopening
  obtain ⟨condition, d₂, hx, h⟩ := bind_ok h
  obtain ⟨hs, hcondition⟩ := expression_yields bound hx
  obtain ⟨_, d₃, hr, h⟩ := bind_ok h
  exact ⟨line, condition, d₃, htaken.trans (hs.skips (expect_ok hr hclosing).toSpells),
    condition.sound_mono htaken.toSkips.names_le hcondition, h⟩

theorem loop_follows {body : Body} (hbody : BodyReads body) (bound : Nat) :
    Follows (loop body bound) := by
  intro d d' id hdeep h
  obtain ⟨line, condition, d₃, htaken₃, hcondition, h⟩ := condition_ok h rfl rfl
  have hdeep₃ : 2 ≤ d₃.blocks.length := by rwa [htaken₃.toSkips.blocks]
  obtain ⟨scope, d₄, hcount, h⟩ := bind_ok h
  obtain ⟨hscope, rfl⟩ := blockScope_ok hcount
  obtain ⟨node, d₅, ha, h⟩ := bind_ok h
  obtain ⟨rfl, rfl⟩ := allocate_ok ha
  obtain ⟨_, d₆, hin, h⟩ := bind_ok h
  obtain ⟨d₇, hb, rfl⟩ := inBlock_ok hin
  obtain ⟨_, d₈, he, h⟩ := bind_ok h
  obtain ⟨rfl, rfl⟩ := pure_ok h
  obtain ⟨f, hf⟩ := hbody hb (Nat.le_succ_of_le hdeep₃)
  exact ⟨congrArg Tree.size htaken₃.toSkips.tree.symm, .statement, _, trivial,
    .loop htaken₃ hcondition hscope.symm hf (blockEnd_ok (fun heq => by cases heq) he)⟩

/-- The branches with conditions, in front of whatever is read as the branches after them. -/
theorem elseIfs_reads {body : Body} (hbody : BodyReads body) (bound : Nat) (conditional : NodeId)
    {d' d'' : Draft}
    (hrest : 2 ≤ d'.blocks.length → ∃ g, Reads (.branches conditional) d' g d'') :
    ∀ (more : Nat) {d : Draft} {u : Unit}, 2 ≤ d.blocks.length →
      (elseIfs body bound conditional more).run d = .ok u d' →
      ∃ f, Reads (.branches conditional) d f d'' := by
  intro more
  induction more with
  | zero =>
    intro d u hdeep h
    obtain ⟨_, rfl⟩ := pure_ok h
    exact hrest hdeep
  | succ more ih =>
    intro d u hdeep h
    rw [elseIfs] at h
    obtain ⟨next, _, hp, h⟩ := bind_ok h
    obtain ⟨rfl, _⟩ := peek_ok hp
    split at h
    · obtain ⟨line, condition, d₃, htaken₃, hcondition, h⟩ := condition_ok h rfl rfl
      have hdeep₃ : 2 ≤ d₃.blocks.length := by rwa [htaken₃.toSkips.blocks]
      obtain ⟨scope, d₄, hcount, h⟩ := bind_ok h
      obtain ⟨hscope, rfl⟩ := blockScope_ok hcount
      obtain ⟨branch, d₅, ha, h⟩ := bind_ok h
      obtain ⟨rfl, rfl⟩ := allocate_ok ha
      obtain ⟨_, d₆, hplace, h⟩ := bind_ok h
      obtain ⟨tree, htree, rfl⟩ := place_ok hplace
      obtain ⟨_, d₇, hin, h⟩ := bind_ok h
      obtain ⟨d₈, hb, rfl⟩ := inBlock_ok hin
      obtain ⟨f, hf⟩ := hbody hb (Nat.le_succ_of_le hdeep₃)
      -- the body has closed all that it opened, so the next branch starts at the same depth
      have hclosed : d₈.closed.blocks = d₃.blocks := hf.sameBlocks.outer
      obtain ⟨g, hg⟩ := ih (hclosed ▸ hdeep₃) h
      exact ⟨_, .elseIf htaken₃ hcondition hscope.symm htree hf hg⟩
    · obtain ⟨_, rfl⟩ := pure_ok h
      exact hrest hdeep

/-- The branch without a condition, if there is one. -/
theorem otherwise_reads {body : Body} (hbody : BodyReads body) {conditional : NodeId}
    {d d' : Draft} {u : Unit} (h : (otherwise body conditional).run d = .ok u d')
    (hdeep : 2 ≤ d.blocks.length) : ∃ f, Reads (.branches conditional) d f d' := by
  obtain ⟨next, _, hp, h⟩ := bind_ok h
  obtain ⟨rfl, _⟩ := peek_ok hp
  split at h
  · obtain ⟨line, d₁, hl, h⟩ := bind_ok h
    have htaken := expect_ok hl rfl
    have hdeep₁ : 2 ≤ d₁.blocks.length := by rwa [htaken.toSkips.blocks]
    obtain ⟨scope, d₂, hcount, h⟩ := bind_ok h
    obtain ⟨hscope, rfl⟩ := blockScope_ok hcount
    obtain ⟨branch, d₃, ha, h⟩ := bind_ok h
    obtain ⟨rfl, rfl⟩ := allocate_ok ha
    obtain ⟨_, d₄, hplace, h⟩ := bind_ok h
    obtain ⟨tree, htree, rfl⟩ := place_ok hplace
    obtain ⟨d₅, hb, rfl⟩ := inBlock_ok h
    obtain ⟨f, hf⟩ := hbody hb (Nat.le_succ_of_le hdeep₁)
    exact ⟨_, .otherwise htaken hscope.symm htree hf⟩
  · obtain ⟨_, rfl⟩ := pure_ok h
    exact ⟨_, .done trivial⟩

theorem conditional_follows {body : Body} (hbody : BodyReads body) (bound : Nat) :
    Follows (conditional body bound) := by
  intro d d' id hdeep h
  obtain ⟨line, condition, d₃, htaken₃, hcondition, h⟩ := condition_ok h rfl rfl
  have hdeep₃ : 2 ≤ d₃.blocks.length := by rwa [htaken₃.toSkips.blocks]
  obtain ⟨scope, d₄, hcount, h⟩ := bind_ok h
  obtain ⟨hscope, rfl⟩ := blockScope_ok hcount
  obtain ⟨node, d₅, ha, h⟩ := bind_ok h
  obtain ⟨rfl, rfl⟩ := allocate_ok ha
  obtain ⟨_, d₆, hin, h⟩ := bind_ok h
  obtain ⟨d₇, hb, rfl⟩ := inBlock_ok hin
  obtain ⟨_, d₈, helse, h⟩ := bind_ok h
  obtain ⟨_, d₉, hlast, h⟩ := bind_ok h
  obtain ⟨_, d₁₀, he, h⟩ := bind_ok h
  obtain ⟨rfl, rfl⟩ := pure_ok h
  obtain ⟨f, hf⟩ := hbody hb (Nat.le_succ_of_le hdeep₃)
  have hclosed : d₇.closed.blocks = d₃.blocks := hf.sameBlocks.outer
  obtain ⟨g, hg⟩ :=
    elseIfs_reads hbody bound _ (otherwise_reads hbody hlast) bound (hclosed ▸ hdeep₃) helse
  exact ⟨congrArg Tree.size htaken₃.toSkips.tree.symm, .statement, _, trivial,
    .conditional htaken₃ hcondition hscope.symm hf hg (blockEnd_ok (fun heq => by cases heq) he)⟩

/-! ## Routines -/

/-- A parameter is its name, its type and its mode. -/
theorem parameter_yields :
    Yields parameter (fun p => [p.name]) (fun d p => d.Writes p.name) := by
  intro d d' p h
  obtain ⟨⟨token, line⟩, d₁, ha, h⟩ := bind_ok h
  have hdrops := advance_ok ha
  have hmode : token.isSilent = true ∧ ∃ mode, (do
      let type ← scalarType
      let name ← identifier
      return { mode, type, name } : Parse Parameter).run d₁ = .ok p d' := by
    dsimp only at h
    split at h
    · exact ⟨rfl, .byValue, h⟩
    · exact ⟨rfl, .byReference, h⟩
    · obtain ⟨_, _, hr, _⟩ := bind_ok h
      exact (refuse_ok hr).elim
  obtain ⟨hsilent, mode, h⟩ := hmode
  obtain ⟨type, d₂, ht, h⟩ := bind_ok h
  obtain ⟨name, d₃, hn, h⟩ := bind_ok h
  obtain ⟨rfl, rfl⟩ := pure_ok h
  have hs₂ := (hdrops.silent hsilent).toSpells.trans (scalarType_ok ht)
  obtain ⟨hs₃, hw⟩ := identifier_ok hn
  exact ⟨hs₂.trans hs₃, hs₂.writes hw⟩

theorem visibility_ok {d d' : Draft} {v : Visibility} (h : visibility.run d = .ok v d') :
    d.Spells [] d' := by
  obtain ⟨⟨token, line⟩, d₁, ha, h⟩ := bind_ok h
  have hdrops := advance_ok ha
  dsimp only at h
  split at h
  · obtain ⟨rfl, rfl⟩ := pure_ok h
    exact (hdrops.silent rfl).toSpells
  · obtain ⟨rfl, rfl⟩ := pure_ok h
    exact (hdrops.silent rfl).toSpells
  · exact (refuse_ok h).elim

/-- No name repeats an earlier one or stands in the list of names seen before. -/
theorem nodup_of_firstRepeated? {names seen : List String}
    (h : firstRepeated? seen names = none) : names.Nodup ∧ ∀ name ∈ names, name ∉ seen := by
  induction names generalizing seen with
  | nil => simp
  | cons name rest ih =>
    rw [firstRepeated?] at h
    split at h
    · cases h
    · rename_i hnew
      obtain ⟨hnodup, hseen⟩ := ih h
      refine ⟨List.nodup_cons.2 ⟨fun hmem => hseen name hmem List.mem_cons_self, hnodup⟩, ?_⟩
      intro other hother
      rcases List.mem_cons.1 hother with rfl | hother
      · exact hnew
      · exact fun hmem => hseen other hother (List.mem_cons_of_mem _ hmem)

/-- The result clause that functions have and procedures have not, in front of what follows it. -/
theorem result_ok {α : Type} {c : Prop} [Decidable c] {next : Option Scalar → Parse α}
    {d d' : Draft} {a : α}
    (h : (if c then do
        let _ ← expect (.mark .colon)
        let result ← some <$> scalarType
        next result
      else do
        let result ← pure none
        next result : Parse α).run d = .ok a d') :
    ∃ result d₁, d.Spells [] d₁ ∧ (next result).run d₁ = .ok a d' := by
  split at h
  · obtain ⟨_, d₁, hc, h⟩ := bind_ok h
    obtain ⟨result, d₂, ht, h⟩ := bind_ok h
    obtain ⟨type, hread, rfl⟩ := map_ok ht
    exact ⟨_, d₂, (expect_ok hc rfl).toSpells.trans (scalarType_ok hread), h⟩
  · obtain ⟨result, d₁, hp, h⟩ := bind_ok h
    obtain ⟨rfl, rfl⟩ := pure_ok hp
    exact ⟨_, d, .refl d, h⟩

/-- A routine is attached behind what was read of it.  That it starts with a keyword was seen before
it is read. -/
theorem routine_reads {body : Body} (hbody : BodyReads body) {bound : Nat} {d d' : Draft} {u : Unit}
    (hfirst : ∀ l d₁, d.Drops l d₁ → l.token.isSilent = true)
    (h : (routine body bound).run d = .ok u d') :
    d.blocks.length = 1 ∧ ∃ f d₁, Reads .routine d f d₁ ∧ d₁.attached d.tree.size = d' := by
  obtain ⟨keyword, d₁, hk, h⟩ := bind_ok h
  have hdrops := advance_ok hk
  have htaken := hdrops.silent (hfirst keyword d₁ hdrops)
  obtain ⟨visibility, d₂, hv, h⟩ := bind_ok h
  obtain ⟨name, d₃, hn, h⟩ := bind_ok h
  obtain ⟨hs₃, hw⟩ := identifier_ok hn
  have htaken₂ := htaken.skips (visibility_ok hv)
  have htaken₃ := htaken₂.trans hs₃
  obtain ⟨_, _, hg, h⟩ := bind_ok h
  obtain ⟨rfl, rfl⟩ := get_ok hg
  dsimp only at h
  split at h
  · obtain ⟨_, _, hr, _⟩ := bind_ok h
    exact (refuse_ok hr).elim
  · rename_i hlevel
    -- a routine is refused unless only the block of the unit is open
    have houter : d.blocks.length = 1 := by
      rw [← htaken₃.toSkips.blocks]
      simpa using hlevel
    obtain ⟨_, d₄, ho, h⟩ := bind_ok h
    obtain ⟨parameters, d₅, hps, h⟩ := bind_ok h
    have htaken₄ := htaken₃.skips (expect_ok ho rfl).toSpells
    have hmono : ∀ (_ : Nat) {d d' : Draft} {p : Parameter}, d.Skips d' → d'.Writes p.name →
        d.Writes p.name := fun _ _ _ _ hs hp => hs.writes hp
    obtain ⟨hs₅, hparameters⟩ :=
      commaSeparated_yields hmono (fun _ => parameter_yields) bound hps
    have htaken₅ := htaken₄.trans hs₅
    split at h
    · obtain ⟨_, _, hr, _⟩ := bind_ok h
      exact (refuse_ok hr).elim
    · rename_i hrepeated
      obtain ⟨result, d₆, hs₆, h⟩ := result_ok h
      obtain ⟨_, _, hg, h⟩ := bind_ok h
      obtain ⟨rfl, rfl⟩ := get_ok hg
      have htaken₆ := htaken₅.skips hs₆
      obtain ⟨node, d₇, ha, h⟩ := bind_ok h
      obtain ⟨rfl, rfl⟩ := allocate_ok ha
      obtain ⟨_, d₈, hin, h⟩ := bind_ok h
      obtain ⟨d₉, hb, rfl⟩ := inBlock_ok hin
      obtain ⟨_, d₁₀, he, h⟩ := bind_ok h
      obtain ⟨_, d₁₁, hm, h⟩ := bind_ok h
      obtain ⟨_, _, hg, h⟩ := bind_ok h
      obtain ⟨rfl, rfl⟩ := get_ok hg
      split at h
      · obtain ⟨_, _, hr, _⟩ := bind_ok h
        exact (refuse_ok hr).elim
      · rename_i routines hdefined
        obtain ⟨_, d₁₂, hset, h⟩ := bind_ok h
        obtain rfl := set_ok hset
        -- reading the heading has changed neither the tree nor the blocks
        have hsize : d₆.tree.size = d.tree.size := congrArg Tree.size htaken₆.toSkips.tree
        have hscope : d₆.scope = d.scope := by rw [htaken₆.toSkips.rest]; rfl
        have hblocks : d₆.blocks.length = d.blocks.length :=
          congrArg List.length htaken₆.toSkips.blocks
        have hdeep : 2 ≤ d₆.blocks.length + 1 := by omega
        obtain ⟨f, hf⟩ := hbody hb hdeep
        refine ⟨houter, _, _, .routine (Construct.spelling_routine _ ▸ htaken₆) houter
          (htaken₂.toSkips.writes hw)
          (nodup_of_firstRepeated? (Option.eq_none_iff_forall_ne_some.2 hrepeated)).1 ?_
          (congrArg (Name.qualify · name) hscope) hf
          ((namedEnd_ok he).trans (expect_ok hm rfl).toSpells) hdefined, ?_⟩
        · intro p hp
          obtain ⟨i, hi, rfl⟩ := List.getElem_of_mem hp
          exact htaken₄.toSkips.writes (hparameters i hi)
        · rw [← hsize]
          exact attach_ok h

/-! ## Blocks -/

theorem statement?_follows {body : Body} (hbody : BodyReads body) {bound : Nat} {k : Keyword}
    {statement : Parse NodeId} (h : statement? body bound k = some statement) :
    Follows statement := by
  unfold statement? at h
  split at h <;> cases h
  · exact declaration_follows bound
  · exact assignment_follows bound
  · exact conditional_follows hbody bound
  · exact loop_follows hbody bound
  · exact callStatement_follows bound
  · exact inputStatement_follows bound
  · exact outputStatement_follows bound
  · exact returnStatement_follows bound

/-- An item of a body: a routine cannot be one, because the body is not on the level of the unit. -/
theorem item_reads {body : Body} (hbody : BodyReads body) {bound : Nat} {next : Token}
    {d d' : Draft} {u : Unit} (hdeep : 2 ≤ d.blocks.length)
    (hpeek : d.tokens.head?.map (·.token) = some next)
    (h : (item body bound next).run d = .ok u d') :
    ∃ role f d₁, Role.body.Admits role ∧ Reads role d f d₁ ∧ d₁.attached d.tree.size = d' := by
  have hroutine : next.isSilent = true → ¬ (routine body bound).run d = .ok u d' := by
    intro hsilent hr
    have hlevel := (routine_reads hbody (fun l d₁ hd => hd.token_eq hpeek ▸ hsilent) hr).1
    omega
  have hunexpected : ¬ (item.unexpected next : Parse Unit).run d = .ok u d' := by
    intro hr
    obtain ⟨_, _, _, hr⟩ := bind_ok hr
    exact refuse_ok hr
  unfold item at h
  split at h
  · exact absurd h (hroutine rfl)
  · exact absurd h (hroutine rfl)
  · split at h
    · rename_i statement hstatement
      obtain ⟨node, d₁, hs, h⟩ := bind_ok h
      obtain ⟨rfl, role, f, hadmits, hf⟩ := statement?_follows hbody hstatement hdeep hs
      exact ⟨role, f, d₁, hadmits, hf, attach_ok h⟩
    · exact absurd h hunexpected
  · exact absurd h hunexpected

/-- A block of statements, up to its end. -/
theorem block_reads : ∀ bound, BodyReads (block bound) := by
  intro bound
  induction bound with
  | zero =>
    intro keywords d d' u h _
    exact (endOfText_ok h).elim
  | succ bound ih =>
    intro keywords d d' u h hdeep
    rw [block] at h
    obtain ⟨next, _, hp, h⟩ := bind_ok h
    obtain ⟨rfl, hpeek⟩ := peek_ok hp
    split at h
    · exact (endOfText_ok h).elim
    · split at h
      · obtain ⟨_, rfl⟩ := pure_ok h
        exact ⟨_, .done trivial⟩
      · obtain ⟨_, d₁, hi, h⟩ := bind_ok h
        obtain ⟨role, f, d₂, hadmits, hf, rfl⟩ := item_reads ih hdeep hpeek hi
        have hkept : 2 ≤ (d₂.attached d.tree.size).blocks.length := by
          have hkeys := congrArg List.length (d₂.blocks_attached d.tree.size).2
          simp only [List.length_map] at hkeys
          rw [hkeys, hf.length_blocks]
          exact hdeep
        obtain ⟨g, hg⟩ := ih h hkept
        exact ⟨_, .item hadmits hf hg⟩

/-! ## Programs -/

/-- The items of the unit, up to the entry block. -/
theorem unitItems_reads : ∀ (bound : Nat) {d d' : Draft} {u : Unit},
    (unitItems bound).run d = .ok u d' → ∃ f, Reads .items d f d' := by
  intro bound
  induction bound with
  | zero =>
    intro d d' u h
    exact (endOfText_ok h).elim
  | succ bound ih =>
    intro d d' u h
    rw [unitItems] at h
    obtain ⟨next, _, hp, h⟩ := bind_ok h
    obtain ⟨rfl, hpeek⟩ := peek_ok hp
    -- functions and procedures are read by one reader, and both keywords are silent
    have hroutine : ∀ {t : Token} {d₁ : Draft} {v : Unit},
        d.tokens.head?.map (·.token) = some t → t.isSilent = true →
        (routine (block bound) bound).run d = .ok v d₁ → (unitItems bound).run d₁ = .ok u d' →
        ∃ f, Reads .items d f d' := by
      intro t d₁ v hpeek hsilent hr h
      obtain ⟨_, f, d₂, hf, rfl⟩ :=
        routine_reads (block_reads bound) (fun l d₁ hd => hd.token_eq hpeek ▸ hsilent) hr
      obtain ⟨g, hg⟩ := ih h
      have hadmits : Role.items.Admits .routine := trivial
      exact ⟨_, .item hadmits hf hg⟩
    split at h
    · exact (endOfText_ok h).elim
    · obtain ⟨_, rfl⟩ := pure_ok h
      exact ⟨_, .done trivial⟩
    · obtain ⟨node, d₁, hd, h⟩ := bind_ok h
      obtain ⟨_, d₂, ha, h⟩ := bind_ok h
      obtain ⟨rfl, v, line, hv⟩ := declaration_reads hd
      obtain rfl := attach_ok ha
      obtain ⟨g, hg⟩ := ih h
      have hadmits : Role.items.Admits .declaration := trivial
      exact ⟨_, .item hadmits hv hg⟩
    · obtain ⟨_, d₁, hr, h⟩ := bind_ok h
      exact hroutine hpeek rfl hr h
    · obtain ⟨_, d₁, hr, h⟩ := bind_ok h
      exact hroutine hpeek rfl hr h
    · obtain ⟨_, _, _, h⟩ := bind_ok h
      exact (refuse_ok h).elim

/-- The reader of a unit follows the rules, and nothing is left of the text. -/
theorem unit_reads {bound : Nat} {tokens : List Lexeme} {root : NodeId} {d : Draft}
    (h : (unit bound).run (Draft.start tokens) = .ok root d) :
    ∃ f, ReadsProgram tokens f
      { tree := d.tree, routines := d.routines, declared := d.declared, root } := by
  obtain ⟨line, d₁, hl, h⟩ := bind_ok h
  have htaken := expect_ok hl rfl
  obtain ⟨name, d₂, hn, h⟩ := bind_ok h
  obtain ⟨hs₂, hw⟩ := identifier_ok hn
  obtain ⟨_, d₃, hm, h⟩ := bind_ok h
  have htaken₃ := htaken.trans (hs₂.skips (expect_ok hm rfl).toSpells)
  obtain ⟨node, d₄, ha, h⟩ := bind_ok h
  obtain ⟨rfl, rfl⟩ := allocate_ok ha
  obtain ⟨_, d₅, hplace, h⟩ := bind_ok h
  obtain ⟨tree, htree, rfl⟩ := place_ok hplace
  obtain ⟨_, d₆, hin, h⟩ := bind_ok h
  obtain ⟨d₇, hb, rfl⟩ := inBlock_ok hin
  obtain ⟨_, d₈, hitems, hb⟩ := bind_ok hb
  obtain ⟨_, d₉, hentry, hb⟩ := bind_ok hb
  obtain ⟨_, d₁₀, he, hb⟩ := bind_ok hb
  obtain ⟨_, d₁₁, hdot, hb⟩ := bind_ok hb
  obtain ⟨_, rfl⟩ := pure_ok hb
  -- inside of the unit: the items, and behind them the entry block
  obtain ⟨items, hitems⟩ := unitItems_reads bound hitems
  obtain ⟨entryLine, d₁₂, hbegin, hentry⟩ := bind_ok hentry
  obtain ⟨entry, d₁₃, ha', hentry⟩ := bind_ok hentry
  obtain ⟨rfl, rfl⟩ := allocate_ok ha'
  obtain ⟨_, d₁₄, hplace', hentry⟩ := bind_ok hentry
  obtain ⟨tree', htree', rfl⟩ := place_ok hplace'
  obtain ⟨d₁₅, hbody, rfl⟩ := inBlock_ok hentry
  have htaken₁₂ := expect_ok hbegin rfl
  have hdeep : 2 ≤ d₁₂.blocks.length + 1 := by
    rw [htaken₁₂.toSkips.blocks, hitems.length_blocks]
    exact Nat.le_add_left 2 _
  obtain ⟨body, hbody⟩ := block_reads bound hbody hdeep
  have hend := (namedEnd_ok he).trans (expect_ok hdot rfl).toSpells
  obtain ⟨_, _, hg, h⟩ := bind_ok h
  obtain ⟨rfl, rfl⟩ := get_ok hg
  split at h
  · rename_i hcomplete
    obtain ⟨rfl, rfl⟩ := pure_ok h
    have hp := ReadsProgram.intro htaken₃ (htaken.toSkips.writes hw) htree hitems htaken₁₂ rfl
      htree' hbody hend hcomplete
    rw [← show d₁₁.closed.tree = d₁₅.tree from hend.tree,
      ← show d₁₁.closed.routines = d₁₅.routines from hend.routines,
      ← show d₁₁.closed.declared = d₁₅.declared from hend.declared] at hp
    exact ⟨_, hp⟩
  · exact (refuse_ok h).elim

end Primer.Grammar

namespace Primer.Program

open Grammar

/-- Every accepted list of tokens has been read as some forest, by the rules. -/
theorem ofTokens_reads {tokens : List Lexeme} {p : Program} (h : ofTokens tokens = .ok p) :
    ∃ f, ReadsProgram tokens f p := by
  unfold ofTokens at h
  split at h
  · rename_i root d hunit
    cases h
    exact unit_reads hunit
  · cases h

end Primer.Program
