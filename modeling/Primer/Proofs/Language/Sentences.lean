import Primer.Proofs.Language.Taken
import Primer.Proofs.Tree.Branches

/-!
# Primer.Proofs.Language.Sentences — what the readers of statements and programs take.

The readers of statements change the draft, so their lemmas say which tokens are gone and nothing
about the rest.  That a branch finds its conditional is known from the rules that the bodies before
it were read by (`Reads.keepsConditionals`).

`Draft.Took P d'` says that the tokens between two drafts have the property `P`; for a reader of a
form it is that they are derived by the rules of the form.  Refusals are textual
(`ParseFault.IsTextual`) if they are not about a node that could not be placed.  Both are shown
together, since a refusal can come from any step of a reader that in the end would have answered.

Main statements: `Program.ofTokens_derives` and `Program.ofTokens_isTextual`.
-/

namespace Primer.Grammar

/-! ## Sizes -/

/-- A size out of range is an invalid size. -/
theorem wide_error {n : Int} {line : Nat} {e : ParseError} (h : wide n line = .error e) :
    ∃ cause line, e = ⟨.invalidArraySize cause, line⟩ := by
  unfold wide at h
  split at h
  · cases h
  · cases h
    exact ⟨_, _, rfl⟩

theorem sizeOperation_error {op : BinaryOp} {a b : Int} {line : Nat} {e : ParseError}
    (h : sizeOperation op a b line = .error e) :
    ∃ cause line, e = ⟨.invalidArraySize cause, line⟩ := by
  unfold sizeOperation at h
  split at h
  · exact wide_error h
  · exact wide_error h
  · exact wide_error h
  · split at h
    · cases h
      exact ⟨_, _, rfl⟩
    · exact wide_error h
  · cases h
    exact ⟨_, _, rfl⟩

/-- An expression that is no constant is refused as a size, whatever else is wrong with it. -/
theorem constant_error {e : Expr} {err : ParseError} (h : constant e = .error err) :
    ∃ cause line, err = ⟨.invalidArraySize cause, line⟩ := by
  fun_induction constant e generalizing err with
  | case1 => cases h
  | case2 =>
    cases h
    exact ⟨_, _, rfl⟩
  | case3 line operand ih =>
    cases hc : constant operand with
    | error fault =>
      rw [hc] at h
      cases h
      exact ih hc
    | ok m =>
      rw [hc] at h
      exact wide_error h
  | case4 line op left right ihl ihr =>
    cases hl : constant left with
    | error fault =>
      rw [hl] at h
      cases h
      exact ihl hl
    | ok m =>
      cases hr : constant right with
      | error fault =>
        rw [hl, hr] at h
        cases h
        exact ihr hr
      | ok k =>
        rw [hl, hr] at h
        exact sizeOperation_error h
  | case5 =>
    cases h
    exact ⟨_, _, rfl⟩

/-- What is refused about a size is that it is invalid. -/
theorem arraySize_error {e : Expr} {err : ParseError} (h : arraySize e = .error err) :
    ∃ cause line, err = ⟨.invalidArraySize cause, line⟩ := by
  unfold arraySize at h
  cases hc : constant e with
  | error fault =>
    rw [hc] at h
    cases h
    exact constant_error hc
  | ok n =>
    rw [hc] at h
    change (if n < 1 then _ else _) = _ at h
    split at h
    · cases h
      exact ⟨_, _, rfl⟩
    · cases h

/-! ## Declarations -/

theorem dimensions_takes (bound : Nat) : ∀ (more : Nat) (d : Draft),
    Comes (dimensions bound more) d (fun sizes d' => d.Skips d' ∧
      d.Took (fun w => Phrase.indices.Derives w ∧ (sizes.isEmpty = false → w ≠ [])) d')
      ParseFault.IsTextual := by
  intro more
  induction more with
  | zero => exact fun d => Comes.pure ⟨.refl d, [], rfl, .noIndex, by simp⟩
  | succ more ih =>
    intro d
    rw [dimensions]
    refine comes_eat (fun d₁ h₁ hs₁ => ?_) fun _ =>
      Comes.pure ⟨.refl d, [], rfl, .noIndex, by simp⟩
    refine (expression_takes bound).bind fun e d₂ w hw hp hs₂ => ?_
    split
    · rename_i fault hsize
      obtain ⟨cause, line, rfl⟩ := arraySize_error hsize
      exact Comes.refuse trivial
    · refine comes_expect fun _ d₃ h₃ hs₃ => ?_
      refine Comes.bind (ih d₃) ?_
      rintro sizes d₄ ⟨hs₄, v, hv, hmore, -⟩
      refine Comes.pure ⟨((hs₁.trans hs₂).trans hs₃).trans hs₄, _, ?_, .index hp hmore, by simp⟩
      rw [h₁, hw, h₃, hv]
      simp

/-- What stands between the keyword of a declaration and its semicolon. -/
theorem declarator_takes (bound line : Nat) : Takes (declarator bound line) (fun w =>
    Form.declaration.Derives (.word .variable :: (w ++ [.mark .semicolon]))) := by
  intro d
  refine comes_eat (fun d₁ h₁ hs₁ => ?_) fun _ => ?_
  · refine Comes.bind (dimensions_takes bound bound d₁) ?_
    rintro sizes d₂ ⟨hs₂, v, hv, hindices, hnonempty⟩
    dsimp only
    split
    · exact Comes.peek (Comes.refuseBind trivial)
    · rename_i hsizes
      -- At least one size was read, since none is refused.
      have hne := hnonempty (by simpa using hsizes)
      refine comes_expect fun _ d₃ h₃ hs₃ => ?_
      refine comes_scalarType fun element d₄ h₄ hs₄ => ?_
      refine comes_identifier fun name d₅ h₅ hs₅ => Comes.pure ⟨?_, ?_⟩
      · exact (((hs₁.trans hs₂).trans hs₃).trans hs₄).trans hs₅
      · cases hindices with
        | noIndex => exact absurd rfl hne
        | index first more =>
          rename_i w₁ w₂
          refine ⟨.word .array :: .mark .openBracket :: (w₁ ++ .mark .closeBracket :: (w₂ ++
            [.word .of, .word (.scalar element), .identifier name])), ?_, ?_⟩
          · rw [h₁, hv, h₃, h₄, h₅]
            simp
          · simpa using Form.Derives.array first more
  · refine comes_scalarType fun type d₁ h₁ hs₁ => ?_
    refine comes_identifier fun name d₂ h₂ hs₂ => ?_
    refine comes_eat (fun d₃ h₃ hs₃ => ?_) fun _ => ?_
    · refine (expression_takes bound).bind fun e d₄ w hw hp hs₄ => Comes.pure ⟨?_, ?_⟩
      · exact ((hs₁.trans hs₂).trans hs₃).trans hs₄
      · refine ⟨.word (.scalar type) :: .identifier name :: .mark .assign :: w, ?_,
          .initialized hp⟩
        rw [h₁, h₂, h₃, hw]
        rfl
    · refine Comes.pure ⟨hs₁.trans hs₂, [.word (.scalar type), .identifier name], ?_, .scalar⟩
      rw [h₁, h₂]
      rfl

theorem declaration_takes (bound : Nat) (d : Draft) :
    Comes (declaration bound) d (fun _ d' => d.Took Form.declaration.Derives d')
      ParseFault.IsTextual := by
  refine comes_expect fun line d₁ h₁ hs₁ => ?_
  refine (declarator_takes bound line).bind fun found d₂ w hw hp hs₂ => ?_
  refine comes_expect fun _ d₃ h₃ hs₃ => Comes.get ?_
  dsimp only
  split
  · exact Comes.refuseBind trivial
  · refine ⟨_, ?_, hp⟩
    rw [h₁, hw, h₃]
    show _ = _ ++ d₃.words
    simp

/-! ## Statements -/

/-- The reader of a statement takes one. -/
def TakesStatement (x : Parse NodeId) : Prop :=
  ∀ d : Draft, 2 ≤ d.blocks.length →
    Comes x d (fun _ d' => d.Took Form.statement.Derives d') ParseFault.IsTextual

/-- What is assigned to is a name with indices. -/
theorem target_takes (bound line : Nat) : Takes (target bound line)
    (fun w => ∃ name path, w = .identifier name :: path ∧ Phrase.indices.Derives path) := by
  intro d
  refine comes_identifier fun name d₁ h₁ hs₁ => comes_resolveWritable fun id => ?_
  refine (indices_takes (expression_takes bound) bound).bind fun path d₂ w hw hp hs₂ => ?_
  exact Comes.pure ⟨hs₁.trans hs₂, .identifier name :: w, by rw [h₁, hw]; rfl, name, w, rfl, hp⟩

theorem assignment_takes (bound : Nat) : TakesStatement (assignment bound) := by
  intro d _
  refine comes_expect fun line d₁ h₁ _ => ?_
  refine (target_takes bound line).bind fun found d₂ w hw htarget _ => ?_
  obtain ⟨name, path, rfl, hpath⟩ := htarget
  refine comes_expect fun _ d₃ h₃ _ => ?_
  refine (expression_takes bound).bind fun value d₄ v hv hvalue _ => ?_
  refine comes_expect fun _ d₅ h₅ _ => ⟨_, ?_, @Form.Derives.assignment name _ _ hpath hvalue⟩
  rw [h₁, hw, h₃, hv, h₅]
  show _ = _ ++ d₅.words
  simp

theorem callStatement_takes (bound : Nat) : TakesStatement (callStatement bound) := by
  intro d _
  refine comes_expect fun line d₁ h₁ _ => comes_identifier fun name d₂ h₂ _ => ?_
  refine (arguments_takes (expression_takes bound) bound name line).bind
    fun found d₃ w hw hgiven _ => ?_
  refine comes_expect fun _ d₄ h₄ _ => ⟨_, ?_, @Form.Derives.call name _ hgiven⟩
  rw [h₁, h₂, hw, h₄]
  show _ = _ ++ d₄.words
  simp

theorem inputStatement_takes (bound : Nat) : TakesStatement (inputStatement bound) := by
  intro d _
  refine comes_expect fun line d₁ h₁ _ => ?_
  refine (target_takes bound line).bind fun found d₂ w hw htarget _ => ?_
  obtain ⟨name, path, rfl, hpath⟩ := htarget
  refine comes_expect fun _ d₃ h₃ _ => ⟨_, ?_, @Form.Derives.input name _ hpath⟩
  rw [h₁, hw, h₃]
  show _ = _ ++ d₃.words
  simp

theorem outputStatement_takes (bound : Nat) : TakesStatement (outputStatement bound) := by
  intro d _
  refine comes_expect fun line d₁ h₁ _ => ?_
  refine (expression_takes bound).bind fun value d₂ w hw hvalue _ => ?_
  refine comes_expect fun _ d₃ h₃ _ => ⟨_, ?_, .output hvalue⟩
  rw [h₁, hw, h₃]
  show _ = _ ++ d₃.words
  simp

theorem returnStatement_takes (bound : Nat) : TakesStatement (returnStatement bound) := by
  intro d _
  refine comes_expect fun line d₁ h₁ _ => Comes.get ?_
  split
  · exact Comes.refuse trivial
  · refine Comes.peek ?_
    dsimp only
    split
    · refine Comes.bind (P := fun _ d' => d₁.Took Phrase.expression.Derives d') ?_ ?_
      · exact Comes.map ((expression_takes bound d₁).imp (fun _ _ h => h.2) fun _ h => h)
      · rintro value d₂ ⟨w, hw, hvalue⟩
        refine comes_expect fun _ d₃ h₃ _ => ⟨_, ?_, .return hvalue⟩
        rw [h₁, hw, h₃]
        show _ = _ ++ d₃.words
        simp
    · exact Comes.refuseBind trivial
    · refine comes_expect fun _ d₂ h₂ _ => ⟨_, ?_, .bareReturn⟩
      rw [h₁, h₂]
      rfl
    · exact Comes.refuseBind trivial

/-! ## Placed nodes -/

section

variable {β : Type} {d : Draft} {f : NodeId → Parse β} {Q : β → Draft → Prop}
  {E : ParseFault → Prop} {c : Construct} {line : Nat}

/-- A branch that was just made finds its conditional. -/
theorem Comes.branch {conditional : NodeId} (hhas : d.tree.HasConditional conditional)
    (hbranch : (∃ scope condition, c = .elseIf scope condition) ∨ ∃ scope, c = .otherwise scope)
    (h : ∀ tree, (d.tree.allocate c line).2.attachBranch conditional d.tree.size = .ok tree →
      Comes (f d.tree.size) (d.planted tree) Q E) :
    Comes (do
      let branch ← Grammar.allocate c line
      Grammar.place (·.attachBranch conditional branch) line
      f branch) d Q E := by
  refine Comes.allocate (Comes.place (fun tree htree => h tree htree) fun cause hcause => ?_)
  obtain ⟨tree, htree⟩ := Tree.exists_attachBranch hhas hbranch line
  have hcause' : (d.tree.allocate c line).2.attachBranch conditional d.tree.size
    = .error cause := hcause
  rw [htree] at hcause'
  cases hcause'

/-- An entry block that was just made finds the unit that has none yet. -/
theorem Comes.entry {scope unitName unitScope : String} {owner : Node} {between : List Node}
    (hnodes : d.tree.nodes.toList = owner :: between)
    (howner : owner.construct = .unit unitName unitScope none) (hroot : d.tree.root = some 0)
    (h : ∀ tree, Comes (f d.tree.size) (d.planted tree) Q E) :
    Comes (do
      let node ← Grammar.allocate (.entry scope) line
      Grammar.place (·.setEntry node) line
      f node) d Q E := by
  refine Comes.allocate (Comes.place (fun tree _ => h tree) fun cause hcause => ?_)
  obtain ⟨tree, htree⟩ := exists_setEntry_allocate hnodes howner hroot scope line
  have hcause' : (d.tree.allocate (.entry scope) line).2.setEntry d.tree.size
    = .error cause := hcause
  rw [htree] at hcause'
  cases hcause'

/-- The unit, which is the first node of all, becomes the root. -/
theorem Comes.root {name scope : String} (hempty : d.tree = .empty)
    (h : ∀ tree, (d.tree.allocate (.unit name scope none) line).2.setRoot d.tree.size = .ok tree →
      Comes (f d.tree.size) (d.planted tree) Q E) :
    Comes (do
      let node ← Grammar.allocate (.unit name scope none) line
      Grammar.place (·.setRoot node) line
      f node) d Q E := by
  refine Comes.allocate (Comes.place (fun tree htree => h tree htree) fun cause hcause => ?_)
  have hcause' : (d.tree.allocate (.unit name scope none) line).2.setRoot d.tree.size
    = .error cause := hcause
  rw [hempty] at hcause'
  cases hcause'

end

/-! ## Ends of blocks -/

section

variable {β : Type} {d : Draft} {f : Unit → Parse β} {Q : β → Draft → Prop}

/-- The end of a block is two keywords and a semicolon. -/
theorem comes_blockEnd {k : Keyword}
    (h : ∀ d', d.words = .word .end :: .word k :: .mark .semicolon :: d'.words → d.Skips d' →
      Comes (f ()) d' Q ParseFault.IsTextual) :
    Comes (blockEnd k >>= f) d Q ParseFault.IsTextual := by
  refine Comes.bind (P := fun _ d' =>
    d.words = .word .end :: .word k :: .mark .semicolon :: d'.words ∧ d.Skips d') ?_
    fun _ d' hd => h d' hd.1 hd.2
  refine comes_expect fun _ d₁ h₁ hs₁ => comes_advance fun l d₂ h₂ hs₂ => ?_
  split
  · rename_i hl
    refine comes_expect fun _ d₃ h₃ hs₃ => Comes.pure ⟨?_, (hs₁.trans hs₂).trans hs₃⟩
    rw [h₁, h₂, hl, h₃]
  · exact Comes.refuse trivial

theorem comes_namedEnd {name : String}
    (h : ∀ d', d.words = .word .end :: .identifier name :: d'.words → d.Skips d' →
      Comes (f ()) d' Q ParseFault.IsTextual) :
    Comes (namedEnd name >>= f) d Q ParseFault.IsTextual := by
  refine Comes.bind (P := fun _ d' =>
    d.words = .word .end :: .identifier name :: d'.words ∧ d.Skips d') ?_
    fun _ d' hd => h d' hd.1 hd.2
  refine comes_expect fun _ d₁ h₁ hs₁ => comes_identifier fun found d₂ h₂ hs₂ => ?_
  split
  · rename_i hfound
    exact Comes.pure ⟨by rw [h₁, h₂, hfound], hs₁.trans hs₂⟩
  · exact Comes.refuse trivial

end

/-! ## Statements with bodies -/

/-- The reader of a body takes statements. -/
structure TakesBody (body : Body) : Prop where
  reads : BodyReads body
  takes : ∀ (keywords : List Keyword) (d : Draft), 2 ≤ d.blocks.length →
    Comes (body keywords) d (fun _ d' => d.Took Form.statements.Derives d') ParseFault.IsTextual

section

variable {body : Body} (hbody : TakesBody body)
include hbody

/-- A body that is read in a block of its own. -/
theorem TakesBody.inBlock {d : Draft} {node : NodeId} {scope : String} {keywords : List Keyword}
    (hdeep : 1 ≤ d.blocks.length) :
    Comes (inBlock node scope (body keywords)) d (fun _ d' => d.Took Form.statements.Derives d' ∧
      d'.blocks = d.blocks ∧ d.tree.KeepsConditionals d'.tree) ParseFault.IsTextual := by
  have hdeep' : 2 ≤ (d.opened node scope).blocks.length := Nat.succ_le_succ hdeep
  refine Comes.inBlock ((hbody.takes keywords _ hdeep').andRun.imp ?_ fun _ h => h)
  rintro _ d' ⟨htook, hrun⟩
  obtain ⟨f, hreads⟩ := hbody.reads hrun hdeep'
  exact ⟨htook, hreads.sameBlocks.outer, hreads.keepsConditionals⟩

/-- A loop follows its rule, if its body does. -/
theorem loop_takes (bound : Nat) : TakesStatement (loop body bound) := by
  intro d hdeep
  refine comes_expect fun line d₁ h₁ hs₁ => ?_
  refine (expression_takes bound).bind fun condition d₂ w hw hcondition hs₂ => ?_
  refine comes_expect fun _ d₃ h₃ hs₃ => Comes.blockScope (Comes.allocate ?_)
  have hblocks : d₃.blocks = d.blocks := ((hs₁.trans hs₂).trans hs₃).blocks
  refine Comes.bind (hbody.inBlock ?_) ?_
  · show 1 ≤ d₃.blocks.length
    rw [hblocks]
    omega
  · rintro _ d₄ ⟨⟨v, hv, hinside⟩, -, -⟩
    refine comes_blockEnd fun d₅ h₅ _ => Comes.pure ⟨_, ?_, .loop hcondition hinside⟩
    have hv' : d₃.words = v ++ d₄.words := hv
    rw [h₁, hw, h₃, hv', h₅]
    simp

/-- The branches of a conditional leave the block that they stand in, and the conditional. -/
theorem elseIfs_takes (bound : Nat) (conditional : NodeId) : ∀ (more : Nat) (d : Draft),
    1 ≤ d.blocks.length → d.tree.HasConditional conditional →
    Comes (elseIfs body bound conditional more) d (fun _ d' => d.Took Form.elseIfs.Derives d' ∧
      d'.blocks = d.blocks ∧ d'.tree.HasConditional conditional) ParseFault.IsTextual := by
  intro more
  induction more with
  | zero => exact fun d _ hhas => Comes.pure ⟨⟨[], rfl, .noElseIf⟩, rfl, hhas⟩
  | succ more ih =>
    intro d hdeep hhas
    rw [elseIfs]
    refine Comes.peek ?_
    split
    · refine comes_expect fun line d₁ h₁ hs₁ => ?_
      refine (expression_takes bound).bind fun condition d₂ w hw hcondition hs₂ => ?_
      refine comes_expect fun _ d₃ h₃ hs₃ => Comes.blockScope ?_
      have hs := (hs₁.trans hs₂).trans hs₃
      have hhas₃ : d₃.tree.HasConditional conditional := hs.tree ▸ hhas
      refine Comes.branch hhas₃ (Or.inl ⟨_, _, rfl⟩) fun tree htree => ?_
      refine Comes.bind (hbody.inBlock ?_) ?_
      · show 1 ≤ d₃.blocks.length
        rw [hs.blocks]
        exact hdeep
      · rintro _ d₄ ⟨⟨v, hv, hinside⟩, hblocks, hkeeps⟩
        have hblocks' : d₄.blocks = d.blocks := hblocks.trans hs.blocks
        -- The conditional is still there behind the branch, which the next branch needs.
        have hhas₄ := hkeeps _ (Tree.KeepsConditionals.attachBranch htree _
          (Tree.KeepsConditionals.allocate _ _ _ _ hhas₃))
        refine (ih d₄ (hblocks' ▸ hdeep) hhas₄).imp ?_ fun _ h => h
        rintro _ d₅ ⟨⟨u, hu, hmore⟩, hblocks₅, hhas₅⟩
        refine ⟨⟨_, ?_, .elseIf hcondition hinside hmore⟩, hblocks₅.trans hblocks', hhas₅⟩
        have hv' : d₃.words = v ++ d₄.words := hv
        rw [h₁, hw, h₃, hv', hu]
        simp
    · exact Comes.pure ⟨⟨[], rfl, .noElseIf⟩, rfl, hhas⟩

theorem otherwise_takes {conditional : NodeId} {d : Draft} (hdeep : 1 ≤ d.blocks.length)
    (hhas : d.tree.HasConditional conditional) :
    Comes (otherwise body conditional) d (fun _ d' => d.Took Form.otherwise.Derives d')
      ParseFault.IsTextual := by
  refine Comes.peek ?_
  split
  · refine comes_expect fun line d₁ h₁ hs₁ => Comes.blockScope ?_
    have hhas₁ : d₁.tree.HasConditional conditional := hs₁.tree ▸ hhas
    refine Comes.branch hhas₁ (Or.inr ⟨_, rfl⟩) fun tree _ => ?_
    refine (hbody.inBlock ?_).imp ?_ fun _ h => h
    · show 1 ≤ d₁.blocks.length
      rw [hs₁.blocks]
      exact hdeep
    · rintro _ d₂ ⟨⟨v, hv, hinside⟩, -, -⟩
      have hv' : d₁.words = v ++ d₂.words := hv
      exact ⟨_, by rw [h₁, hv']; rfl, .else hinside⟩
  · exact Comes.pure ⟨[], rfl, .noElse⟩

theorem conditional_takes (bound : Nat) : TakesStatement (conditional body bound) := by
  intro d hdeep
  refine comes_expect fun line d₁ h₁ hs₁ => ?_
  refine (expression_takes bound).bind fun condition d₂ w hw hcondition hs₂ => ?_
  refine comes_expect fun _ d₃ h₃ hs₃ => Comes.blockScope (Comes.allocate ?_)
  have hs := (hs₁.trans hs₂).trans hs₃
  have hdeep₃ : 1 ≤ d₃.blocks.length := by
    rw [hs.blocks]
    omega
  refine Comes.bind (hbody.inBlock hdeep₃) ?_
  rintro _ d₄ ⟨⟨v, hv, hinside⟩, hblocks, hkeeps⟩
  have hblocks' : d₄.blocks = d₃.blocks := hblocks
  have hhas := hkeeps _ (Tree.hasConditional_allocate _ _ _ _ _ _)
  refine Comes.bind (elseIfs_takes hbody bound _ bound d₄ (hblocks' ▸ hdeep₃) hhas) ?_
  rintro _ d₅ ⟨⟨u, hu, hbranches⟩, hblocks₅, hhas₅⟩
  refine Comes.bind (otherwise_takes hbody (hblocks₅ ▸ hblocks' ▸ hdeep₃) hhas₅) ?_
  rintro _ d₆ ⟨x, hx, hlast⟩
  refine comes_blockEnd fun d₇ h₇ _ =>
    Comes.pure ⟨_, ?_, .conditional hcondition hinside hbranches hlast⟩
  have hv' : d₃.words = v ++ d₄.words := hv
  rw [h₁, hw, h₃, hv', hu, hx, h₇]
  simp

end

/-! ## Routines -/

theorem parameter_takes : Takes parameter Form.parameter.Derives := by
  intro d
  refine comes_advance fun l d₁ h₁ hs₁ => ?_
  have hrest : ∀ (mode : PassMode) (k : Keyword), l.token = .word k → k = .in ∨ k = .var →
      Comes (do
        let type ← scalarType
        let name ← identifier
        return ({ mode, type, name } : Parameter)) d₁
        (fun _ d' => d.Skips d' ∧ d.Took Form.parameter.Derives d') ParseFault.IsTextual := by
    intro mode k hl hk
    refine comes_scalarType fun type d₂ h₂ hs₂ => comes_identifier fun name d₃ h₃ hs₃ => ?_
    refine Comes.pure ⟨(hs₁.trans hs₂).trans hs₃, [.word k, .word (.scalar type), .identifier name],
      ?_, .parameter hk⟩
    rw [h₁, hl, h₂, h₃]
    rfl
  split
  · exact hrest .byValue .in ‹_› (Or.inl rfl)
  · exact hrest .byReference .var ‹_› (Or.inr rfl)
  · exact Comes.refuseBind trivial

theorem comes_visibility {β : Type} {d : Draft} {f : Visibility → Parse β} {Q : β → Draft → Prop}
    (h : ∀ v k d', d.words = .word k :: d'.words → k = .public ∨ k = .private → d.Skips d' →
      Comes (f v) d' Q ParseFault.IsTextual) :
    Comes (visibility >>= f) d Q ParseFault.IsTextual := by
  refine Comes.bind (P := fun _ d' => ∃ k, d.words = .word k :: d'.words ∧
    (k = .public ∨ k = .private) ∧ d.Skips d') ?_ fun v d' ⟨k, hd, hk, hs⟩ => h v k d' hd hk hs
  refine comes_advance fun l d₁ h₁ hs₁ => ?_
  split
  · exact Comes.pure ⟨.public, by rw [h₁, ‹l.token = _›], Or.inl rfl, hs₁⟩
  · exact Comes.pure ⟨.private, by rw [h₁, ‹l.token = _›], Or.inr rfl, hs₁⟩
  · exact Comes.refuse trivial

theorem derives_parameters {w : List Token} (h : Separated Form.parameter.Derives w) :
    Form.parameters.Derives w := by
  induction h with
  | last h => exact .lastParameter h
  | more first _ ih => exact .moreParameters first ih

/-- The result clause that functions have and procedures have not. -/
theorem comes_result {β : Type} {c : Prop} [Decidable c] {next : Option Scalar → Parse β}
    {d : Draft} {Q : β → Draft → Prop}
    (hyes : c → ∀ type d', d.words = .mark .colon :: .word (.scalar type) :: d'.words →
      d.Skips d' → Comes (next (some type)) d' Q ParseFault.IsTextual)
    (hno : ¬ c → Comes (next none) d Q ParseFault.IsTextual) :
    Comes (if c then do
        let _ ← expect (.mark .colon)
        let result ← some <$> scalarType
        next result
      else do
        let result ← pure none
        next result : Parse β) d Q ParseFault.IsTextual := by
  split
  · rename_i hc
    refine comes_expect fun _ d₁ h₁ hs₁ => ?_
    refine Comes.bind (P := fun result d' => ∃ type, result = some type ∧
      d₁.words = .word (.scalar type) :: d'.words ∧ d₁.Skips d') (Comes.map ?_) ?_
    · have htype := comes_scalarType (d := d₁) (f := fun type => (pure type : Parse Scalar))
        (Q := fun type d' => d₁.words = .word (.scalar type) :: d'.words ∧ d₁.Skips d')
        fun type d' h hs => ⟨h, hs⟩
      rw [bind_pure] at htype
      exact htype.imp (fun type d' h => ⟨type, rfl, h⟩) fun _ h => h
    · rintro result d₂ ⟨type, rfl, h₂, hs₂⟩
      exact hyes hc type d₂ (by rw [h₁, h₂]) (hs₁.trans hs₂)
  · exact hno ‹_›

section

variable {body : Body} (hbody : TakesBody body)
include hbody

theorem routineBody_takes {heading : Heading} {line : Nat} {d : Draft}
    (hdeep : 1 ≤ d.blocks.length) :
    Comes (routineBody body heading line) d (fun _ d' => ∃ v, Form.statements.Derives v ∧
      d.words = v ++ .word .end :: .identifier heading.name :: .mark .semicolon :: d'.words)
      ParseFault.IsTextual := by
  refine Comes.allocate (Comes.bind (hbody.inBlock hdeep) ?_)
  rintro _ d₁ ⟨⟨v, hv, hinside⟩, -, -⟩
  refine comes_namedEnd fun d₂ h₂ _ => comes_expect fun _ d₃ h₃ _ => ?_
  refine Comes.register trivial fun routines _ => ⟨v, hinside, ?_⟩
  have hv' : d.words = v ++ d₁.words := hv
  rw [hv', h₂, h₃, Draft.words, Draft.words, Draft.tokens_attached]

theorem routine_takes (bound : Nat) {d : Draft} (hdeep : 1 ≤ d.blocks.length)
    (hfirst : d.words.head? = some (.word .function) ∨ d.words.head? = some (.word .procedure)) :
    Comes (routine body bound) d (fun _ d' => d.Took Form.routine.Derives d')
      ParseFault.IsTextual := by
  refine comes_advance fun keyword d₁ h₁ hs₁ => ?_
  refine comes_visibility fun v k d₂ h₂ hk hs₂ => ?_
  refine comes_identifier fun name d₃ h₃ hs₃ => Comes.get ?_
  dsimp only
  split
  · exact Comes.refuseBind trivial
  refine comes_expect fun _ d₄ h₄ hs₄ => ?_
  refine (commaSeparated_takes (fun _ => parameter_takes) bound).bind
    fun parameters d₅ w hw hp hs₅ => ?_
  have hs := (((hs₁.trans hs₂).trans hs₃).trans hs₄).trans hs₅
  have hlist : Form.parameterList.Derives (.mark .openParen :: w) := by
    rcases hp with rfl | ⟨v, rfl, hv⟩
    · exact .noParameters
    · exact .parameterList (derives_parameters hv)
  split
  · exact Comes.refuseBind trivial
  refine comes_result (fun hfunction type d₆ h₆ hs₆ => Comes.get ?_) fun hprocedure => Comes.get ?_
  · refine (routineBody_takes hbody ((hs.trans hs₆).blocks ▸ hdeep)).imp ?_ fun _ h => h
    rintro _ d' ⟨v, hinside, hv⟩
    refine ⟨_, ?_, @Form.Derives.function _ name name type _ _ hk hlist hinside⟩
    rw [h₁, hfunction, h₂, h₃, h₄, hw, h₆, hv]
    simp
  · refine (routineBody_takes hbody (hs.blocks ▸ hdeep)).imp ?_ fun _ h => h
    rintro _ d' ⟨v, hinside, hv⟩
    have hkeyword : keyword.token = .word .procedure := by
      rw [h₁] at hfirst
      exact (hfirst.resolve_left fun heq => hprocedure (Option.some.inj heq)) |> Option.some.inj
    refine ⟨_, ?_, @Form.Derives.procedure _ name name _ _ hk hlist hinside⟩
    rw [h₁, hkeyword, h₂, h₃, h₄, hw, hv]
    simp

/-! ## Blocks -/

omit hbody in
theorem Draft.length_blocks_attached (d : Draft) (node : NodeId) :
    (d.attached node).blocks.length = d.blocks.length := by
  have hkeys := congrArg List.length (d.blocks_attached node).2
  simpa using hkeys

theorem statement?_takes {bound : Nat} {k : Keyword} {statement : Parse NodeId}
    (h : statement? body bound k = some statement) : TakesStatement statement := by
  unfold statement? at h
  split at h <;> cases h
  · intro d _
    exact (declaration_takes bound d).imp (fun _ _ ⟨w, hw, hp⟩ => ⟨w, hw, .variable hp⟩)
      fun _ h => h
  · exact assignment_takes bound
  · exact conditional_takes hbody bound
  · exact loop_takes hbody bound
  · exact callStatement_takes bound
  · exact inputStatement_takes bound
  · exact outputStatement_takes bound
  · exact returnStatement_takes bound

omit hbody in
/-- An item of a body leaves the body open. -/
theorem item_open (hbody : BodyReads body) {bound : Nat} {next : Token} {d d' : Draft} {u : Unit}
    (hdeep : 2 ≤ d.blocks.length) (hpeek : d.words.head? = some next)
    (h : (item body bound next).run d = .ok u d') : 2 ≤ d'.blocks.length := by
  rw [Draft.words, List.head?_map] at hpeek
  obtain ⟨role, f, d₁, _, hreads, rfl⟩ := item_reads hbody hdeep hpeek h
  rw [Draft.length_blocks_attached, hreads.length_blocks]
  exact hdeep

/-- An item of a body is a statement, and leaves the body open. -/
theorem item_takes {bound : Nat} {next : Token} {d : Draft} (hdeep : 2 ≤ d.blocks.length)
    (hpeek : d.words.head? = some next) :
    Comes (item body bound next) d (fun _ d' => d.Took Form.statement.Derives d' ∧
      2 ≤ d'.blocks.length) ParseFault.IsTextual := by
  have hpeek' : d.tokens.head?.map (·.token) = some next := by
    rwa [Draft.words, List.head?_map] at hpeek
  -- a routine cannot stand here, because the body is not on the level of the unit
  have hroutine : next = .word .function ∨ next = .word .procedure →
      Comes (routine body bound) d (fun _ d' => d.Took Form.statement.Derives d')
        ParseFault.IsTextual := by
    intro hnext
    have hfirst := hnext.imp (fun h => h ▸ hpeek) (fun h => h ▸ hpeek)
    refine (routine_takes hbody bound (Nat.le_of_succ_le hdeep) hfirst).andRun.imp ?_ fun _ h => h
    rintro _ d' ⟨-, hrun⟩
    have hsilent : ∀ l d₁, d.Drops l d₁ → l.token.isSilent = true := by
      intro l d₁ hdrops
      rw [hdrops.token_eq hpeek']
      rcases hnext with rfl | rfl <;> rfl
    have hlevel := (routine_reads hbody.reads hsilent hrun).1
    omega
  have hunexpected : Comes (item.unexpected next) d (fun _ d' => d.Took Form.statement.Derives d')
      ParseFault.IsTextual :=
    Comes.peekLine fun line => Comes.refuse trivial
  suffices htakes : Comes (item body bound next) d (fun _ d' => d.Took Form.statement.Derives d')
      ParseFault.IsTextual by
    refine htakes.andRun.imp ?_ fun _ h => h
    rintro _ d' ⟨htook, hrun⟩
    exact ⟨htook, item_open hbody.reads hdeep hpeek hrun⟩
  unfold item
  split
  · exact hroutine (Or.inl rfl)
  · exact hroutine (Or.inr rfl)
  · split
    · rename_i statement hstatement
      refine Comes.bind (statement?_takes hbody hstatement d hdeep) ?_
      rintro node d₁ ⟨w, hw, hp⟩
      refine Comes.attach ⟨w, ?_, hp⟩
      rw [hw, Draft.words, Draft.words, Draft.tokens_attached]
    · exact hunexpected
  · exact hunexpected

end

theorem block_takes : ∀ bound, TakesBody (block bound) := by
  intro bound
  induction bound with
  | zero => exact ⟨block_reads 0, fun keywords d _ => Comes.endOfText trivial⟩
  | succ bound ih =>
    refine ⟨block_reads (bound + 1), fun keywords d hdeep => ?_⟩
    rw [block]
    refine Comes.peek ?_
    split
    · exact Comes.endOfText trivial
    · rename_i next hnext
      split
      · exact Comes.pure ⟨[], rfl, .noStatement⟩
      · refine Comes.bind (item_takes ih hdeep hnext) ?_
        rintro _ d₁ ⟨⟨w, hw, hp⟩, hdeep₁⟩
        refine (ih.takes keywords d₁ hdeep₁).imp ?_ fun _ h => h
        rintro _ d₂ ⟨v, hv, hmore⟩
        exact ⟨w ++ v, by rw [hw, hv, List.append_assoc], .statements hp hmore⟩

/-! ## Programs -/

theorem unitItems_takes : ∀ (bound : Nat) (d : Draft), 1 ≤ d.blocks.length →
    Comes (unitItems bound) d (fun _ d' => d.Took Form.items.Derives d') ParseFault.IsTextual := by
  intro bound
  induction bound with
  | zero => exact fun d _ => Comes.endOfText trivial
  | succ bound ih =>
    intro d hdeep
    rw [unitItems]
    refine Comes.peek ?_
    -- functions and procedures are read by one reader, which is told them by the first token
    have hroutine : ∀ t, d.words.head? = some t → t = .word .function ∨ t = .word .procedure →
        Comes (do
          routine (block bound) bound
          unitItems bound) d (fun _ d' => d.Took Form.items.Derives d')
          ParseFault.IsTextual := by
      intro t hfirst ht
      have hsilent : ∀ l d₁, d.Drops l d₁ → l.token.isSilent = true := by
        intro l d₁ hdrops
        rw [Draft.words, List.head?_map] at hfirst
        rw [hdrops.token_eq hfirst]
        rcases ht with rfl | rfl <;> rfl
      have hkeyword : d.words.head? = some (.word .function) ∨
          d.words.head? = some (.word .procedure) := by
        rcases ht with rfl | rfl
        · exact Or.inl hfirst
        · exact Or.inr hfirst
      refine Comes.bind (routine_takes (block_takes bound) bound hdeep hkeyword).andRun ?_
      rintro _ d₁ ⟨⟨w, hw, hp⟩, hrun⟩
      obtain ⟨-, f, d₂, hreads, rfl⟩ := routine_reads (block_reads bound) hsilent hrun
      have hdeep₁ : 1 ≤ (d₂.attached d.tree.size).blocks.length := by
        rw [Draft.length_blocks_attached, hreads.length_blocks]
        exact hdeep
      refine (ih _ hdeep₁).imp ?_ fun _ h => h
      rintro _ d₃ ⟨v, hv, hmore⟩
      exact ⟨w ++ v, by rw [hw, hv, List.append_assoc], .routineItem hp hmore⟩
    split
    · exact Comes.endOfText trivial
    · exact Comes.pure ⟨[], rfl, .noItem⟩
    · refine Comes.bind (declaration_takes bound d).andRun ?_
      rintro node d₁ ⟨⟨w, hw, hp⟩, hrun⟩
      obtain ⟨rfl, v, line, hreads⟩ := declaration_reads hrun
      refine Comes.bind (P := fun _ d' => d' = d₁.attached d.tree.size) rfl ?_
      rintro _ d₂ rfl
      refine (ih _ ?_).imp ?_ fun _ h => h
      · rw [Draft.length_blocks_attached, hreads.length_blocks]
        exact hdeep
      · rintro _ d₃ ⟨v, hv, hmore⟩
        refine ⟨w ++ v, ?_, .declarationItem hp hmore⟩
        rw [Draft.words, Draft.tokens_attached] at hv
        rw [hw, List.append_assoc, ← hv]
        rfl
    · exact hroutine _ ‹_› (Or.inl rfl)
    · exact hroutine _ ‹_› (Or.inr rfl)
    · exact Comes.peekLine fun line => Comes.refuse trivial

/-- The entry block, from behind the items on: the unit takes it. -/
theorem entryBlock_takes (bound : Nat) {name unitName unitScope : String} {d : Draft}
    {owner : Node} {between : List Node} (hnodes : d.tree.nodes.toList = owner :: between)
    (howner : owner.construct = .unit unitName unitScope none) (hroot : d.tree.root = some 0)
    (hdeep : 1 ≤ d.blocks.length) :
    Comes (entryBlock bound name) d (fun _ d' => ∃ w, Form.statements.Derives w ∧
      d.words = .word .beginning :: (w ++ d'.words)) ParseFault.IsTextual := by
  refine comes_expect fun line d₁ h₁ hs₁ => ?_
  rw [← hs₁.tree] at hnodes hroot
  refine Comes.entry hnodes howner hroot fun tree => ?_
  refine ((block_takes bound).inBlock ?_).imp ?_ fun _ h => h
  · show 1 ≤ d₁.blocks.length
    rw [hs₁.blocks]
    exact hdeep
  · rintro _ d₂ ⟨⟨w, hw, hp⟩, -, -⟩
    have hw' : d₁.words = w ++ d₂.words := hw
    exact ⟨w, hp, by rw [h₁, hw']⟩

/-- The whole of a text that is accepted follows the rules. -/
theorem unit_takes (bound : Nat) (tokens : List Lexeme) :
    Comes (unit bound) (Draft.start tokens)
      (fun _ _ => Form.program.Derives (tokens.map (·.token))) ParseFault.IsTextual := by
  refine comes_expect fun line d₁ h₁ hs₁ => comes_identifier fun name d₂ h₂ hs₂ => ?_
  refine comes_expect fun _ d₃ h₃ hs₃ => ?_
  have hempty : d₃.tree = .empty := ((hs₁.trans hs₂).trans hs₃).tree
  refine Comes.root hempty fun tree htree => ?_
  refine Comes.bind (Comes.inBlock (Q := fun _ d' => ∃ items body,
    Form.items.Derives items ∧ Form.statements.Derives body ∧
    d₃.words = items ++ .word .beginning :: (body ++
      .word .end :: .identifier name :: .mark .dot :: d'.words)) ?_) ?_
  · have hdeep : 1 ≤ (((d₃.allocated (.unit name name none) line).planted tree).opened
        d₃.tree.size name).blocks.length := Nat.le_add_left 1 _
    refine Comes.bind (unitItems_takes bound _ hdeep).andRun ?_
    rintro _ d₄ ⟨⟨w, hw, hitems⟩, hrun⟩
    obtain ⟨items, hreads⟩ := unitItems_reads bound hrun
    obtain ⟨owner, between, hnodes, howner, hroot⟩ := Reads.unit_open hempty htree hreads
    have hdeep₄ : 1 ≤ d₄.blocks.length := by
      rw [hreads.length_blocks]
      exact hdeep
    refine Comes.bind (entryBlock_takes bound hnodes howner hroot hdeep₄) ?_
    rintro _ d₅ ⟨v, hbody, hv⟩
    refine comes_namedEnd fun d₆ h₆ _ => comes_expect fun _ d₇ h₇ _ => ?_
    refine Comes.pure ⟨w, v, hitems, hbody, ?_⟩
    have hw' : d₃.words = w ++ d₄.words := hw
    show _ = w ++ .word .beginning :: (v ++ .word .end :: .identifier name :: .mark .dot ::
      d₇.words)
    rw [hw', hv, h₆, h₇]
  · rintro _ d₄ ⟨w, v, hitems, hbody, hwords⟩
    refine Comes.get ?_
    split
    · rename_i hrest
      refine Comes.pure ?_
      -- Nothing is left, so the tokens taken one after the other are all there were.
      have hall : (Draft.start tokens).words = _ := h₁
      rw [h₂, h₃, hwords, Draft.words, Draft.words, hrest] at hall
      have hstart : tokens.map (·.token) = _ := hall
      rw [hstart]
      exact .program hitems hbody
    · exact Comes.refuse trivial

end Primer.Grammar

namespace Primer.Program

open Grammar

/-- The tokens of an accepted program follow the rules of the grammar. -/
theorem ofTokens_derives {tokens : List Lexeme} {p : Program} (h : ofTokens tokens = .ok p) :
    Form.program.Derives (tokens.map (·.token)) := by
  unfold ofTokens at h
  split at h
  · rename_i root d hunit
    exact (unit_takes tokens.length tokens).run_ok hunit
  · cases h

/-- No text is refused because a node could not be placed. -/
theorem ofTokens_isTextual {tokens : List Lexeme} {e : ParseError}
    (h : ofTokens tokens = .error e) :
    e.fault.IsTextual := by
  unfold ofTokens at h
  split at h
  · cases h
  · rename_i e' d hunit
    cases h
    exact (unit_takes tokens.length tokens).run_error hunit

end Primer.Program
