import Primer.Proofs.Language.Expected
import Primer.Proofs.Language.Sentences

/-!
# Primer.Proofs.Language.Completeness — every text that follows the rules is read to its end.

A sentence of the grammar is accepted, or refused for what it says and never for how it is written.
The induction is on the derivation of the sentence, with one invariant for the reader of each form
(`Form.Accepted`).  What the readers do to the draft on the way is known from the rules that they
follow, so only the tokens are traced here.

What a reader takes has to end where the form ends, and for forms without an end of their own this
depends on the token behind; `EndsPhrase` and `EndsBlock` say what may stand there.  A refusal is
static if it is for what the text says (`ParseFault.IsStatic`); every lemma has it as the only other
outcome.  Placements of nodes might fail as well, and that they do not is known from
`Proofs.Tree.Branches`.

Main statement: `Program.ofTokens_language`, which joins both directions.
-/

namespace Primer.Grammar

variable {β : Type}

/-! ## Declarations -/

/-- Where no bracket comes, there are no more sizes. -/
theorem dimensions_end {bound more : Nat} {d : Draft} {Q : List Nat → Draft → Prop}
    {E : ParseFault → Prop} (hends : EndsPhrase [] d.words) (h : Q [] d) :
    Comes (dimensions bound more) d Q E := by
  cases more with
  | zero => exact Comes.pure h
  | succ more =>
    rw [dimensions]
    exact eat_not (fun ht => (hends _ ht).2.1 rfl) (Comes.pure h)

/-- Dimensions are read to the last closing bracket. -/
theorem dimensions_accepts {bound : Nat} : ∀ (more : Nat) {w rest : List Token} {d : Draft},
    Phrase.indices.Derives w → (w ++ rest).length ≤ bound → (w ++ rest).length ≤ more →
    EndsPhrase [] rest → d.words = w ++ rest →
    Comes (dimensions bound more) d (fun sizes d' => d.Skips d' ∧ d'.words = rest ∧
      (w ≠ [] → sizes.isEmpty = false)) ParseFault.IsStatic := by
  intro more
  induction more with
  | zero =>
    intro w rest d hw _ hmore _ hd
    obtain ⟨rfl, rfl⟩ := List.append_eq_nil_iff.1 (List.length_eq_zero_iff.1 (Nat.le_zero.1 hmore))
    exact Comes.pure ⟨.refl d, hd, fun hne => absurd rfl hne⟩
  | succ more ih =>
    intro w rest d hw hbound hmore hends hd
    cases hw with
    | noIndex =>
      exact dimensions_end (by rw [hd]; exact hends) ⟨.refl d, hd, fun hne => absurd rfl hne⟩
    | @index w v first hv =>
      rw [dimensions]
      have hsplit : w ++ .mark .closeBracket :: v ++ rest
          = w ++ .mark .closeBracket :: (v ++ rest) := by
        rw [List.append_assoc]
        rfl
      rw [List.cons_append, hsplit] at hd hbound hmore
      simp only [List.length_cons, List.length_append] at hbound hmore
      refine eat_at hd fun d₁ h₁ hs₁ => ?_
      have hclose : EndsPhrase Layer.all (.mark .closeBracket :: (v ++ rest)) :=
        .of_none rfl (by decide) (by decide)
      refine (first.accepted.expression (by simp; omega) hclose).bind h₁ fun e d₂ h₂ hs₂ => ?_
      split
      · rename_i fault hsize
        -- A size that does not fold is refused, but not for the form of the text.
        obtain ⟨cause, line, rfl⟩ := arraySize_error hsize
        exact Comes.refuse trivial
      · refine expect_at h₂ fun _ d₃ h₃ hs₃ => ?_
        refine Comes.bind (ih hv (by simp; omega) (by simp; omega) hends h₃) ?_
        rintro sizes d₄ ⟨hs₄, h₄, -⟩
        exact Comes.pure ⟨((hs₁.trans hs₂).trans hs₃).trans hs₄, h₄, fun _ => rfl⟩

/-- What stands behind the declarator of a declaration. -/
theorem declaration_accepts_of {bound : Nat} {w rest : List Token} {d : Draft}
    (h : ∀ line, Accepts (declarator bound line) w (.mark .semicolon :: rest))
    (hd : d.words = .word .variable :: (w ++ .mark .semicolon :: rest)) :
    Comes (declaration bound) d (fun _ d' => d'.words = rest) ParseFault.IsStatic := by
  refine expect_at hd fun line d₁ h₁ _ => ?_
  refine (h line).bind h₁ fun found d₂ h₂ _ => expect_at h₂ fun _ d₃ h₃ _ => Comes.get ?_
  dsimp only
  split
  · exact Comes.refuseBind trivial
  · exact h₃

theorem declaration_starts {w : List Token} (h : Form.declaration.Derives w) :
    ∃ v, w = .word .variable :: v := by
  cases h <;> exact ⟨_, rfl⟩

theorem declaration_accepts {bound : Nat} {w rest : List Token} {d : Draft}
    (h : Form.declaration.Derives w) (hlength : (w ++ rest).length ≤ bound + 1)
    (hd : d.words = w ++ rest) :
    Comes (declaration bound) d (fun _ d' => d'.words = rest) ParseFault.IsStatic := by
  cases h with
  | @scalar type name =>
    refine declaration_accepts_of (w := [.word (.scalar type), .identifier name])
      (fun line d hd => ?_) hd
    refine eat_not (by rw [hd]; exact fun heq => by cases heq) ?_
    refine scalarType_at hd fun d₁ h₁ hs₁ => identifier_at h₁ fun d₂ h₂ hs₂ => ?_
    refine eat_not (by rw [h₂]; exact fun heq => by cases heq) ?_
    exact Comes.pure ⟨hs₁.trans hs₂, h₂⟩
  | @initialized type name w hw =>
    simp only [List.cons_append, List.append_assoc, List.length_cons, List.length_append] at hlength
    refine declaration_accepts_of
      (w := .word (.scalar type) :: .identifier name :: .mark .assign :: w) (fun line d hd => ?_)
      (by simpa using hd)
    refine eat_not (by rw [hd]; exact fun heq => by cases heq) ?_
    refine scalarType_at hd fun d₁ h₁ hs₁ => identifier_at h₁ fun d₂ h₂ hs₂ => ?_
    refine eat_at h₂ fun d₃ h₃ hs₃ => ?_
    have hclose : EndsPhrase Layer.all (.mark .semicolon :: rest) :=
      .of_none rfl (by decide) (by decide)
    refine (hw.accepted.expression (by simp at hlength ⊢; omega) hclose).bind h₃
      fun e d₄ h₄ hs₄ => Comes.pure ⟨?_, h₄⟩
    exact ((hs₁.trans hs₂).trans hs₃).trans hs₄
  | @array type name w v size more =>
    simp only [List.cons_append, List.append_assoc, List.length_cons, List.length_append] at hlength
    -- The tokens are regrouped: the reader takes all brackets at once, the rule the first apart.
    refine declaration_accepts_of (w := .word .array :: ((.mark .openBracket :: (w ++
      .mark .closeBracket :: v)) ++ [.word .of, .word (.scalar type), .identifier name]))
      (fun line d hd => ?_) (by simpa using hd)
    have hd : d.words = .word .array :: ((.mark .openBracket :: (w ++ .mark .closeBracket :: v)) ++
        .word .of :: .word (.scalar type) :: .identifier name :: .mark .semicolon :: rest) := by
      simpa using hd
    refine eat_at hd fun d₁ h₁ hs₁ => ?_
    have hclose : EndsPhrase [] (.word .of :: .word (.scalar type) :: .identifier name ::
        .mark .semicolon :: rest) :=
      .of_none rfl (by decide) (by decide)
    refine Comes.bind (dimensions_accepts bound (.index size more) (by simp at hlength ⊢; omega)
      (by simp at hlength ⊢; omega) hclose h₁) ?_
    rintro sizes d₂ ⟨hs₂, h₂, hsizes⟩
    dsimp only
    rw [hsizes (List.cons_ne_nil _ _), if_neg Bool.false_ne_true]
    refine expect_at h₂ fun _ d₃ h₃ hs₃ => ?_
    refine scalarType_at h₃ fun d₄ h₄ hs₄ => identifier_at h₄ fun d₅ h₅ hs₅ => Comes.pure ⟨?_, h₅⟩
    exact (((hs₁.trans hs₂).trans hs₃).trans hs₄).trans hs₅

/-! ## What every form is read as -/

/-- One of the words that end a block stands here. -/
def EndsBlock (terminators : List Keyword) (rest : List Token) : Prop :=
  ∃ k ∈ terminators, rest.head? = some (.word k)

/-- The words that end blocks are no statements. -/
def Terminates (terminators : List Keyword) : Prop :=
  ∀ k ∈ terminators, k = .end ∨ k = .elseif ∨ k = .else

/-- What every reader does in front of a form of its kind, if it has steps enough left. -/
def Form.Accepted (w : List Token) : Form → Prop
  | declaration => ∀ (bound : Nat) (rest : List Token) (d : Draft),
    (w ++ rest).length ≤ bound + 1 → d.words = w ++ rest →
    Comes (Grammar.declaration bound) d (fun _ d' => d'.words = rest) ParseFault.IsStatic
  | statement => ∀ bound : Nat, ∃ k v x, w = .word k :: v ∧
    statement? (block bound) bound k = some x ∧
    ∀ (rest : List Token) (d : Draft), 2 ≤ d.blocks.length → (w ++ rest).length ≤ bound + 1 →
      d.words = w ++ rest → Comes x d (fun _ d' => d'.words = rest) ParseFault.IsStatic
  | statements => ∀ (bound : Nat) (terminators : List Keyword) (rest : List Token) (d : Draft),
    Terminates terminators → EndsBlock terminators rest → 2 ≤ d.blocks.length →
    (w ++ rest).length ≤ bound → d.words = w ++ rest →
    Comes (block bound terminators) d (fun _ d' => d'.words = rest) ParseFault.IsStatic
  | elseIfs => ∀ (bound more : Nat) (conditional : NodeId) (rest : List Token) (d : Draft),
    EndsBlock [.else, .end] rest → 1 ≤ d.blocks.length → d.tree.HasConditional conditional →
    (w ++ rest).length ≤ bound → (w ++ rest).length ≤ more → d.words = w ++ rest →
    Comes (Grammar.elseIfs (block bound) bound conditional more) d (fun _ d' => d'.words = rest ∧
      d'.blocks = d.blocks ∧ d'.tree.HasConditional conditional) ParseFault.IsStatic
  | otherwise => ∀ (bound : Nat) (conditional : NodeId) (rest : List Token) (d : Draft),
    EndsBlock [.end] rest → 1 ≤ d.blocks.length → d.tree.HasConditional conditional →
    (w ++ rest).length ≤ bound → d.words = w ++ rest →
    Comes (Grammar.otherwise (block bound) conditional) d (fun _ d' => d'.words = rest)
      ParseFault.IsStatic
  | parameter => ∀ rest : List Token, Accepts Grammar.parameter w rest
  | parameters => ∀ (more position : Nat) (rest : List Token),
    (w ++ .mark .closeParen :: rest).length ≤ more →
    Accepts (Grammar.items (fun _ => Grammar.parameter) .closeParen more position)
      (w ++ [.mark .closeParen]) rest
  | parameterList => ∃ v, w = .mark .openParen :: v ∧ ∀ (bound : Nat) (rest : List Token),
    (v ++ rest).length ≤ bound →
    Accepts (commaSeparated (fun _ => Grammar.parameter) .closeParen bound) v rest
  | routine => ∀ (bound : Nat) (rest : List Token) (d : Draft), d.blocks.length = 1 →
    (w ++ rest).length ≤ bound + 1 → d.words = w ++ rest →
    Comes (Grammar.routine (block bound) bound) d (fun _ d' => d'.words = rest) ParseFault.IsStatic
  | items => ∀ (bound : Nat) (rest : List Token) (d : Draft), d.blocks.length = 1 →
    rest.head? = some (.word .beginning) → (w ++ rest).length ≤ bound → d.words = w ++ rest →
    Comes (unitItems bound) d (fun _ d' => d'.words = rest) ParseFault.IsStatic
  | program => ∀ tokens : List Lexeme, tokens.map (·.token) = w →
    Comes (unit tokens.length) (Draft.start tokens) (fun _ _ => True) ParseFault.IsStatic

/-! ## Simple statements -/

/-- A reader that this keyword starts, in front of what may come behind the statement. -/
theorem accepted_statement {w : List Token} {k : Keyword}
    {x : Nat → Parse NodeId} (hx : ∀ bound, statement? (block bound) bound k = some (x bound))
    (h : ∀ (bound : Nat) (rest : List Token) (d : Draft), 2 ≤ d.blocks.length →
      (w ++ rest).length ≤ bound → d.words = .word k :: (w ++ rest) →
      Comes (x bound) d (fun _ d' => d'.words = rest) ParseFault.IsStatic) :
    Form.statement.Accepted (.word k :: w) :=
  fun bound => ⟨k, w, x bound, rfl, hx bound, fun rest d hdeep hlength hd =>
    h bound rest d hdeep (Nat.le_of_succ_le_succ hlength) hd⟩

/-- A name with indices is read as what is assigned to. -/
theorem target_accepts (bound line : Nat) (name : String) {path : List Token}
    (hpath : Phrase.indices.Derives path) (rest : List Token)
    (hlength : (path ++ rest).length ≤ bound)
    (hends : EndsPhrase [] rest) :
    Accepts (target bound line) (.identifier name :: path) rest := by
  intro d hd
  refine identifier_at hd fun d₁ h₁ hs₁ => resolveWritable_static fun id => ?_
  exact (hpath.accepted bound bound rest hlength hlength hends).bind h₁ fun found d₂ h₂ hs₂ =>
    Comes.pure ⟨hs₁.trans hs₂, h₂⟩

/-- An assignment is accepted if its parts are. -/
theorem accepted_assignment {name : String} {path w : List Token}
    (hpath : Phrase.indices.Derives path) (hw : Phrase.expression.Derives w) :
    Form.statement.Accepted (.word .let :: .identifier name ::
      (path ++ .mark .assign :: (w ++ [.mark .semicolon]))) := by
  refine accepted_statement (fun _ => rfl) fun bound rest d _ hlength hd => ?_
  have hd : d.words = .word .let :: (.identifier name :: path) ++
      .mark .assign :: (w ++ .mark .semicolon :: rest) := by
    simpa using hd
  simp only [List.cons_append, List.append_assoc, List.length_cons, List.length_append] at hlength
  refine expect_at hd fun line d₁ h₁ _ => ?_
  have htarget := target_accepts bound line name hpath
    (.mark .assign :: (w ++ .mark .semicolon :: rest)) (by simp at hlength ⊢; omega)
    (.of_none rfl (by decide) (by decide))
  refine htarget.bind h₁ fun found d₂ h₂ _ => expect_at h₂ fun _ d₃ h₃ _ => ?_
  have hvalue := hw.accepted bound (.mark .semicolon :: rest) (by decide)
    (by simp at hlength ⊢; omega) (.of_none rfl (by decide) (by decide))
  exact hvalue.bind h₃ fun value d₄ h₄ _ => expect_at h₄ fun _ d₅ h₅ _ => h₅

theorem accepted_callStatement {name : String} {w : List Token}
    (hw : Phrase.arguments.Derives w) :
    Form.statement.Accepted (.word .call :: .identifier name :: (w ++ [.mark .semicolon])) := by
  refine accepted_statement (fun _ => rfl) fun bound rest d _ hlength hd => ?_
  have hd : d.words = .word .call :: .identifier name :: (w ++ .mark .semicolon :: rest) := by
    simpa using hd
  simp only [List.cons_append, List.append_assoc, List.length_cons, List.length_append] at hlength
  refine expect_at hd fun line d₁ h₁ _ => identifier_at h₁ fun d₂ h₂ _ => ?_
  have hgiven := hw.accepted bound name line (.mark .semicolon :: rest)
    (by simp at hlength ⊢; omega)
  exact hgiven.bind h₂ fun found d₃ h₃ _ => expect_at h₃ fun _ d₄ h₄ _ => h₄

theorem accepted_inputStatement {name : String} {path : List Token}
    (hpath : Phrase.indices.Derives path) :
    Form.statement.Accepted (.word .input :: .identifier name :: (path ++ [.mark .semicolon])) := by
  refine accepted_statement (fun _ => rfl) fun bound rest d _ hlength hd => ?_
  have hd : d.words = .word .input :: (.identifier name :: path) ++ .mark .semicolon :: rest := by
    simpa using hd
  simp only [List.cons_append, List.append_assoc, List.length_cons, List.length_append] at hlength
  refine expect_at hd fun line d₁ h₁ _ => ?_
  have htarget := target_accepts bound line name hpath
    (.mark .semicolon :: rest) (by simp at hlength ⊢; omega)
    (.of_none rfl (by decide) (by decide))
  exact htarget.bind h₁ fun found d₂ h₂ _ => expect_at h₂ fun _ d₃ h₃ _ => h₃

theorem accepted_outputStatement {w : List Token} (hw : Phrase.expression.Derives w) :
    Form.statement.Accepted (.word .output :: (w ++ [.mark .semicolon])) := by
  refine accepted_statement (fun _ => rfl) fun bound rest d _ hlength hd => ?_
  rw [List.append_assoc] at hd hlength
  refine expect_at hd fun line d₁ h₁ _ => ?_
  have hvalue := hw.accepted.expression hlength (.of_none rfl (by decide) (by decide))
  exact hvalue.bind h₁ fun value d₂ h₂ _ => expect_at h₂ fun _ d₃ h₃ _ => h₃

theorem accepted_bareReturn :
    Form.statement.Accepted [.word .return, .mark .semicolon] := by
  refine accepted_statement (fun _ => rfl) fun bound rest d _ _ hd => ?_
  refine expect_at hd fun line d₁ h₁ _ => Comes.get ?_
  split
  · exact Comes.refuse trivial
  · refine Comes.peek ?_
    have hbare : d₁.words.head? = some (.mark .semicolon) := by rw [h₁]; rfl
    rw [decide_eq_true hbare]
    dsimp only
    split
    · rename_i heq
      cases heq
    · exact Comes.refuseBind trivial
    · exact expect_at h₁ fun _ d₂ h₂ _ => h₂
    · rename_i heq
      cases heq

theorem accepted_return {w : List Token} (hw : Phrase.expression.Derives w) :
    Form.statement.Accepted (.word .return :: (w ++ [.mark .semicolon])) := by
  refine accepted_statement (fun _ => rfl) fun bound rest d _ hlength hd => ?_
  rw [List.append_assoc] at hd hlength
  refine expect_at hd fun line d₁ h₁ _ => Comes.get ?_
  split
  · exact Comes.refuse trivial
  · refine Comes.peek ?_
    -- no expression starts with the semicolon that a bare return has
    have hvalue : ¬ d₁.words.head? = some (.mark .semicolon) := by
      obtain ⟨t, v, rfl, ht⟩ := hw.opens (Or.inl trivial)
      rw [h₁]
      intro heq
      obtain rfl : t = .mark .semicolon := Option.some.inj heq
      rcases ht with ht | ht <;> cases ht
    rw [decide_eq_false hvalue]
    dsimp only
    split
    · have hread := hw.accepted.expression hlength (.of_none rfl (by decide) (by decide)) d₁ h₁
      refine Comes.bind (P := fun _ d' => d'.words = .mark .semicolon :: rest) ?_ ?_
      · exact Comes.map (hread.imp (fun _ _ h => h.2) fun _ h => h)
      rintro value d₂ h₂
      exact expect_at h₂ fun _ d₃ h₃ _ => h₃
    · rename_i heq
      cases heq
    · rename_i heq
      cases heq
    · exact Comes.refuseBind trivial

/-! ## Blocks -/

section

variable {d : Draft} {rest : List Token} {f : Unit → Parse β} {Q : β → Draft → Prop}

/-- The end of a block that is there is taken. -/
theorem blockEnd_at {k : Keyword} {E : ParseFault → Prop}
    (hd : d.words = .word .end :: .word k :: .mark .semicolon :: rest)
    (h : ∀ d', d'.words = rest → d.Skips d' → Comes (f ()) d' Q E) :
    Comes (blockEnd k >>= f) d Q E := by
  refine Comes.bind (P := fun _ d' => d'.words = rest ∧ d.Skips d') ?_
    fun _ d' hd' => h d' hd'.1 hd'.2
  refine expect_at hd fun _ d₁ h₁ hs₁ => advance_at h₁ fun l d₂ hl h₂ hs₂ => ?_
  rw [if_pos hl]
  exact expect_at h₂ fun _ d₃ h₃ hs₃ => Comes.pure ⟨h₃, (hs₁.trans hs₂).trans hs₃⟩

/-- A block that another name closes is refused for that. -/
theorem namedEnd_static {name found : String}
    (hd : d.words = .word .end :: .identifier found :: rest)
    (h : ∀ d', d'.words = rest → d.Skips d' → Comes (f ()) d' Q ParseFault.IsStatic) :
    Comes (namedEnd name >>= f) d Q ParseFault.IsStatic := by
  refine Comes.bind (P := fun _ d' => d'.words = rest ∧ d.Skips d') ?_
    fun _ d' hd' => h d' hd'.1 hd'.2
  refine expect_at hd fun _ d₁ h₁ hs₁ => identifier_at h₁ fun d₂ h₂ hs₂ => ?_
  split
  · exact Comes.pure ⟨h₂, hs₁.trans hs₂⟩
  · exact Comes.refuse trivial

end

/-- A body that is read in a block of its own. -/
theorem inBlock_accepts {w rest : List Token} (h : Form.statements.Accepted w) {bound : Nat}
    {terminators : List Keyword} {d : Draft} {node : NodeId} {scope : String}
    (ht : Terminates terminators) (hends : EndsBlock terminators rest)
    (hdeep : 1 ≤ d.blocks.length) (hlength : (w ++ rest).length ≤ bound)
    (hd : d.words = w ++ rest) :
    Comes (inBlock node scope (block bound terminators)) d (fun _ d' => d'.words = rest ∧
      d'.blocks = d.blocks ∧ d.tree.KeepsConditionals d'.tree) ParseFault.IsStatic := by
  have hdeep' : 2 ≤ (d.opened node scope).blocks.length := Nat.succ_le_succ hdeep
  have hread := h bound terminators rest (d.opened node scope) ht hends hdeep' hlength hd
  refine Comes.inBlock (hread.andRun.imp ?_ fun _ hf => hf)
  rintro _ d' ⟨hwords, hrun⟩
  obtain ⟨f, hreads⟩ := block_reads bound hrun hdeep'
  exact ⟨hwords, hreads.sameBlocks.outer, hreads.keepsConditionals⟩

/-- A block ends in front of one of its terminators. -/
theorem block_end {bound : Nat} {terminators : List Keyword} {d : Draft} {Q : Unit → Draft → Prop}
    {E : ParseFault → Prop} (hends : EndsBlock terminators d.words)
    (hlength : d.words.length ≤ bound) (h : Q () d) : Comes (block bound terminators) d Q E := by
  obtain ⟨k, hk, hhead⟩ := hends
  cases bound with
  | zero =>
    rw [List.length_eq_zero_iff.1 (Nat.le_zero.1 hlength)] at hhead
    cases hhead
  | succ bound =>
    rw [block]
    refine Comes.peek ?_
    rw [hhead]
    have hone : isOneOf (.word k) terminators = true := List.contains_iff_mem.2 hk
    dsimp only
    rw [if_pos hone]
    exact Comes.pure h

theorem accepted_noStatement : Form.statements.Accepted [] := by
  intro bound terminators rest d _ hends _ hlength hd
  have hd : d.words = rest := hd
  exact block_end (hd ▸ hends) (hd ▸ hlength) hd

/-- No keyword that starts a statement ends a block. -/
theorem isOneOf_of_statement? {body : Body} {bound : Nat} {k : Keyword} {x : Parse NodeId}
    {terminators : List Keyword} (ht : Terminates terminators)
    (hx : statement? body bound k = some x) : isOneOf (.word k) terminators = false := by
  refine Bool.eq_false_iff.2 fun hone => ?_
  rcases ht k (List.contains_iff_mem.1 hone) with rfl | rfl | rfl <;> cases hx

/-- A statement is read as one. -/
theorem item_of_statement? {body : Body} {bound : Nat} {k : Keyword} {x : Parse NodeId}
    (hx : statement? body bound k = some x) :
    item body bound (.word k) = (do attach (← x)) := by
  unfold item
  split
  · rename_i heq
    cases heq
    cases hx
  · rename_i heq
    cases heq
    cases hx
  · rename_i heq
    cases heq
    rw [hx]
  · rename_i hword
    exact absurd rfl (hword k)

/-- A statement is read as an item, and then the block goes on. -/
theorem block_statement {bound : Nat} {k : Keyword} {x : Parse NodeId} {terminators : List Keyword}
    {d : Draft} {P Q : Unit → Draft → Prop} {E : ParseFault → Prop} (ht : Terminates terminators)
    (hx : statement? (block bound) bound k = some x) (hhead : d.words.head? = some (.word k))
    (h : Comes (item (block bound) bound (.word k)) d P E)
    (hmore : ∀ d', P () d' → Comes (block bound terminators) d' Q E) :
    Comes (block (bound + 1) terminators) d Q E := by
  rw [block]
  refine Comes.peek ?_
  rw [hhead]
  dsimp only
  rw [isOneOf_of_statement? ht hx, if_neg Bool.false_ne_true]
  exact Comes.bind h fun _ d' => hmore d'

theorem accepted_statements {w v : List Token} (first : Form.statement.Accepted w)
    (more : Form.statements.Accepted v) : Form.statements.Accepted (w ++ v) := by
  intro bound terminators rest d ht hends hdeep hlength hd
  rw [List.append_assoc] at hd hlength
  cases bound with
  | zero =>
    obtain ⟨k, u, x, rfl, -⟩ := first 0
    cases hlength
  | succ bound =>
    obtain ⟨k, u, x, rfl, hx, hstatement⟩ := first bound
    have hhead : d.words.head? = some (.word k) := by
      rw [hd]
      rfl
    have hitem : Comes (item (block bound) bound (.word k)) d (fun _ d' => d'.words = v ++ rest)
        ParseFault.IsStatic := by
      rw [item_of_statement? hx]
      refine Comes.bind (hstatement (v ++ rest) d hdeep hlength hd) fun node d₁ h₁ => ?_
      refine Comes.attach ?_
      rw [Draft.words, Draft.tokens_attached]
      exact h₁
    refine block_statement ht hx hhead hitem.andRun ?_
    rintro d₁ ⟨h₁, hrun⟩
    refine more bound terminators rest d₁ ht hends (item_open (block_reads bound) hdeep hhead hrun)
      ?_ h₁
    simp only [List.cons_append, List.length_cons, List.length_append] at hlength ⊢
    omega

/-! ## Statements with bodies -/

theorem terminates_end : Terminates [.end] := by
  simp [Terminates]

theorem terminates_branch : Terminates [.elseif, .else, .end] := by
  simp [Terminates]

/-- A loop is accepted if its condition and its body are. -/
theorem accepted_loop {w body : List Token} (hw : Phrase.expression.Derives w)
    (inside : Form.statements.Accepted body) :
    Form.statement.Accepted (.word .while :: (w ++ .word .repeat :: (body ++
      [.word .end, .word .while, .mark .semicolon]))) := by
  refine accepted_statement (fun _ => rfl) fun bound rest d hdeep hlength hd => ?_
  have hd : d.words = .word .while :: (w ++ .word .repeat :: (body ++
      .word .end :: .word .while :: .mark .semicolon :: rest)) := by
    simpa using hd
  simp only [List.cons_append, List.append_assoc, List.length_cons, List.length_append] at hlength
  refine expect_at hd fun line d₁ h₁ hs₁ => ?_
  have hcondition := hw.accepted bound (.word .repeat :: (body ++
    .word .end :: .word .while :: .mark .semicolon :: rest)) (by decide)
    (by simp at hlength ⊢; omega) (.of_none rfl (by decide) (by decide))
  refine hcondition.bind h₁ fun condition d₂ h₂ hs₂ => expect_at h₂ fun _ d₃ h₃ hs₃ => ?_
  refine Comes.blockScope (Comes.allocate ?_)
  have hdeep₃ : 1 ≤ d₃.blocks.length := by
    rw [((hs₁.trans hs₂).trans hs₃).blocks]
    omega
  refine Comes.bind (inBlock_accepts inside terminates_end ⟨.end, by simp, rfl⟩ hdeep₃
    (by simp at hlength ⊢; omega) h₃) ?_
  rintro _ d₄ ⟨h₄, -, -⟩
  exact blockEnd_at h₄ fun d₅ h₅ _ => Comes.pure h₅

/-- Branches that do not come are not read. -/
theorem elseIfs_not {body : Body} {bound more : Nat} {c : NodeId} {d : Draft}
    {Q : Unit → Draft → Prop} {E : ParseFault → Prop}
    (hd : d.words.head? ≠ some (.word .elseif)) (h : Q () d) :
    Comes (elseIfs body bound c more) d Q E := by
  cases more with
  | zero => exact Comes.pure h
  | succ more =>
    rw [elseIfs]
    refine Comes.peek ?_
    rw [if_neg hd]
    exact Comes.pure h

/-- Without the keyword there is no branch without a condition. -/
theorem otherwise_not {body : Body} {c : NodeId} {d : Draft} {Q : Unit → Draft → Prop}
    {E : ParseFault → Prop} (hd : d.words.head? ≠ some (.word .else)) (h : Q () d) :
    Comes (otherwise body c) d Q E := by
  refine Comes.peek ?_
  rw [if_neg hd]
  exact Comes.pure h

theorem accepted_noElseIf : Form.elseIfs.Accepted [] := by
  intro bound more conditional rest d hends _ hhas _ _ hd
  refine elseIfs_not ?_ ⟨hd, rfl, hhas⟩
  obtain ⟨k, hk, hhead⟩ := hends
  rw [hd, List.nil_append, hhead]
  intro heq
  cases heq
  simp at hk

/-- What stands behind a branch ends its body. -/
theorem endsBlock_elseIfs {v rest : List Token} (h : Form.elseIfs.Derives v)
    (hends : EndsBlock [.else, .end] rest) : EndsBlock [.elseif, .else, .end] (v ++ rest) := by
  cases h with
  | noElseIf =>
    obtain ⟨k, hk, hhead⟩ := hends
    exact ⟨k, List.mem_cons_of_mem _ hk, hhead⟩
  | elseIf => exact ⟨.elseif, List.mem_cons_self, rfl⟩

theorem endsBlock_otherwise {v rest : List Token} (h : Form.otherwise.Derives v)
    (hends : EndsBlock [.end] rest) : EndsBlock [.else, .end] (v ++ rest) := by
  cases h with
  | noElse =>
    obtain ⟨k, hk, hhead⟩ := hends
    exact ⟨k, List.mem_cons_of_mem _ hk, hhead⟩
  | «else» => exact ⟨.else, List.mem_cons_self, rfl⟩

/-- A further branch, in front of more of them. -/
theorem accepted_elseIf {w body v : List Token} (hw : Phrase.expression.Derives w)
    (inside : Form.statements.Accepted body) (hv : Form.elseIfs.Derives v)
    (h : Form.elseIfs.Accepted v) :
    Form.elseIfs.Accepted (.word .elseif :: (w ++ .word .then :: (body ++ v))) := by
  intro bound more conditional rest d hends hdeep hhas hbound hmore hd
  have hd : d.words = .word .elseif :: (w ++ .word .then :: (body ++ (v ++ rest))) := by
    simpa using hd
  simp only [List.cons_append, List.append_assoc, List.length_cons, List.length_append]
    at hbound hmore
  cases more with
  | zero => omega
  | succ more =>
    rw [elseIfs]
    refine Comes.peek ?_
    rw [if_pos (by rw [hd]; rfl)]
    refine expect_at hd fun line d₁ h₁ hs₁ => ?_
    have hcondition := hw.accepted bound
      (.word .then :: (body ++ (v ++ rest))) (by decide) (by simp; omega)
      (.of_none rfl (by decide) (by decide))
    refine hcondition.bind h₁ fun condition d₂ h₂ hs₂ => expect_at h₂ fun _ d₃ h₃ hs₃ => ?_
    have hs := (hs₁.trans hs₂).trans hs₃
    refine Comes.blockScope ?_
    refine Comes.branch (hs.tree ▸ hhas) (Or.inl ⟨_, _, rfl⟩) fun tree htree => ?_
    have hdeep₃ : 1 ≤ d₃.blocks.length := hs.blocks ▸ hdeep
    refine Comes.bind (inBlock_accepts inside terminates_branch (endsBlock_elseIfs hv hends) hdeep₃
      (by simp; omega) h₃) ?_
    rintro _ d₄ ⟨h₄, hblocks, hkeeps⟩
    have hblocks' : d₄.blocks = d.blocks := hblocks.trans hs.blocks
    have hhas₄ := hkeeps _ (Tree.KeepsConditionals.attachBranch htree _
      (Tree.KeepsConditionals.allocate _ _ _ _ (hs.tree ▸ hhas)))
    refine (h bound more conditional rest d₄ hends (hblocks' ▸ hdeep) hhas₄ (by simp; omega)
      (by simp; omega) h₄).imp ?_ fun _ hf => hf
    rintro _ d₅ ⟨h₅, hblocks₅, hhas₅⟩
    exact ⟨h₅, hblocks₅.trans hblocks', hhas₅⟩

theorem accepted_noElse : Form.otherwise.Accepted [] := by
  intro bound conditional rest d hends _ _ _ hd
  refine otherwise_not ?_ hd
  obtain ⟨k, hk, hhead⟩ := hends
  rw [hd, List.nil_append, hhead]
  intro heq
  cases heq
  simp at hk

theorem accepted_else {body : List Token} (inside : Form.statements.Accepted body) :
    Form.otherwise.Accepted (.word .else :: body) := by
  intro bound conditional rest d hends hdeep hhas hlength hd
  refine Comes.peek ?_
  rw [if_pos (by rw [hd]; rfl)]
  refine expect_at hd fun line d₁ h₁ hs₁ => Comes.blockScope ?_
  refine Comes.branch (hs₁.tree ▸ hhas) (Or.inr ⟨_, rfl⟩) fun tree _ => ?_
  have hdeep₁ : 1 ≤ d₁.blocks.length := hs₁.blocks ▸ hdeep
  have hbound : (body ++ rest).length ≤ bound := Nat.le_of_succ_le hlength
  exact Comes.imp (inBlock_accepts inside terminates_end hends hdeep₁ hbound h₁)
    (fun _ _ h₂ => h₂.1) fun _ hf => hf

/-- A conditional is accepted if all of its branches are. -/
theorem accepted_conditional {w body branches last : List Token}
    (hw : Phrase.expression.Derives w) (inside : Form.statements.Accepted body)
    (hbranches : Form.elseIfs.Derives branches) (elseIfs : Form.elseIfs.Accepted branches)
    (hlast : Form.otherwise.Derives last) (otherwise : Form.otherwise.Accepted last) :
    Form.statement.Accepted (.word .if :: (w ++ .word .then :: (body ++ (branches ++ (last ++
      [.word .end, .word .if, .mark .semicolon]))))) := by
  refine accepted_statement (fun _ => rfl) fun bound rest d hdeep hlength hd => ?_
  have hd : d.words = .word .if :: (w ++ .word .then :: (body ++ (branches ++ (last ++
      .word .end :: .word .if :: .mark .semicolon :: rest)))) := by
    simpa using hd
  simp only [List.cons_append, List.append_assoc, List.length_cons, List.length_append,
    List.length_nil] at hlength
  refine expect_at hd fun line d₁ h₁ hs₁ => ?_
  have hcondition := hw.accepted bound (.word .then :: (body ++
    (branches ++ (last ++ .word .end :: .word .if :: .mark .semicolon :: rest)))) (by decide)
    (by simp; omega) (.of_none rfl (by decide) (by decide))
  refine hcondition.bind h₁ fun condition d₂ h₂ hs₂ => expect_at h₂ fun _ d₃ h₃ hs₃ => ?_
  refine Comes.blockScope (Comes.allocate ?_)
  have hdeep₃ : 1 ≤ d₃.blocks.length := by
    rw [((hs₁.trans hs₂).trans hs₃).blocks]
    omega
  -- What ends the body depends on the branches that follow, so these are looked at from behind.
  have hend : EndsBlock [.end] (.word .end :: .word .if :: .mark .semicolon :: rest) :=
    ⟨.end, List.mem_cons_self, rfl⟩
  have hafter := endsBlock_otherwise hlast hend
  refine Comes.bind (inBlock_accepts inside terminates_branch (endsBlock_elseIfs hbranches hafter)
    hdeep₃ (by simp; omega) h₃) ?_
  rintro _ d₄ ⟨h₄, hblocks, hkeeps⟩
  have hblocks' : d₄.blocks = d₃.blocks := hblocks
  have hhas := hkeeps _ (Tree.hasConditional_allocate _ _ _ _ _ _)
  refine Comes.bind (elseIfs bound bound _ _ d₄ hafter (hblocks' ▸ hdeep₃) hhas (by simp; omega)
    (by simp; omega) h₄) ?_
  rintro _ d₅ ⟨h₅, hblocks₅, hhas₅⟩
  refine Comes.bind (otherwise bound _ _ d₅ hend (hblocks₅ ▸ hblocks' ▸ hdeep₃) hhas₅
    (by simp; omega) h₅) ?_
  intro _ d₆ h₆
  exact blockEnd_at h₆ fun d₇ h₇ _ => Comes.pure h₇

/-! ## Routines -/

/-- A parameter is two keywords and a name. -/
theorem accepted_parameter {mode : Keyword} {type : Scalar} {name : String}
    (passed : mode = .in ∨ mode = .var) :
    Form.parameter.Accepted [.word mode, .word (.scalar type), .identifier name] := by
  intro rest d hd
  refine advance_at hd fun l d₁ hl h₁ hs₁ => ?_
  have hrest : ∀ mode : PassMode, Comes (do
      let type ← scalarType
      let name ← identifier
      return ({ mode, type, name } : Parameter)) d₁
      (fun _ d' => d.Skips d' ∧ d'.words = rest) ParseFault.IsStatic := by
    intro mode
    refine scalarType_at h₁ fun d₂ h₂ hs₂ => identifier_at h₂ fun d₃ h₃ hs₃ => Comes.pure ⟨?_, h₃⟩
    exact (hs₁.trans hs₂).trans hs₃
  rw [hl]
  rcases passed with rfl | rfl
  · exact hrest .byValue
  · exact hrest .byReference

theorem accepted_lastParameter {w : List Token} (h : Form.parameter.Accepted w) :
    Form.parameters.Accepted w := by
  intro more position rest hmore d hd
  rw [List.append_assoc] at hd
  cases more with
  | zero => simp at hmore
  | succ more =>
    rw [items]
    refine (h _).bind hd fun p d₁ h₁ hs₁ => advance_at h₁ fun l d₂ hl h₂ hs₂ => ?_
    rw [if_pos hl]
    exact Comes.pure ⟨hs₁.trans hs₂, h₂⟩

theorem accepted_moreParameters {w v : List Token} (first : Form.parameter.Accepted w)
    (h : Form.parameters.Accepted v) : Form.parameters.Accepted (w ++ .mark .comma :: v) := by
  intro more position rest hmore d hd
  have hd' : d.words = w ++ .mark .comma :: ((v ++ [.mark .closeParen]) ++ rest) := by
    rw [hd]
    simp
  simp only [List.length_append, List.length_cons] at hmore
  cases more with
  | zero => omega
  | succ more =>
    rw [items]
    refine (first _).bind hd' fun p d₁ h₁ hs₁ => advance_at h₁ fun l d₂ hl h₂ hs₂ => ?_
    rw [hl, if_neg (by decide), if_pos rfl]
    refine (h more (position + 1) rest (by simp; omega)).bind h₂ fun found d₃ h₃ hs₃ =>
      Comes.pure ⟨(hs₁.trans hs₂).trans hs₃, h₃⟩

theorem accepted_noParameters :
    Form.parameterList.Accepted [.mark .openParen, .mark .closeParen] :=
  ⟨[.mark .closeParen], rfl, fun _ _ _ _ hd => eat_at hd fun _ h₁ hs₁ => Comes.pure ⟨hs₁, h₁⟩⟩

theorem accepted_parameterList {w : List Token} (hw : Form.parameters.Derives w)
    (h : Form.parameters.Accepted w) :
    Form.parameterList.Accepted (.mark .openParen :: (w ++ [.mark .closeParen])) := by
  refine ⟨w ++ [.mark .closeParen], rfl, fun bound rest hlength d hd => eat_not ?_ ?_⟩
  · have hfirst : ∀ {v : List Token}, Form.parameter.Derives v →
        ∀ u, (v ++ u).head? ≠ some (.mark .closeParen) := by
      intro v hv u
      cases hv with
      | parameter => exact fun heq => by cases heq
    rw [hd, List.append_assoc]
    cases hw with
    | lastParameter last => exact hfirst last _
    | moreParameters first =>
      rw [List.append_assoc]
      exact hfirst first _
  · simp only [List.length_append, List.length_cons, List.length_nil] at hlength
    exact h bound 0 rest (by simp; omega) d hd

theorem visibility_at {d : Draft} {k : Keyword} {rest : List Token}
    (visible : k = .public ∨ k = .private) (hd : d.words = .word k :: rest)
    {f : Visibility → Parse β} {Q : β → Draft → Prop}
    (h : ∀ v d', d'.words = rest → d.Skips d' → Comes (f v) d' Q ParseFault.IsStatic) :
    Comes (visibility >>= f) d Q ParseFault.IsStatic := by
  refine Comes.bind (P := fun _ d' => d'.words = rest ∧ d.Skips d') ?_
    fun v d' hd' => h v d' hd'.1 hd'.2
  refine advance_at hd fun l d₁ hl h₁ hs₁ => ?_
  rw [hl]
  rcases visible with rfl | rfl <;> exact Comes.pure ⟨h₁, hs₁⟩

/-- The reader of a body reads these tokens up to the end of a routine. -/
def ReadsBody (read : Body) (body rest : List Token) : Prop :=
  ∀ (d : Draft) (node : NodeId) (scope : String), 1 ≤ d.blocks.length → d.words = body ++ rest →
    Comes (inBlock node scope (read [.end])) d (fun _ d' => d'.words = rest) ParseFault.IsStatic

theorem readsBody_of_accepted {bound : Nat} {body rest : List Token} {name : String}
    (inside : Form.statements.Accepted body)
    (hlength : (body ++ .word .end :: .identifier name :: rest).length ≤ bound) :
    ReadsBody (block bound) body (.word .end :: .identifier name :: rest) := by
  intro d node scope hdeep hd
  exact (inBlock_accepts inside terminates_end ⟨.end, List.mem_cons_self, rfl⟩ hdeep hlength
    hd).imp (fun _ _ h => h.1) fun _ hf => hf

/-- A routine behind its heading is read to its semicolon. -/
theorem routineBody_accepts {closing : String} {read : Body} {body rest : List Token}
    {line : Nat} {heading : Heading} {d : Draft}
    (inside : ReadsBody read body (.word .end :: .identifier closing :: .mark .semicolon :: rest))
    (hdeep : 1 ≤ d.blocks.length)
    (hd : d.words = body ++ .word .end :: .identifier closing :: .mark .semicolon :: rest) :
    Comes (routineBody read heading line) d (fun _ d' => d'.words = rest)
      ParseFault.IsStatic := by
  refine Comes.allocate (Comes.bind (inside _ _ _ hdeep hd) ?_)
  intro _ d₁ h₁
  refine namedEnd_static h₁ fun d₂ h₂ _ => expect_at h₂ fun _ d₃ h₃ _ => ?_
  refine Comes.register trivial fun routines _ => ?_
  rw [Draft.words, Draft.tokens_attached]
  exact h₃

/-- The result clause of a function. -/
theorem result_at {d : Draft} {type : Scalar} {rest : List Token}
    (hd : d.words = .mark .colon :: .word (.scalar type) :: rest) {f : Option Scalar → Parse β}
    {Q : β → Draft → Prop} {E : ParseFault → Prop}
    (h : ∀ d', d'.words = rest → d.Skips d' → Comes (f (some type)) d' Q E) :
    Comes (do
      let _ ← expect (.mark .colon)
      let result ← some <$> scalarType
      f result) d Q E := by
  refine expect_at hd fun _ d₁ h₁ hs₁ => ?_
  refine Comes.bind (P := fun result d' => result = some type ∧ d'.words = rest ∧ d₁.Skips d')
    (Comes.map ?_) ?_
  · have htype := scalarType_at (E := E) h₁
      (f := fun type => (pure type : Parse Scalar))
      (Q := fun found d' => some found = some type ∧ d'.words = rest ∧ d₁.Skips d')
      fun d' h hs => ⟨rfl, h, hs⟩
    rwa [bind_pure] at htype
  · rintro result d₂ ⟨rfl, h₂, hs₂⟩
    exact h d₂ h₂ (hs₁.trans hs₂)

/-- A routine: its keyword decides whether there is a result. -/
theorem routine_accepts {keyword visible : Keyword} {name closing : String}
    {parameters result body rest : List Token} {read : Body} {bound : Nat} {d : Draft}
    (hkeyword : (keyword = .function ∧ ∃ type, result = [.mark .colon, .word (.scalar type)]) ∨
      (keyword = .procedure ∧ result = []))
    (hvisible : visible = .public ∨ visible = .private)
    (hparameters : Form.parameterList.Accepted parameters)
    (inside : ReadsBody read body (.word .end :: .identifier closing :: .mark .semicolon :: rest))
    (hlevel : d.blocks.length = 1)
    (hlength : (parameters ++ (result ++ (body ++ .word .end :: .identifier closing ::
      .mark .semicolon :: rest))).length ≤ bound)
    (hd : d.words = .word keyword :: .word visible :: .identifier name :: (parameters ++ (result ++
      (body ++ .word .end :: .identifier closing :: .mark .semicolon :: rest)))) :
    Comes (routine read bound) d (fun _ d' => d'.words = rest) ParseFault.IsStatic := by
  obtain ⟨list, rfl, hlist⟩ := hparameters
  simp only [List.cons_append, List.length_cons, List.length_append] at hlength
  refine advance_at hd fun l d₁ hl h₁ hs₁ => visibility_at hvisible h₁ fun v d₂ h₂ hs₂ => ?_
  refine identifier_at h₂ fun d₃ h₃ hs₃ => Comes.get ?_
  have hs := (hs₁.trans hs₂).trans hs₃
  dsimp only
  split
  · -- The form stands at the outermost level, so the check for a nested routine passes.
    rename_i hnested
    rw [hs.blocks] at hnested
    exact absurd hlevel hnested
  refine expect_at h₃ fun _ d₄ h₄ hs₄ => ?_
  refine (hlist bound _ (by simp; omega)).bind h₄ fun parameters d₅ h₅ hs₅ => ?_
  split
  · exact Comes.refuseBind trivial
  have hs' := (hs.trans hs₄).trans hs₅
  -- A repeated parameter is a static error and allowed; otherwise the body is read in a block.
  have hdeep : 1 ≤ d₅.blocks.length := Nat.le_of_eq (by rw [hs'.blocks, hlevel])
  split
  · rename_i hfunction
    rcases hkeyword with ⟨rfl, type, rfl⟩ | ⟨rfl, -⟩
    · refine result_at h₅ fun d₆ h₆ hs₆ => Comes.get ?_
      exact routineBody_accepts inside (hs₆.blocks ▸ hdeep) h₆
    · rw [hl] at hfunction
      cases hfunction
  · rename_i hprocedure
    rcases hkeyword with ⟨rfl, -⟩ | ⟨rfl, rfl⟩
    · exact absurd hl hprocedure
    · exact Comes.pureBind (Comes.get (routineBody_accepts inside hdeep h₅))

/-! ## Programs -/

/-- The items of a unit end in front of its entry block. -/
theorem unitItems_end {bound : Nat} {d : Draft} {Q : Unit → Draft → Prop} {E : ParseFault → Prop}
    (hhead : d.words.head? = some (.word .beginning)) (hlength : d.words.length ≤ bound)
    (h : Q () d) : Comes (unitItems bound) d Q E := by
  cases bound with
  | zero =>
    rw [List.length_eq_zero_iff.1 (Nat.le_zero.1 hlength)] at hhead
    cases hhead
  | succ bound =>
    rw [unitItems]
    refine Comes.peek ?_
    rw [hhead]
    exact Comes.pure h

theorem accepted_items_noItem : Form.items.Accepted [] := by
  intro bound rest d _ hhead hlength hd
  have hd : d.words = rest := hd
  exact unitItems_end (hd ▸ hhead) (hd ▸ hlength) hd

/-- A declaration is put into the unit, and then the items go on. -/
theorem unitItems_declaration {bound : Nat} {d : Draft} {P : NodeId → Draft → Prop}
    {Q : Unit → Draft → Prop} {E : ParseFault → Prop}
    (hhead : d.words.head? = some (.word .variable)) (h : Comes (declaration bound) d P E)
    (hmore : ∀ node d', P node d' → Comes (unitItems bound) (d'.attached node) Q E) :
    Comes (unitItems (bound + 1)) d Q E := by
  rw [unitItems]
  refine Comes.peek ?_
  rw [hhead]
  refine Comes.bind h fun node d' h' => ?_
  refine Comes.bind (P := fun _ d'' => d'' = d'.attached node) rfl ?_
  rintro _ _ rfl
  exact hmore node d' h'

/-- A routine puts itself into the unit. -/
theorem unitItems_routine {bound : Nat} {k : Keyword} {d : Draft} {P Q : Unit → Draft → Prop}
    {E : ParseFault → Prop} (hk : k = .function ∨ k = .procedure)
    (hhead : d.words.head? = some (.word k)) (h : Comes (routine (block bound) bound) d P E)
    (hmore : ∀ d', P () d' → Comes (unitItems bound) d' Q E) :
    Comes (unitItems (bound + 1)) d Q E := by
  have hboth : Comes (do
      routine (block bound) bound
      unitItems bound) d Q E :=
    Comes.bind h fun _ d' => hmore d'
  rw [unitItems]
  refine Comes.peek ?_
  rw [hhead]
  rcases hk with rfl | rfl <;> exact hboth

theorem accepted_declarationItem {w v : List Token} (hw : Form.declaration.Derives w)
    (first : Form.declaration.Accepted w) (more : Form.items.Accepted v) :
    Form.items.Accepted (w ++ v) := by
  intro bound rest d hlevel hhead hlength hd
  rw [List.append_assoc] at hd hlength
  obtain ⟨u, rfl⟩ := declaration_starts hw
  cases bound with
  | zero => cases hlength
  | succ bound =>
    refine unitItems_declaration (by rw [hd]; rfl) (first bound (v ++ rest) d hlength hd).andRun ?_
    rintro node d₁ ⟨h₁, hrun⟩
    obtain ⟨rfl, x, line, hreads⟩ := declaration_reads hrun
    refine more bound rest _ ?_ hhead ?_ ?_
    · rw [Draft.length_blocks_attached, hreads.length_blocks, hlevel]
    · simp only [List.cons_append, List.length_cons, List.length_append] at hlength ⊢
      omega
    · rw [Draft.words, Draft.tokens_attached]
      exact h₁

theorem accepted_routineItem {w v : List Token} (hw : Form.routine.Derives w)
    (first : Form.routine.Accepted w) (more : Form.items.Accepted v) :
    Form.items.Accepted (w ++ v) := by
  intro bound rest d hlevel hhead hlength hd
  rw [List.append_assoc] at hd hlength
  have hstart : ∃ k u, w = .word k :: u ∧ (k = .function ∨ k = .procedure) := by
    cases hw with
    | function => exact ⟨_, _, rfl, Or.inl rfl⟩
    | procedure => exact ⟨_, _, rfl, Or.inr rfl⟩
  obtain ⟨k, u, rfl, hk⟩ := hstart
  cases bound with
  | zero => cases hlength
  | succ bound =>
    have hsilent : ∀ l d₁, d.Drops l d₁ → l.token.isSilent = true := by
      intro l d₁ hdrops
      have hl := (hdrops.words_eq hd).1
      rw [hl]
      rcases hk with rfl | rfl <;> rfl
    refine unitItems_routine hk (by rw [hd]; rfl)
      (first bound (v ++ rest) d hlevel hlength hd).andRun ?_
    rintro d₁ ⟨h₁, hrun⟩
    obtain ⟨-, f, d₂, hreads, rfl⟩ := routine_reads (block_reads bound) hsilent hrun
    refine more bound rest _ ?_ hhead ?_ h₁
    · rw [Draft.length_blocks_attached, hreads.length_blocks, hlevel]
    · simp only [List.cons_append, List.length_cons, List.length_append] at hlength ⊢
      omega

/-- A program is accepted if its items and its statements are. -/
theorem accepted_program {name closing : String} {declared body : List Token}
    (items : Form.items.Accepted declared) (inside : Form.statements.Accepted body) :
    Form.program.Accepted (.word .module :: .identifier name :: .mark .semicolon ::
      (declared ++ .word .beginning :: (body ++
        [.word .end, .identifier closing, .mark .dot]))) := by
  intro tokens htokens
  have hlength : tokens.length = _ := (List.length_map _).symm.trans (congrArg List.length htokens)
  simp only [List.length_append, List.length_cons, List.length_nil] at hlength
  have hd : (Draft.start tokens).words = _ := htokens
  refine expect_at hd fun line d₁ h₁ hs₁ => identifier_at h₁ fun d₂ h₂ hs₂ => ?_
  refine expect_at h₂ fun _ d₃ h₃ hs₃ => ?_
  have hs := (hs₁.trans hs₂).trans hs₃
  have hempty : d₃.tree = .empty := hs.tree
  refine Comes.root hempty fun tree htree => ?_
  refine Comes.bind (Comes.inBlock (Q := fun _ d' => d'.words = []) ?_) ?_
  · have hlevel : ((d₃.planted tree).opened d₃.tree.size name).blocks.length = 1 := by
      show d₃.blocks.length + 1 = 1
      rw [hs.blocks]
      rfl
    refine Comes.bind (items _ _ _ hlevel rfl (by simp; omega) h₃).andRun ?_
    rintro _ d₄ ⟨h₄, hrun⟩
    -- The entry can be set only because the root is the unit, which the items leave alone.
    obtain ⟨forest, hreads⟩ := unitItems_reads _ hrun
    obtain ⟨owner, between, hnodes, howner, hroot⟩ := Reads.unit_open hempty htree hreads
    refine Comes.bind (P := fun _ d' => d'.words
      = [.word .end, .identifier closing, .mark .dot]) ?_ ?_
    · refine expect_at h₄ fun _ d₅ h₅ hs₅ => ?_
      rw [← hs₅.tree] at hnodes hroot
      refine Comes.entry hnodes howner hroot fun tree' => ?_
      have hdeep : 1 ≤ d₅.blocks.length :=
        Nat.le_of_eq (by rw [hs₅.blocks, hreads.length_blocks, hlevel])
      refine Comes.imp (inBlock_accepts inside terminates_end ⟨.end, List.mem_cons_self, rfl⟩ hdeep
        (by simp; omega) h₅) (fun _ _ h₆ => h₆.1) fun _ hf => hf
    · intro _ d₅ h₅
      exact namedEnd_static h₅ fun d₆ h₆ _ => expect_at h₆ fun _ d₇ h₇ _ => Comes.pure h₇
  · intro _ d₄ h₄
    refine Comes.get ?_
    rw [List.map_eq_nil_iff.1 h₄]
    exact Comes.pure trivial

/-- The readers of statements and programs take what the rules allow. -/
theorem Form.Derives.accepted {p : Form} {w : List Token} (h : p.Derives w) : p.Accepted w := by
  induction h with
  | scalar => exact fun _ _ _ => declaration_accepts .scalar
  | initialized initial => exact fun _ _ _ => declaration_accepts (.initialized initial)
  | array size more => exact fun _ _ _ => declaration_accepts (.array size more)
  | «variable» h =>
    obtain ⟨v, rfl⟩ := declaration_starts h
    exact fun bound => ⟨.variable, v, _, rfl, rfl, fun rest d _ => declaration_accepts h⟩
  | assignment indices value => exact accepted_assignment indices value
  | conditional condition _ elseIfs otherwise ihb ihe iho =>
    exact accepted_conditional condition ihb elseIfs ihe otherwise iho
  | loop condition _ ih => exact accepted_loop condition ih
  | call given => exact accepted_callStatement given
  | input indices => exact accepted_inputStatement indices
  | output value => exact accepted_outputStatement value
  | bareReturn => exact accepted_bareReturn
  | «return» value => exact accepted_return value
  | noStatement => exact accepted_noStatement
  | statements _ _ ihf ihm => exact accepted_statements ihf ihm
  | noElseIf => exact accepted_noElseIf
  | elseIf condition _ more ihb ihm => exact accepted_elseIf condition ihb more ihm
  | noElse => exact accepted_noElse
  | «else» _ ih => exact accepted_else ih
  | parameter passed => exact accepted_parameter passed
  | lastParameter _ ih => exact accepted_lastParameter ih
  | moreParameters _ _ ihf ihm => exact accepted_moreParameters ihf ihm
  | noParameters => exact accepted_noParameters
  | parameterList given ih => exact accepted_parameterList given ih
  | function visible _ _ ihp ihb =>
    intro bound rest d hlevel hlength hd
    refine routine_accepts (Or.inl ⟨rfl, _, rfl⟩) visible ihp
      (readsBody_of_accepted ihb ?_) hlevel ?_ (by simpa using hd) <;>
    · simp at hlength ⊢
      omega
  | procedure visible _ _ ihp ihb =>
    intro bound rest d hlevel hlength hd
    refine routine_accepts (Or.inr ⟨rfl, rfl⟩) visible ihp
      (readsBody_of_accepted ihb ?_) hlevel ?_ (by simpa using hd) <;>
    · simp at hlength ⊢
      omega
  | noItem => exact accepted_items_noItem
  | declarationItem first _ ihf ihm => exact accepted_declarationItem first ihf ihm
  | routineItem first _ ihf ihm => exact accepted_routineItem first ihf ihm
  | program _ _ ihi ihb => exact accepted_program ihi ihb

end Primer.Grammar

namespace Primer.Program

open Grammar

/-- The language that is read, up to what a text says: what is accepted follows the rules, what
follows the rules is accepted or refused for a fault of its names, types or numbers, and nothing is
refused because of the tree that is built from it. -/
theorem ofTokens_language (tokens : List Lexeme) :
    (∀ p, ofTokens tokens = .ok p → Form.program.Derives (tokens.map (·.token))) ∧
    (Form.program.Derives (tokens.map (·.token)) →
      (∃ p, ofTokens tokens = .ok p) ∨
        ∃ e, ofTokens tokens = .error e ∧ e.fault.IsStatic) ∧
    ∀ e, ofTokens tokens = .error e → ∀ cause, e.fault ≠ .tree cause := by
  refine ⟨fun p h => ofTokens_derives h, fun hsentence => ?_, fun e h cause heq => ?_⟩
  · have hread := hsentence.accepted tokens rfl
    unfold ofTokens
    cases hunit : (unit tokens.length).run (Draft.start tokens) with
    | ok root d => exact Or.inl ⟨_, rfl⟩
    | error e d => exact Or.inr ⟨e, rfl, hread.run_error hunit⟩
  · have htextual := ofTokens_isTextual h
    rw [heq] at htextual
    exact htextual

end Primer.Program
