import Primer.Proofs.Language.Cutting
import Primer.Proofs.Language.Sentences
import Primer.Proofs.Scope.Soundness

/-!
# Primer.Proofs.Language.Truncated — programs that stop in the middle.

A text that is accepted is cut off in front of its end.  The readers of statements and programs
always need another token, so the shorter text is refused for its end; the exceptions are those of
`Mistaken`, and all of them lie in what has been read before that token is asked for.

Whether a text is accepted as a whole is used in two places.  The routines of the whole program are
those that its own table has in the end, so a routine whose heading was read must have come to its
end; this is what `Cutting.Defines` says of the draft behind, and it is carried backwards through
the items of the unit.  And what stands behind the program is nothing, so the cut is inside.

Main statement: `Program.ofTokens_truncated`.
-/

namespace Primer.Grammar

variable {α β : Type}

namespace Cutting

variable {k : Cutting}

/-! ## Steps that take nothing -/

theorem Cut.change {d c d' c' : Draft} (h : k.Cut d c) (hd : d'.tokens = d.tokens)
    (hc : c'.tokens = c.tokens)
    (hrest : c' = { d' with tokens := c'.tokens, lastLine := c'.lastLine })
    (hknows : k.Knows d') : k.Cut d' c' :=
  ⟨by rw [hd, hc]; exact h.tokens, hc ▸ h.suffix, hrest, hknows⟩

/-- Both runs change the same part of the program. -/
theorem cuts_set {d c s t : Draft} {f g : PUnit → Parse β} {E : ParseFault → Prop}
    {B : β → β → Prop} (hcut : k.Cut s t) (hle : t.tokens.length ≤ c.tokens.length)
    (h : k.Cut s t → k.Cuts E B (f ⟨⟩) (g ⟨⟩) s t) :
    k.Cuts E B (MonadStateOf.set s >>= f) (MonadStateOf.set t >>= g) d c := by
  intro b d' hrun
  obtain ⟨_, d₁, hset, hrun⟩ := bind_ok hrun
  obtain rfl := set_ok hset
  exact Comes.set ((h hcut b d' hrun).imp (fun _ _ h => h.mono hle) fun _ h => h)

section

variable {d c : Draft} {E : ParseFault → Prop}

/-- A block without a name takes the same number in both runs. -/
theorem blockScope_cuts {label : String} (hcut : k.Cut d c) :
    k.Cuts E Never (blockScope label) (blockScope label) d c := by
  intro scope d' hrun
  obtain ⟨rfl, rfl⟩ := blockScope_ok hrun
  refine Or.inl ⟨?_, hcut.change rfl rfl ?_ (hcut.knows.change (.refl _) rfl rfl), Nat.le_refl _⟩
  · rw [hcut.rest]
    rfl
  · rw [hcut.rest]
    rfl

theorem cuts_attach {node : NodeId} (hcut : k.Cut d c) :
    k.Cuts E Never (attach node) (attach node) d c := by
  intro u d' hrun
  obtain rfl := attach_ok hrun
  have hknows : k.Knows (d.attached node) := by
    refine hcut.knows.change (d.attached_tree node).1 ?_ (d.routines_attached node)
    simpa [Function.comp_def] using congrArg (List.map Prod.fst) (d.blocks_attached node).2
  refine Comes.attach (Or.inl ⟨rfl, ?_, ?_⟩)
  · refine hcut.change (d.tokens_attached node) (c.tokens_attached node) ?_ hknows
    rw [hcut.rest]
    obtain ⟨_, _, _, _, _, blocks, _⟩ := d
    cases blocks <;> rfl
  · rw [c.tokens_attached node]

variable {f g : NodeId → Parse β} {B : β → β → Prop} {construct : Construct} {line : Nat}

/-- A construct that is no routine has no heading to be looked for. -/
theorem headless (h : construct.heading? = none) (heading : Heading)
    (hheading : construct.heading? = some heading) : k.Names heading.name heading := by
  rw [h] at hheading
  cases hheading

/-- A block may be opened for a new node. -/
theorem mayOpen_allocated
    (h : ∀ heading, construct.heading? = some heading → k.Names heading.name heading) :
    k.MayOpen (d.allocated construct line) d.tree.size := by
  refine ⟨?_, ?_⟩
  · exact Nat.lt_of_lt_of_eq (Nat.lt_succ_self _) (Tree.size_allocate d.tree construct line).symm
  · rw [show (d.allocated construct line).tree.construct? d.tree.size = some construct from
      Tree.construct?_allocate d.tree construct line]
    exact h

/-- A node, and whether a block may be opened for it. -/
theorem cuts_allocate (hcut : k.Cut d c)
    (h : ∀ node d' c', k.Cut d' c' → c'.tokens.length ≤ c.tokens.length →
      ((∀ heading, construct.heading? = some heading → k.Names heading.name heading) →
        k.MayOpen d' node) → k.Cuts E B (f node) (g node) d' c') :
    k.Cuts E B (allocate construct line >>= f) (allocate construct line >>= g) d c := by
  intro b d' hrun
  obtain ⟨node, d₁, hnode, hrun⟩ := bind_ok hrun
  obtain ⟨rfl, rfl⟩ := allocate_ok hnode
  refine Comes.allocate ?_
  rw [hcut.tree]
  refine h d.tree.size (d.allocated construct line) (c.allocated construct line) ?_ (Nat.le_refl _)
    mayOpen_allocated b d' hrun
  refine hcut.change rfl rfl ?_ (hcut.knows.change (Tree.keeps_allocate _ _ _) rfl rfl)
  rw [hcut.rest]
  rfl

theorem allocate_cuts (hcut : k.Cut d c) :
    k.Cuts E Never (allocate construct line) (allocate construct line) d c := by
  have hpure : k.Cuts E Never (allocate construct line >>= pure) (allocate construct line >>= pure)
      d c := cuts_allocate hcut fun _ _ _ hcut' _ _ => Cuts.pure hcut'
  rwa [bind_pure] at hpure

/-- A node that is put into its slot can still be the node of a block. -/
theorem cuts_place {f g : Unit → Parse β} {put : Tree → Except TreeFault Tree} {node : NodeId}
    (hcut : k.Cut d c) (hopens : k.MayOpen d node)
    (hkeeps : ∀ t tree, put t = .ok tree → t.Keeps tree)
    (h : ∀ d' c', k.Cut d' c' → c'.tokens.length ≤ c.tokens.length → k.MayOpen d' node →
      k.Cuts E B (f ()) (g ()) d' c') :
    k.Cuts E B (place put line >>= f) (place put line >>= g) d c := by
  intro b d' hrun
  obtain ⟨u, d₁, hplaced, hrun⟩ := bind_ok hrun
  obtain ⟨tree, htree, rfl⟩ := place_ok hplaced
  have htree' : put c.tree = .ok tree := hcut.tree ▸ htree
  have hkept := hkeeps _ _ htree
  refine Comes.place (fun tree' hok => ?_) fun cause herror => ?_
  · obtain rfl : tree' = tree := by
      rw [htree'] at hok
      exact (Except.ok.inj hok).symm
    refine h (d.planted tree') (c.planted tree') ?_ (Nat.le_refl _) (hopens.mono hkept) b d' hrun
    refine hcut.change rfl rfl ?_ (hcut.knows.change hkept rfl rfl)
    rw [hcut.rest]
    rfl
  · rw [htree'] at herror
    cases herror

end

/-- A block of a node that may be opened; its body is read one block deeper. -/
theorem inBlock_cuts {node : NodeId} {scope : String} {x y : Parse Unit} {d c : Draft}
    (hcut : k.Cut d c) (hopens : k.MayOpen d node)
    (hbody : k.deeper.Cut (d.opened node scope) (c.opened node scope) →
      k.deeper.Cuts k.Excuses Never x y (d.opened node scope) (c.opened node scope)) :
    k.Cuts k.Excuses Never (inBlock node scope x) (inBlock node scope y) d c := by
  intro u d' hrun
  obtain ⟨d₁, hinside, rfl⟩ := inBlock_ok hrun
  have hopened : k.deeper.Cut (d.opened node scope) (c.opened node scope) := by
    refine ⟨hcut.tokens, hcut.suffix, ?_, ⟨Nat.succ_le_succ hcut.knows.deep, fun b hb => ?_,
      hcut.knows.defined⟩⟩
    · rw [hcut.rest]
      rfl
    · rcases List.mem_cons.1 hb with rfl | hb
      · exact hopens
      · exact hcut.knows.opened b hb
  refine Comes.inBlock ((hbody hopened () d₁ hinside).imp ?_ fun _ h => h)
  rintro _ c₁ (⟨-, hcut₁, hle⟩ | ⟨-, h⟩)
  · refine Or.inl ⟨rfl, ⟨hcut₁.tokens, hcut₁.suffix, ?_, ?_, ?_, hcut₁.knows.defined⟩, hle⟩
    · rw [hcut₁.rest]
      rfl
    · have hdeep : k.depth + 1 ≤ d₁.blocks.length := hcut₁.knows.deep
      show k.depth ≤ d₁.blocks.tail.length
      rw [List.length_tail]
      omega
    · exact fun b hb => hcut₁.knows.opened b (List.mem_of_mem_tail hb)
  · exact h.elim

/-! ## Statements -/

/-- The second reader does what the first one does, or refuses its text; both take a token. -/
def Shortens (k : Cutting) (x y : Parse α) (d c : Draft) : Prop :=
  ∀ a d', x.run d = .ok a d' → Comes y c
    (fun b c' => b = a ∧ k.Cut d' c' ∧ c'.tokens.length < c.tokens.length) k.Excuses

section

variable {d c : Draft}

/-- A reader that needs a token to begin with. -/
theorem shortens_advance {f g : Lexeme → Parse β} (hcut : k.Cut d c)
    (h : ∀ l d' c', d.Drops l d' → c.Drops l c' → k.Cut d' c' →
      c'.tokens.length < c.tokens.length → k.Cuts k.Excuses Never (f l) (g l) d' c') :
    k.Shortens (advance >>= f) (advance >>= g) d c := by
  intro b d' hrun
  obtain ⟨l, d₁, ha, hrun⟩ := bind_ok hrun
  have hd := advance_ok ha
  refine Comes.advance (fun _ => Or.inl rfl) fun l' c₁ hc => ?_
  obtain ⟨rfl, hcut₁, hlt⟩ := hcut.drops hd hc
  refine (h l' d₁ c₁ hd hc hcut₁ hlt b d' hrun).imp ?_ fun _ h => h
  rintro b' c' (⟨rfl, hcut', hle⟩ | ⟨-, hnever⟩)
  · exact ⟨rfl, hcut', Nat.lt_of_le_of_lt hle hlt⟩
  · exact hnever.elim

/-- A reader that expects a token to begin with. -/
theorem shortens_expect {t : Token} {f g : Nat → Parse β} (hcut : k.Cut d c)
    (h : ∀ line d' c', c.Drops ⟨t, line⟩ c' → k.Cut d' c' →
      c'.tokens.length < c.tokens.length → k.Cuts k.Excuses Never (f line) (g line) d' c') :
    k.Shortens (expect t >>= f) (expect t >>= g) d c := by
  unfold expect
  simp only [bind_assoc]
  refine shortens_advance hcut fun l d' c' _ hc hcut' hlt => ?_
  by_cases hl : l.token = t
  · subst hl
    rw [if_pos rfl, pure_bind, pure_bind]
    exact h l.line d' c' hc hcut' hlt
  · rw [if_neg hl]
    exact Cuts.refusedBind

end

/-! ## Declarations -/

/-- The faults of sizes that were cut off, from the first bracket on. -/
def SizesCut (k : Cutting) (c : Draft) (fault : ParseFault) : Prop :=
  k.Excuses fault ∨ ∃ path w cause, c.words = path ++ .mark .openBracket :: w ∧
    Phrase.indices.Derives path ∧ Phrase.expression.Derives w ∧ k.GoesOn ∧
    fault = .invalidArraySize cause

/-- A size that was read before belongs to the path. -/
theorem SizesCut.index {c c' : Draft} {w : List Token} {fault : ParseFault}
    (hwords : c.words = .mark .openBracket :: (w ++ .mark .closeBracket :: c'.words))
    (hw : Phrase.expression.Derives w) (h : k.SizesCut c' fault) : k.SizesCut c fault := by
  refine h.imp_right ?_
  rintro ⟨path, v, cause, hpath, hsizes, hrest⟩
  refine ⟨.mark .openBracket :: (w ++ .mark .closeBracket :: path), v, cause, ?_, .index hw hsizes,
    hrest⟩
  rw [hwords, hpath]
  simp

/-- A size that was computed names nothing. -/
theorem mentions_of_arraySize {e : Expr} {size : Nat} (h : arraySize e = .ok size) :
    e.mentions = [] :=
  List.map_eq_nil_iff.1 (arraySize_ok h).2

/-- Dimensions, of which a cut may leave too few. -/
theorem dimensions_cuts {m n : Nat} (hmn : m < n) : ∀ {i j : Nat} {d c : Draft}, i < j →
    k.Cut d c → c.tokens.length ≤ m → c.tokens.length ≤ i →
    k.Cuts (k.SizesCut c) (fun _ sizes => sizes = [] → c.tokens = []) (dimensions n j)
      (dimensions m i) d c := by
  intro i
  induction i with
  | zero =>
    intro j d c _ _ _ hi _ _ _
    have hnil := List.length_eq_zero_iff.1 (Nat.le_zero.1 hi)
    exact Comes.pure (Or.inr ⟨hnil, fun _ => hnil⟩)
  | succ i ih =>
    intro j d c hij hcut hm hi
    cases j with
    | zero => omega
    | succ j =>
      rw [dimensions, dimensions]
      refine cuts_eat hcut (fun _ d₁ c₁ hc hcut₁ hlt₁ => ?_) (Cuts.pure hcut)
        fun hnil _ d' _ _ _ => Comes.pure (Or.inr ⟨hnil, fun _ => hnil⟩)
      intro sizes d' hrun
      obtain ⟨e, d₂, hx, hrun⟩ := bind_ok hrun
      have hread :=
        (expression_cuts hmn).cuts d₁ c₁ hcut₁ (hcut.leads hc trivial) (by omega) e d₂ hx
      refine Comes.bind ((hread.and (expression_takes m c₁)).imp (fun _ _ h => h)
        fun _ h => Or.inl h.1) ?_
      rintro e' c₂ ⟨hagrees, -, w, hw, hexpression⟩
      have hwords : c.words = .mark .openBracket :: (w ++ c₂.words) := by rw [hc.words, hw]
      cases hsize : arraySize e with
      | error fault =>
        rw [hsize] at hrun
        cases hrun
      | ok size =>
        rw [hsize] at hrun
        rcases hagrees with ⟨rfl, hcut₂, hle₂⟩ | ⟨hnil₂, hgrows⟩
        · rw [hsize]
          have hafter : k.Cuts (k.SizesCut c) (fun _ sizes => sizes = [] → c.tokens = [])
              (do
                let _ ← expect (.mark .closeBracket)
                return size :: (← dimensions n j))
              (do
                let _ ← expect (.mark .closeBracket)
                return size :: (← dimensions m i)) d₂ c₂ := by
            refine cuts_expect hcut₂ (Or.inl (Or.inl rfl)) fun _ d₃ c₃ hc₃ hcut₃ hlt₃ => ?_
            have hmore := (ih (Nat.lt_of_succ_lt_succ hij) hcut₃ (by omega) (by omega)).imp
              (fun _ _ h => h) fun _ h => h.index (hc₃.words ▸ hwords) hexpression
            exact hmore.bind (fun more d₄ c₄ hcut₄ _ => Cuts.pure hcut₄)
              fun _ _ _ _ hnil _ => Cuts.pureEnd hnil fun h => absurd h (List.cons_ne_nil _ _)
          refine (hafter sizes d' hrun).imp (fun _ _ h => h.mono ?_) fun _ h => h
          omega
        -- a constant names nothing, so it can only have grown because the text goes on
        · have hgoesOn : k.GoesOn := hgrows.resolve_right fun h => h (mentions_of_arraySize hsize)
          split
          · rename_i fault hfault
            obtain ⟨cause, line, rfl⟩ := arraySize_error hfault
            refine Comes.refuse (Or.inr ⟨[], w, cause, ?_, .noIndex, hexpression, hgoesOn, rfl⟩)
            rw [hwords, Draft.words, hnil₂, List.map_nil, List.append_nil]
            rfl
          · exact ended_expect hnil₂ (Or.inl (Or.inl rfl))

/-- The faults of sizes that were cut off, behind the keyword. -/
theorem SizesCut.excuses {d c c' : Draft} {line : Nat} {fault : ParseFault} (hcut : k.Cut d c)
    (hc : c.Drops ⟨.word .array, line⟩ c') (h : k.SizesCut c' fault) : k.Excuses fault := by
  rcases h with h | ⟨path, w, cause, hwords, hsizes, hexpression, ⟨t, more, op, hlost, hop⟩, rfl⟩
  · exact h
  · obtain ⟨before, hkept⟩ := hcut.suffix
    have hall : k.kept.map (·.token)
        = before.map (·.token) ++ .word .array :: (path ++ .mark .openBracket :: w) := by
      rw [← hkept, List.map_append, ← hwords, ← Draft.Drops.words hc]
      rfl
    refine Or.inr ?_
    rw [hall, hlost]
    exact .size hsizes hexpression hop

section

variable {m n : Nat} (hmn : m < n) {d c : Draft}
include hmn

theorem declarator_cuts {line : Nat} (hcut : k.Cut d c) (hm : c.tokens.length ≤ m) :
    k.Cuts k.Excuses Always (declarator n line) (declarator m line) d c := by
  refine cuts_eat hcut (fun _ d₁ c₁ hc hcut₁ hlt₁ => ?_) ?_
    fun hnil _ d' _ _ _ => ended_scalarType hnil (Or.inl rfl)
  · have hsizes := (dimensions_cuts hmn hmn hcut₁ (by omega) (by omega)).imp (fun _ _ h => h)
      fun _ h => SizesCut.excuses hcut hc h
    refine hsizes.bind (fun sizes d₂ c₂ hcut₂ hle₂ => ?_) fun sizes sizes' d₂ c₂ hnil₂ hempty => ?_
    · cases sizes with
      | nil => exact Cuts.peek Cuts.refusedBind
      | cons size more =>
        refine cuts_expect hcut₂ (Or.inl rfl) fun _ d₃ c₃ _ hcut₃ _ => ?_
        refine cuts_scalarType hcut₃ (Or.inl rfl) fun element d₄ c₄ hcut₄ _ => ?_
        refine cuts_identifier hcut₄ (Or.inl rfl) fun name _ d₅ c₅ _ hcut₅ _ => Cuts.pure hcut₅
    · cases sizes' with
      | nil =>
        intro _ _ _
        refine Comes.peek (Comes.refuseBind (Or.inr ?_))
        obtain ⟨before, hkept⟩ := hcut.after hc
        rw [hkept, Draft.words, hempty rfl]
        exact .behindArray
      | cons size more => exact fun _ _ _ => ended_expect hnil₂ (Or.inl rfl)
  · refine cuts_scalarType hcut (Or.inl rfl) fun type d₁ c₁ hcut₁ hlt₁ => ?_
    refine cuts_identifier hcut₁ (Or.inl rfl) fun name _ d₂ c₂ _ hcut₂ hlt₂ => ?_
    refine cuts_eat hcut₂ (fun _ d₃ c₃ hc₃ hcut₃ hlt₃ => ?_) (Cuts.pure hcut₂)
      fun hnil _ _ _ _ _ => Comes.pure (Or.inr ⟨hnil, trivial⟩)
    exact ((expression_cuts hmn).cuts d₃ c₃ hcut₃ (hcut₂.leads hc₃ trivial) (by omega)).bind
      (fun _ _ _ hcut₄ _ => Cuts.pure hcut₄) fun _ _ _ _ hnil _ => Cuts.pureEnd hnil trivial

theorem declaration_cuts (hcut : k.Cut d c) (hm : c.tokens.length ≤ m + 1) :
    k.Shortens (declaration n) (declaration m) d c := by
  refine shortens_expect hcut fun line d₁ c₁ _ hcut₁ hlt₁ => ?_
  refine (declarator_cuts hmn hcut₁ (by omega)).bind (fun found d₂ c₂ hcut₂ _ => ?_)
    fun found found' d₂ c₂ hnil _ _ _ _ => ended_expect hnil (Or.inl rfl)
  refine cuts_expect hcut₂ (Or.inl rfl) fun _ d₃ c₃ _ hcut₃ _ => Cuts.get ?_
  have hdeclared : c₃.declared = d₃.declared := by rw [hcut₃.rest]
  dsimp only
  rw [hcut₃.scope, hdeclared]
  split
  · exact Cuts.refusedBind
  · refine cuts_set ?_ (Nat.le_refl _) allocate_cuts
    exact hcut₃.change rfl rfl (by rw [hcut₃.rest]) (hcut₃.knows.change (.refl _) rfl rfl)

/-! ## Simple statements -/

theorem target_cuts {line : Nat} (hcut : k.Cut d c) (hm : c.tokens.length ≤ m) :
    k.Cuts k.Excuses Always (target n line) (target m line) d c := by
  refine cuts_identifier hcut (Or.inl rfl) fun name _ d₁ c₁ _ hcut₁ hlt₁ => ?_
  refine cuts_resolveWritable hcut₁ fun id => ?_
  exact (indices_cuts (expression_cuts hmn) hmn hcut₁ (by omega) (by omega)).bind
    (fun _ _ _ hcut₂ _ => Cuts.pure hcut₂) fun _ _ _ _ hnil _ => Cuts.pureEnd hnil trivial

theorem assignment_cuts (hcut : k.Cut d c) (hm : c.tokens.length ≤ m + 1) :
    k.Shortens (assignment n) (assignment m) d c := by
  refine shortens_expect hcut fun line d₁ c₁ _ hcut₁ hlt₁ => ?_
  refine (target_cuts hmn hcut₁ (by omega)).bind (fun found d₂ c₂ hcut₂ hle₂ => ?_)
    fun _ _ _ _ hnil _ _ _ _ => ended_expect hnil (Or.inl rfl)
  refine cuts_expect hcut₂ (Or.inl rfl) fun _ d₃ c₃ hc₃ hcut₃ hlt₃ => ?_
  refine ((expression_cuts hmn).cuts d₃ c₃ hcut₃ (hcut₂.leads hc₃ trivial) (by omega)).bind
    (fun value d₄ c₄ hcut₄ _ => ?_) fun _ _ _ _ hnil _ _ _ _ => ended_expect hnil (Or.inl rfl)
  exact cuts_expect hcut₄ (Or.inl rfl) fun _ d₅ c₅ _ hcut₅ _ => allocate_cuts hcut₅

theorem callStatement_cuts (hcut : k.Cut d c) (hm : c.tokens.length ≤ m + 1) :
    k.Shortens (callStatement n) (callStatement m) d c := by
  refine shortens_expect hcut fun line d₁ c₁ _ hcut₁ hlt₁ => ?_
  refine cuts_identifier hcut₁ (Or.inl rfl) fun name _ d₂ c₂ hc₂ hcut₂ hlt₂ => ?_
  refine (arguments_cuts (expression_cuts hmn) hmn hcut₂ (hcut₁.after hc₂) (by omega)).firm
    fun found d₃ c₃ hcut₃ _ => ?_
  exact cuts_expect hcut₃ (Or.inl rfl) fun _ d₄ c₄ _ hcut₄ _ => allocate_cuts hcut₄

theorem inputStatement_cuts (hcut : k.Cut d c) (hm : c.tokens.length ≤ m + 1) :
    k.Shortens (inputStatement n) (inputStatement m) d c := by
  refine shortens_expect hcut fun line d₁ c₁ _ hcut₁ hlt₁ => ?_
  refine (target_cuts hmn hcut₁ (by omega)).bind (fun found d₂ c₂ hcut₂ hle₂ => ?_)
    fun _ _ _ _ hnil _ _ _ _ => ended_expect hnil (Or.inl rfl)
  exact cuts_expect hcut₂ (Or.inl rfl) fun _ d₃ c₃ _ hcut₃ _ => allocate_cuts hcut₃

theorem outputStatement_cuts (hcut : k.Cut d c) (hm : c.tokens.length ≤ m + 1) :
    k.Shortens (outputStatement n) (outputStatement m) d c := by
  refine shortens_expect hcut fun line d₁ c₁ hc hcut₁ hlt₁ => ?_
  refine ((expression_cuts hmn).cuts d₁ c₁ hcut₁ (hcut.leads hc trivial) (by omega)).bind
    (fun value d₂ c₂ hcut₂ _ => ?_) fun _ _ _ _ hnil _ _ _ _ => ended_expect hnil (Or.inl rfl)
  exact cuts_expect hcut₂ (Or.inl rfl) fun _ d₃ c₃ _ hcut₃ _ => allocate_cuts hcut₃

omit hmn in
/-- The semicolon at the end of a return, and the node. -/
theorem result_cuts (value : Option Expr) (line : Nat) (hcut : k.Cut d c) :
    k.Cuts k.Excuses Never
      (do
        let _ ← expect (.mark .semicolon)
        allocate (.result value) line)
      (do
        let _ ← expect (.mark .semicolon)
        allocate (.result value) line) d c :=
  cuts_expect hcut (Or.inl rfl) fun _ _ _ _ hcut' _ => allocate_cuts hcut'

/-- A return, which a cut may turn into one with a value. -/
theorem returnStatement_cuts (hcut : k.Cut d c) (hm : c.tokens.length ≤ m + 1) :
    k.Shortens (returnStatement n) (returnStatement m) d c := by
  refine shortens_expect hcut fun line d₁ c₁ hc hcut₁ hlt₁ => Cuts.get ?_
  rw [hcut₁.enclosing?]
  cases d₁.enclosing? with
  | none => exact Cuts.refused
  | some heading =>
    refine Cuts.peek ?_
    dsimp only
    by_cases hnil : c₁.tokens = []
    · obtain ⟨hd₁, hc₁⟩ := hcut₁.head_of_nil hnil
      rw [hd₁, hc₁]
      cases heading.result with
      | some type =>
        -- the shorter run looks for a value
        have hends : Comes (some <$> expression m) c₁ (fun _ _ => False) k.Excuses :=
          Comes.map ((ended_layered hnil Layer.all fun _ _ => False).imp (fun _ _ h => h)
            fun _ => Or.inl)
        exact fun _ _ _ => Comes.bind hends fun _ _ h => h.elim
      | none =>
        by_cases hbare : (k.lost.map (·.token)).head? = some (.mark .semicolon)
        · intro _ _ _
          refine Comes.refuseBind (Or.inr ?_)
          obtain ⟨before, hkept⟩ := hcut.after hc
          obtain ⟨more, hlost⟩ := List.head?_eq_some_iff.1 hbare
          rw [hkept, Draft.words, hnil, hlost]
          exact .behindReturn
        · rw [decide_eq_false hbare]
          exact Cuts.refusedBind
    · rw [hcut₁.head hnil]
      cases heading.result with
      | some type =>
        cases decide (c₁.words.head? = some (.mark .semicolon)) with
        | false =>
          dsimp only
          simp only [bind_map_left]
          exact ((expression_cuts hmn).cuts d₁ c₁ hcut₁ (hcut.leads hc trivial) (by omega)).bind
            (fun value d₂ c₂ hcut₂ _ => result_cuts _ line hcut₂)
            fun _ _ _ _ hnil _ _ _ _ => ended_expect hnil (Or.inl rfl)
        | true => exact Cuts.refusedBind
      | none =>
        cases decide (c₁.words.head? = some (.mark .semicolon)) with
        | false => exact Cuts.refusedBind
        | true => exact result_cuts none line hcut₁

end

/-! ## Blocks -/

section

variable {β : Type} {d c : Draft} {f g : Unit → Parse β} {B : β → β → Prop}

theorem blockEnd_cuts {w : Keyword} (hcut : k.Cut d c) :
    k.Cuts k.Excuses Never (blockEnd w) (blockEnd w) d c := by
  refine cuts_expect hcut (Or.inl rfl) fun _ d₁ c₁ _ hcut₁ _ => ?_
  refine cuts_advance hcut₁ (Or.inl rfl) fun l d₂ c₂ _ _ hcut₂ _ => ?_
  by_cases hl : l.token = .word w
  · rw [if_pos hl]
    exact cuts_expect hcut₂ (Or.inl rfl) fun _ d₃ c₃ _ hcut₃ _ => Cuts.pure hcut₃
  · rw [if_neg hl]
    exact Cuts.refused

theorem namedEnd_cuts {name : String} (hcut : k.Cut d c) :
    k.Cuts k.Excuses Never (namedEnd name) (namedEnd name) d c := by
  refine cuts_expect hcut (Or.inl rfl) fun _ d₁ c₁ _ hcut₁ _ => ?_
  refine cuts_identifier hcut₁ (Or.inl rfl) fun found _ d₂ c₂ _ hcut₂ _ => ?_
  by_cases hfound : found = name
  · rw [if_pos hfound]
    exact Cuts.pure hcut₂
  · rw [if_neg hfound]
    exact Cuts.refused

end

/-- A condition between two keywords, in front of what is read behind it. -/
theorem condition_cuts {m n : Nat} (hmn : m < n) {d c : Draft} {t : Token}
    {f g : Expr → Parse β} {B : β → β → Prop} (hcut : k.Cut d c)
    (hleads : k.Leads c) (hm : c.tokens.length ≤ m)
    (h : ∀ condition d' c', k.Cut d' c' → c'.tokens.length < c.tokens.length →
      k.Cuts k.Excuses B (f condition) (g condition) d' c') :
    k.Cuts k.Excuses B
      (do
        let condition ← expression n
        let _ ← expect t
        f condition)
      (do
        let condition ← expression m
        let _ ← expect t
        g condition) d c := by
  refine ((expression_cuts hmn).cuts d c hcut hleads hm).bind (fun condition d₁ c₁ hcut₁ hle₁ => ?_)
    fun _ _ _ _ hnil _ _ _ _ => ended_expect hnil (Or.inl rfl)
  exact cuts_expect hcut₁ (Or.inl rfl) fun _ d₂ c₂ _ hcut₂ hlt₂ =>
    h condition d₂ c₂ hcut₂ (Nat.lt_of_lt_of_le hlt₂ hle₁)

/-- Two readers of bodies, the second with steps for a text of `m` tokens. -/
def CutsBody (k : Cutting) (m : Nat) (x y : Body) : Prop :=
  ∀ (keywords : List Keyword) (d c : Draft), k.Cut d c → c.tokens.length ≤ m →
    k.Cuts k.Excuses Never (x keywords) (y keywords) d c

theorem CutsBody.inBlock {m : Nat} {x y : Body} (hbody : k.deeper.CutsBody m x y)
    {keywords : List Keyword} {node : NodeId} {scope : String} {d c : Draft} (hcut : k.Cut d c)
    (hopens : k.MayOpen d node) (hm : c.tokens.length ≤ m) :
    k.Cuts k.Excuses Never (inBlock node scope (x keywords)) (inBlock node scope (y keywords))
      d c :=
  inBlock_cuts hcut hopens fun hcut' => hbody keywords _ _ hcut' hm

section

variable {m n : Nat} (hmn : m < n) {x y : Body} (hbody : k.deeper.CutsBody m x y) {d c : Draft}
include hmn hbody

theorem loop_cuts (hcut : k.Cut d c) (hm : c.tokens.length ≤ m + 1) :
    k.Shortens (loop x n) (loop y m) d c := by
  refine shortens_expect hcut fun line d₁ c₁ hc hcut₁ hlt₁ => ?_
  refine condition_cuts hmn hcut₁ (hcut.leads hc trivial) (by omega)
    fun condition d₂ c₂ hcut₂ hlt₂ => ?_
  refine (blockScope_cuts hcut₂).firm fun scope d₃ c₃ hcut₃ hle₃ => ?_
  refine cuts_allocate hcut₃ fun node d₄ c₄ hcut₄ hle₄ hopens => ?_
  refine (hbody.inBlock hcut₄ (hopens (headless rfl)) (by omega)).firm fun _ d₅ c₅ hcut₅ _ => ?_
  exact (blockEnd_cuts hcut₅).firm fun _ d₆ c₆ hcut₆ _ => Cuts.pure hcut₆

/-- Branches: at the end of the text, there are no more. -/
theorem elseIfs_cuts {conditional : NodeId} : ∀ {i j : Nat} {d c : Draft}, i < j → k.Cut d c →
    c.tokens.length ≤ m → c.tokens.length ≤ i →
    k.Cuts k.Excuses Always (elseIfs x n conditional j) (elseIfs y m conditional i) d c := by
  intro i
  induction i with
  | zero =>
    intro j d c _ _ _ hi _ _ _
    exact Comes.pure (Or.inr ⟨List.length_eq_zero_iff.1 (Nat.le_zero.1 hi), trivial⟩)
  | succ i ih =>
    intro j d c hij hcut hm hi
    cases j with
    | zero => omega
    | succ j =>
      rw [elseIfs, elseIfs]
      refine Cuts.peek ?_
      by_cases hnil : c.tokens = []
      · rw [(hcut.head_of_nil hnil).2]
        exact fun _ _ _ => Comes.pure (Or.inr ⟨hnil, trivial⟩)
      · rw [hcut.head hnil]
        by_cases hnext : c.words.head? = some (.word .elseif)
        · rw [if_pos hnext, if_pos hnext]
          refine cuts_expect hcut (Or.inl rfl) fun line d₁ c₁ hc hcut₁ hlt₁ => ?_
          refine condition_cuts hmn hcut₁ (hcut.leads hc trivial) (by omega)
            fun condition d₂ c₂ hcut₂ hlt₂ => ?_
          -- The branch is allocated before its body is read, in both drafts at the same id.
          refine (blockScope_cuts hcut₂).firm fun scope d₃ c₃ hcut₃ hle₃ => ?_
          refine cuts_allocate hcut₃ fun branch d₄ c₄ hcut₄ hle₄ hopens => ?_
          refine cuts_place hcut₄ (hopens (headless rfl))
            (fun _ _ h => (Tree.keeps_attachBranch h).1) fun d₅ c₅ hcut₅ hle₅ hopens₅ => ?_
          refine (hbody.inBlock hcut₅ hopens₅ (by omega)).firm fun _ d₆ c₆ hcut₆ hle₆ => ?_
          exact ih (Nat.lt_of_succ_lt_succ hij) hcut₆ (by omega) (by omega)
        · rw [if_neg hnext, if_neg hnext]
          exact Cuts.pure hcut

omit hmn in
theorem otherwise_cuts {conditional : NodeId} (hcut : k.Cut d c) (hm : c.tokens.length ≤ m) :
    k.Cuts k.Excuses Always (otherwise x conditional) (otherwise y conditional) d c := by
  refine Cuts.peek ?_
  by_cases hnil : c.tokens = []
  · rw [(hcut.head_of_nil hnil).2]
    exact fun _ _ _ => Comes.pure (Or.inr ⟨hnil, trivial⟩)
  · rw [hcut.head hnil]
    by_cases hnext : c.words.head? = some (.word .else)
    · rw [if_pos hnext, if_pos hnext]
      refine cuts_expect hcut (Or.inl rfl) fun line d₁ c₁ _ hcut₁ hlt₁ => ?_
      refine (blockScope_cuts hcut₁).firm fun scope d₂ c₂ hcut₂ hle₂ => ?_
      refine cuts_allocate hcut₂ fun branch d₃ c₃ hcut₃ hle₃ hopens => ?_
      refine cuts_place hcut₃ (hopens (headless rfl)) (fun _ _ h => (Tree.keeps_attachBranch h).1)
        fun d₄ c₄ hcut₄ hle₄ hopens₄ => ?_
      exact (hbody.inBlock hcut₄ hopens₄ (by omega)).imp (fun _ _ h => h.elim) fun _ h => h
    · rw [if_neg hnext, if_neg hnext]
      exact Cuts.pure hcut

omit hmn hbody in
theorem ended_blockEnd {β : Type} {w : Keyword} {f : Unit → Parse β} {Q : β → Draft → Prop}
    (hnil : c.tokens = []) : Comes (blockEnd w >>= f) c Q k.Excuses :=
  Comes.bind (P := fun _ _ => False) (ended_expect hnil (Or.inl rfl)) fun _ _ h => h.elim

omit hmn hbody in
theorem ended_otherwise {conditional : NodeId} {Q : Unit → Draft → Prop} (hnil : c.tokens = [])
    (h : Q () c) : Comes (otherwise y conditional) c Q k.Excuses := by
  refine Comes.peek ?_
  rw [Draft.words, hnil]
  exact Comes.pure h

theorem conditional_cuts (hcut : k.Cut d c) (hm : c.tokens.length ≤ m + 1) :
    k.Shortens (conditional x n) (conditional y m) d c := by
  refine shortens_expect hcut fun line d₁ c₁ hc hcut₁ hlt₁ => ?_
  refine condition_cuts hmn hcut₁ (hcut.leads hc trivial) (by omega)
    fun condition d₂ c₂ hcut₂ hlt₂ => ?_
  refine (blockScope_cuts hcut₂).firm fun scope d₃ c₃ hcut₃ hle₃ => ?_
  refine cuts_allocate hcut₃ fun node d₄ c₄ hcut₄ hle₄ hopens => ?_
  refine (hbody.inBlock hcut₄ (hopens (headless rfl)) (by omega)).firm fun _ d₅ c₅ hcut₅ hle₅ => ?_
  refine (elseIfs_cuts hmn hbody hmn hcut₅ (by omega) (by omega)).bind
    (fun _ d₆ c₆ hcut₆ hle₆ => ?_) fun _ _ d₆ c₆ hnil _ _ _ _ => ?_
  · refine (otherwise_cuts hbody hcut₆ (by omega)).bind (fun _ d₇ c₇ hcut₇ _ => ?_)
      fun _ _ _ _ hnil _ _ _ _ => ended_blockEnd hnil
    exact (blockEnd_cuts hcut₇).firm fun _ d₈ c₈ hcut₈ _ => Cuts.pure hcut₈
  · refine Comes.bind (ended_otherwise hnil (Q := fun _ c' => c'.tokens = []) hnil) ?_
    exact fun _ _ hnil' => ended_blockEnd hnil'

end

/-! ## Routines -/

/-- The whole text defines the routines that are defined at this point. -/
def Defines (k : Cutting) (d : Draft) : Prop :=
  ∀ name r, d.routines.get? name = some r → k.routines.get? name = some r

/-- A routine that was read is defined behind it. -/
theorem routineBody_defines {body : Body} {heading : Heading} {line : Nat} {d d' : Draft} {u : Unit}
    (h : (routineBody body heading line).run d = .ok u d') :
    ∃ node, d'.routines.get? heading.name = some ⟨node, heading⟩ := by
  obtain ⟨node, d₁, -, h⟩ := bind_ok h
  obtain ⟨_, d₂, -, h⟩ := bind_ok h
  obtain ⟨_, d₃, -, h⟩ := bind_ok h
  obtain ⟨_, d₄, -, h⟩ := bind_ok h
  obtain ⟨_, _, hg, h⟩ := bind_ok h
  obtain ⟨rfl, rfl⟩ := get_ok hg
  dsimp only at h
  split at h
  · obtain ⟨_, _, hr, _⟩ := bind_ok h
    exact (refuse_ok hr).elim
  · rename_i hdefined
    obtain ⟨_, d₅, hset, h⟩ := bind_ok h
    obtain rfl := set_ok hset
    obtain rfl := attach_ok h
    obtain ⟨-, rfl⟩ := define_ok hdefined
    exact ⟨node, by rw [Draft.routines_attached]; exact Table.get?_insert_self ..⟩

/-- A routine is refused where more than one block is open. -/
theorem routineHeading_level {bound : Nat} {d d' : Draft} {a : Heading × Nat}
    (h : (routineHeading bound).run d = .ok a d') : d.blocks.length = 1 := by
  obtain ⟨keyword, d₁, hk, h⟩ := bind_ok h
  obtain ⟨v, d₂, hv, h⟩ := bind_ok h
  obtain ⟨name, d₃, hn, h⟩ := bind_ok h
  obtain ⟨_, _, hg, h⟩ := bind_ok h
  obtain ⟨rfl, rfl⟩ := get_ok hg
  have hskips := ((advance_ok hk).toSkips.trans (visibility_ok hv).toSkips).trans
    (identifier_ok hn).1.toSkips
  rw [← hskips.blocks]
  dsimp only at h
  split at h
  · obtain ⟨_, _, hr, _⟩ := bind_ok h
    exact (refuse_ok hr).elim
  · exact Decidable.of_not_not ‹_›

theorem parameter_cuts {d c : Draft} (hcut : k.Cut d c) :
    k.Cuts k.Excuses Always parameter parameter d c := by
  refine cuts_advance hcut (Or.inl rfl) fun l d₁ c₁ _ _ hcut₁ _ => ?_
  have hrest : ∀ mode : PassMode, k.Cuts k.Excuses Always
      (do
        let type ← scalarType
        let name ← identifier
        return ({ mode, type, name } : Parameter))
      (do
        let type ← scalarType
        let name ← identifier
        return ({ mode, type, name } : Parameter)) d₁ c₁ := by
    intro mode
    refine cuts_scalarType hcut₁ (Or.inl rfl) fun type d₂ c₂ hcut₂ _ => ?_
    exact cuts_identifier hcut₂ (Or.inl rfl) fun name _ d₃ c₃ _ hcut₃ _ => Cuts.pure hcut₃
  split
  · exact hrest .byValue
  · exact hrest .byReference
  · exact Cuts.refusedBind

theorem visibility_cuts {d c : Draft} (hcut : k.Cut d c) :
    k.Cuts k.Excuses Never visibility visibility d c := by
  refine cuts_advance hcut (Or.inl rfl) fun l d₁ c₁ _ _ hcut₁ _ => ?_
  split
  · exact Cuts.pure hcut₁
  · exact Cuts.pure hcut₁
  · exact Cuts.refused

section

variable {m n : Nat} (hmn : m < n) {x y : Body} (hbody : k.deeper.CutsBody m x y) {d c : Draft}
include hmn hbody

omit hmn in
/-- Behind the heading of a routine that the whole text defines. -/
theorem routineBody_cuts {heading : Heading} {line : Nat}
    (hnames : k.Names heading.name heading) (hcut : k.Cut d c) (hm : c.tokens.length ≤ m) :
    k.Cuts k.Excuses Never (routineBody x heading line) (routineBody y heading line) d c := by
  refine cuts_allocate hcut fun node d₁ c₁ hcut₁ hle₁ hopens => ?_
  have hmay : k.MayOpen d₁ node := hopens fun _ h => Option.some.inj h ▸ hnames
  refine (hbody.inBlock hcut₁ hmay (by omega)).firm fun _ d₂ c₂ hcut₂ hle₂ => ?_
  refine (namedEnd_cuts hcut₂).firm fun _ d₃ c₃ hcut₃ hle₃ => ?_
  refine cuts_expect hcut₃ (Or.inl rfl) fun _ d₄ c₄ _ hcut₄ hlt₄ => Cuts.get ?_
  have hroutines : c₄.routines = d₄.routines := by rw [hcut₄.rest]
  dsimp only
  rw [hroutines]
  split
  · exact Cuts.refusedBind
  · rename_i routines hdefined
    refine cuts_set ?_ (Nat.le_refl _) cuts_attach
    refine hcut₄.change rfl rfl (by rw [hcut₄.rest]) ⟨hcut₄.knows.deep, hcut₄.knows.opened, ?_⟩
    obtain ⟨-, rfl⟩ := define_ok hdefined
    intro name r hr
    by_cases hname : name = heading.name
    · subst hname
      rw [Table.get?_insert_self] at hr
      cases hr
      exact hnames
    · rw [Table.get?_insert_of_ne _ hname] at hr
      exact hcut₄.knows.defined name r hr

omit hbody in
theorem routineHeading_cuts (hcut : k.Cut d c) (hm : c.tokens.length ≤ m + 1) :
    k.Shortens (routineHeading n) (routineHeading m) d c := by
  refine shortens_advance hcut fun keyword d₁ c₁ _ _ hcut₁ hlt₁ => ?_
  refine (visibility_cuts hcut₁).firm fun v d₂ c₂ hcut₂ hle₂ => ?_
  refine cuts_identifier hcut₂ (Or.inl rfl) fun name _ d₃ c₃ _ hcut₃ hlt₃ => Cuts.get ?_
  rw [hcut₃.blocks]
  dsimp only
  -- Both drafts have the same blocks, so both refuse a nested routine.
  by_cases hlevel : d₃.blocks.length ≠ 1
  · rw [if_pos hlevel]
    exact Cuts.refusedBind
  rw [if_neg hlevel, if_neg hlevel]
  refine cuts_expect hcut₃ (Or.inl rfl) fun _ d₄ c₄ _ hcut₄ hlt₄ => ?_
  have hlist : k.Cuts k.Excuses Never
      (commaSeparated (fun _ => parameter) .closeParen n)
      (commaSeparated (fun _ => parameter) .closeParen m) d₄ c₄ := by
    intro found d' hrun
    have hle : c₄.tokens.length ≤ m := by omega
    exact commaSeparated_cuts (P := fun _ _ => True) (fun _ _ _ hcut _ _ => parameter_cuts hcut)
      (fun _ _ _ => Comes.always fun _ _ _ _ _ => trivial)
      (fun _ _ _ hnil => ended_advance hnil rfl) hmn hcut₄ trivial hle hle hrun
  refine hlist.firm fun parameters d₅ c₅ hcut₅ hle₅ => ?_
  cases firstRepeated? [] (parameters.map (·.name)) with
  | some repeated => exact Cuts.refusedBind
  | none =>
    dsimp only
    by_cases hfunction : keyword.token = .word .function
    · rw [if_pos hfunction]
      simp only [bind_map_left]
      refine cuts_expect hcut₅ (Or.inl rfl) fun _ d₆ c₆ _ hcut₆ hlt₆ => ?_
      refine cuts_scalarType hcut₆ (Or.inl rfl) fun type d₇ c₇ hcut₇ hlt₇ => ?_
      refine Cuts.get ?_
      rw [hcut₇.scope]
      exact Cuts.pure hcut₇
    · rw [if_neg hfunction, pure_bind]
      refine Cuts.get ?_
      rw [hcut₅.scope]
      exact Cuts.pure hcut₅

/-- A routine of the whole text: it is one of those that are defined behind it. -/
theorem routine_cuts {d' : Draft} {u : Unit} (hcut : k.Cut d c) (hm : c.tokens.length ≤ m + 1)
    (hrun : (routine x n).run d = .ok u d') (hdefined : k.Defines d') :
    Comes (routine y m) c (fun _ c' => k.Cut d' c' ∧ c'.tokens.length < c.tokens.length)
      k.Excuses := by
  rw [routine_eq] at hrun ⊢
  obtain ⟨⟨heading, line⟩, d₁, hheading, hrun⟩ := bind_ok hrun
  obtain ⟨node, hnode⟩ := routineBody_defines hrun
  have hnames : k.Names heading.name heading := ⟨rfl, _, hdefined _ _ hnode, rfl⟩
  refine Comes.bind (routineHeading_cuts hmn hcut hm _ d₁ hheading) ?_
  rintro _ c₁ ⟨rfl, hcut₁, hlt₁⟩
  refine (routineBody_cuts hbody hnames hcut₁ (by omega) u d' hrun).imp ?_ fun _ h => h
  rintro _ c' (⟨-, hcut', hle⟩ | ⟨-, h⟩)
  · exact ⟨hcut', Nat.lt_of_le_of_lt hle hlt₁⟩
  · exact h.elim

end

/-! ## Bodies -/

/-- A statement that is put into its block. -/
theorem attach_cuts {x y : Parse NodeId} {d c : Draft} (h : k.Shortens x y d c) :
    k.Shortens (do attach (← x)) (do attach (← y)) d c := by
  intro u d' hrun
  obtain ⟨node, d₁, hstatement, hrun⟩ := bind_ok hrun
  refine Comes.bind (h node d₁ hstatement) ?_
  rintro _ c₁ ⟨rfl, hcut₁, hlt₁⟩
  refine (cuts_attach (E := k.Excuses) hcut₁ u d' hrun).imp ?_ fun _ h => h
  rintro u' c' (⟨heq, hcut', hle⟩ | ⟨-, h⟩)
  · exact ⟨heq, hcut', Nat.lt_of_le_of_lt hle hlt₁⟩
  · exact h.elim

section

variable {m n : Nat} (hmn : m < n) {x y : Body} (hbody : k.deeper.CutsBody m x y) {d c : Draft}
include hmn hbody

/-- An item of a block of any kind. -/
theorem item_cuts {next : Token} (hdeep : 2 ≤ k.depth) (hcut : k.Cut d c)
    (hm : c.tokens.length ≤ m + 1) :
    k.Shortens (item x n next) (item y m next) d c := by
  have hunexpected : ∀ {y : Parse Unit}, k.Shortens (item.unexpected next) y d c := by
    intro y u d' hrun
    obtain ⟨_, _, _, hrun⟩ := bind_ok hrun
    exact (refuse_ok hrun).elim
  have hroutine : k.Shortens (routine x n) (routine y m) d c := by
    intro u d' hrun
    rw [routine_eq] at hrun
    obtain ⟨_, d₁, hheading, -⟩ := bind_ok hrun
    have hlevel := routineHeading_level hheading
    have hopen := hcut.knows.deep
    omega
  cases next with
  | word w =>
    cases w with
    | function => exact hroutine
    | procedure => exact hroutine
    | «variable» => exact attach_cuts (declaration_cuts hmn hcut hm)
    | «let» => exact attach_cuts (assignment_cuts hmn hcut hm)
    | «if» => exact attach_cuts (conditional_cuts hmn hbody hcut hm)
    | «while» => exact attach_cuts (loop_cuts hmn hbody hcut hm)
    | call => exact attach_cuts (callStatement_cuts hmn hcut hm)
    | input => exact attach_cuts (inputStatement_cuts hmn hcut hm)
    | output => exact attach_cuts (outputStatement_cuts hmn hcut hm)
    | «return» => exact attach_cuts (returnStatement_cuts hmn hcut hm)
    | _ => exact hunexpected
  | _ => exact hunexpected

end

theorem block_cuts : ∀ {i j : Nat} {k : Cutting}, 2 ≤ k.depth → i < j →
    k.CutsBody i (block j) (block i) := by
  intro i
  induction i with
  | zero => exact fun _ _ _ _ _ _ _ _ _ _ => Comes.endOfText (Or.inl rfl)
  | succ i ih =>
    intro j k hdeep hij keywords d c hcut hm
    cases j with
    | zero => omega
    | succ j =>
      have hij' : i < j := Nat.lt_of_succ_lt_succ hij
      rw [block, block]
      refine Cuts.peek ?_
      by_cases hnil : c.tokens = []
      · rw [(hcut.head_of_nil hnil).2]
        exact fun _ _ _ => Comes.endOfText (Or.inl rfl)
      · rw [hcut.head hnil]
        cases c.words.head? with
        | none => exact fun _ _ hrun => (endOfText_ok hrun).elim
        | some next =>
          dsimp only
          -- The block ends at a keyword in both texts, or both read one more item.
          by_cases hends : isOneOf next keywords = true
          · rw [if_pos hends, if_pos hends]
            exact Cuts.pure hcut
          · rw [if_neg hends, if_neg hends]
            intro u d' hrun
            obtain ⟨u₁, d₁, hitem, hrun⟩ := bind_ok hrun
            refine Comes.bind
              (item_cuts hij' (ih (Nat.le_succ_of_le hdeep) hij') hdeep hcut hm u₁ d₁ hitem) ?_
            rintro _ c₁ ⟨-, hcut₁, hlt₁⟩
            exact (ih hdeep hij' keywords d₁ c₁ hcut₁ (by omega) u d' hrun).imp
              (fun _ _ h => h.mono (Nat.le_of_lt hlt₁)) fun _ h => h

/-! ## Programs -/

/-- What is defined stays defined while the items of a unit are read. -/
theorem Defines.unitItems {bound : Nat} {d d' : Draft} {u : Unit} (h : k.Defines d')
    (hrun : (Grammar.unitItems bound).run d = .ok u d') : k.Defines d := by
  obtain ⟨f, hreads⟩ := unitItems_reads bound hrun
  exact fun name r hr => h name r (hreads.routines_kept hr)

/-- The items of the unit, with the routines that they define. -/
theorem unitItems_cuts (hopen : 1 ≤ k.depth) : ∀ {i j : Nat} {d c d' : Draft} {u : Unit}, i < j →
    k.Cut d c → c.tokens.length ≤ i → (unitItems j).run d = .ok u d' → k.Defines d' →
    Comes (unitItems i) c (fun _ c' => k.Cut d' c' ∧ c'.tokens.length ≤ c.tokens.length)
      k.Excuses := by
  intro i
  induction i with
  | zero => exact fun _ _ _ _ _ => Comes.endOfText (Or.inl rfl)
  | succ i ih =>
    intro j d c d' u hij hcut hm hrun hdefines
    cases j with
    | zero => omega
    | succ j =>
      have hij' : i < j := Nat.lt_of_succ_lt_succ hij
      -- an item, in front of the others
      have hafter : ∀ {x y : Parse Unit}, (do x; unitItems j : Parse Unit).run d = .ok u d' →
          (∀ u₁ d₁, x.run d = .ok u₁ d₁ → k.Defines d₁ → Comes y c
            (fun _ c' => k.Cut d₁ c' ∧ c'.tokens.length < c.tokens.length) k.Excuses) →
          Comes (do y; unitItems i) c
            (fun _ c' => k.Cut d' c' ∧ c'.tokens.length ≤ c.tokens.length) k.Excuses := by
        intro x y hrun h
        obtain ⟨u₁, d₁, hfirst, hrun⟩ := bind_ok hrun
        refine Comes.bind (h u₁ d₁ hfirst (hdefines.unitItems hrun)) ?_
        rintro _ c₁ ⟨hcut₁, hlt₁⟩
        exact (ih hij' hcut₁ (by omega) hrun hdefines).imp
          (fun _ _ h => ⟨h.1, Nat.le_trans h.2 (Nat.le_of_lt hlt₁)⟩) fun _ h => h
      have hroutine : ∀ u₁ d₁, (routine (block j) j).run d = .ok u₁ d₁ → k.Defines d₁ →
          Comes (routine (block i) i) c
            (fun _ c' => k.Cut d₁ c' ∧ c'.tokens.length < c.tokens.length) k.Excuses :=
        fun _ _ h hd => routine_cuts hij' (block_cuts (Nat.succ_le_succ hopen) hij') hcut hm h hd
      rw [unitItems] at hrun ⊢
      obtain ⟨next, _, hpeeked, hrun⟩ := bind_ok hrun
      obtain ⟨rfl, hpeek⟩ := peek_ok hpeeked
      refine Comes.peek ?_
      by_cases hnil : c.tokens = []
      · rw [(hcut.head_of_nil hnil).2]
        exact Comes.endOfText (Or.inl rfl)
      rw [← hcut.head hnil, Draft.words, List.head?_map, hpeek]
      split at hrun
      · exact (endOfText_ok hrun).elim
      · obtain ⟨-, rfl⟩ := pure_ok hrun
        exact Comes.pure ⟨hcut, Nat.le_refl _⟩
      · have hdeclaration : k.Shortens (do attach (← declaration j)) (do attach (← declaration i))
            d c := attach_cuts (declaration_cuts hij' hcut hm)
        have hitem := hafter (x := do attach (← declaration j)) (y := do attach (← declaration i))
          (by simpa only [bind_assoc] using hrun) fun u₁ d₁ h _ =>
            (hdeclaration u₁ d₁ h).imp (fun _ _ h => h.2) fun _ h => h
        simpa only [bind_assoc] using hitem
      · exact hafter hrun hroutine
      · exact hafter hrun hroutine
      · obtain ⟨_, _, _, hrun⟩ := bind_ok hrun
        exact (refuse_ok hrun).elim

theorem entryBlock_cuts {i j : Nat} (hij : i < j) (hopen : 1 ≤ k.depth) {name : String}
    {d c : Draft} (hcut : k.Cut d c) (hm : c.tokens.length ≤ i) :
    k.Cuts k.Excuses Never (entryBlock j name) (entryBlock i name) d c := by
  refine cuts_expect hcut (Or.inl rfl) fun line d₁ c₁ _ hcut₁ hlt₁ => ?_
  refine cuts_allocate hcut₁ fun node d₂ c₂ hcut₂ hle₂ hopens => ?_
  refine cuts_place hcut₂ (hopens (headless rfl)) (fun _ _ h => (Tree.keeps_setEntry h).1)
    fun d₃ c₃ hcut₃ hle₃ hopens₃ => ?_
  exact (block_cuts (Nat.succ_le_succ hopen) hij).inBlock hcut₃ hopens₃ (by omega)

/-- The entry block defines no routine. -/
theorem Defines.entryBlock {bound : Nat} {name : String} {d d' : Draft} {u : Unit}
    (h : k.Defines d') (hdeep : 1 ≤ d.blocks.length)
    (hrun : (Grammar.entryBlock bound name).run d = .ok u d') : k.Defines d := by
  obtain ⟨line, d₁, hl, hrun⟩ := bind_ok hrun
  have htaken := expect_ok hl rfl
  obtain ⟨node, d₂, ha, hrun⟩ := bind_ok hrun
  obtain ⟨rfl, rfl⟩ := allocate_ok ha
  obtain ⟨_, d₃, hplace, hrun⟩ := bind_ok hrun
  obtain ⟨tree, htree, rfl⟩ := place_ok hplace
  obtain ⟨d₄, hinside, rfl⟩ := inBlock_ok hrun
  have hblocks : d₁.blocks = d.blocks := htaken.toSkips.blocks
  obtain ⟨f, hreads⟩ := block_reads bound hinside (Nat.succ_le_succ (hblocks ▸ hdeep))
  intro name r hr
  rw [← htaken.toSkips.routines] at hr
  exact h name r (hreads.routines_kept hr)

/-- What stands between the first line of a unit and its end. -/
def unitInside (bound : Nat) (name : String) : Parse Unit := do
  unitItems bound
  entryBlock bound name
  namedEnd name
  let _ ← expect (.mark .dot)

/-- The first line of a unit, and its node. -/
def unitHead : Parse (NodeId × String) := do
  let line ← expect (.word .module)
  let name ← identifier
  let _ ← expect (.mark .semicolon)
  let root ← allocate (.unit name name none) line
  place (·.setRoot root) line
  return (root, name)

/-- A unit is its first line, what is inside, and nothing behind. -/
theorem unit_eq (bound : Nat) :
    unit bound = (do
      let (root, name) ← unitHead
      inBlock root name (unitInside bound name)
      atEnd root) := by
  unfold unit unitHead unitInside
  simp only [bind_assoc, pure_bind]
  rfl

theorem unitInside_cuts {i j : Nat} (hij : i < j) (hopen : 1 ≤ k.depth) {name : String}
    {d c d' : Draft} {u : Unit} (hcut : k.Cut d c) (hm : c.tokens.length ≤ i)
    (hrun : (unitInside j name).run d = .ok u d') (hdefines : k.Defines d') :
    Comes (unitInside i name) c (fun _ c' => k.Cut d' c' ∧ c'.tokens.length ≤ c.tokens.length)
      k.Excuses := by
  obtain ⟨_, d₁, hitems, hrun⟩ := bind_ok hrun
  -- The entry defines no routine: those of the whole program are known behind the items.
  have hafter : k.Defines d₁ := by
    obtain ⟨_, d₂, hentry, hrun⟩ := bind_ok hrun
    obtain ⟨_, d₃, hend, hrun⟩ := bind_ok hrun
    obtain ⟨_, d₄, hdot, hrun⟩ := bind_ok hrun
    obtain ⟨-, rfl⟩ := pure_ok hrun
    have hsame : d₄.routines = d₂.routines :=
      (expect_ok hdot rfl).routines.trans (namedEnd_ok hend).routines
    have hentered : k.Defines d₂ := fun name r hr => hdefines name r (hsame ▸ hr)
    obtain ⟨f, hreads⟩ := unitItems_reads j hitems
    refine hentered.entryBlock ?_ hentry
    rw [hreads.length_blocks]
    exact Nat.le_trans hopen hcut.knows.deep
  refine Comes.bind (unitItems_cuts hopen hij hcut hm hitems hafter) ?_
  rintro _ c₁ ⟨hcut₁, hle₁⟩
  have hrest : k.Cuts k.Excuses Never
      (do
        entryBlock j name
        namedEnd name
        let _ ← expect (.mark .dot))
      (do
        entryBlock i name
        namedEnd name
        let _ ← expect (.mark .dot)) d₁ c₁ := by
    refine (entryBlock_cuts hij hopen hcut₁ (by omega)).firm fun _ d₂ c₂ hcut₂ _ => ?_
    refine (namedEnd_cuts hcut₂).firm fun _ d₃ c₃ hcut₃ _ => ?_
    exact cuts_expect hcut₃ (Or.inl rfl) fun _ d₄ c₄ _ hcut₄ _ => Cuts.pure hcut₄
  refine (hrest u d' hrun).imp ?_ fun _ h => h
  rintro _ c' (⟨-, hcut', hle⟩ | ⟨-, h⟩)
  · exact ⟨hcut', Nat.le_trans hle hle₁⟩
  · exact h.elim

/-- The block of a unit may be opened. -/
theorem unitHead_mayOpen {d d' : Draft} {root : NodeId} {name : String}
    (h : unitHead.run d = .ok (root, name) d') : k.MayOpen d' root := by
  obtain ⟨line, d₁, -, h⟩ := bind_ok h
  obtain ⟨_, d₂, -, h⟩ := bind_ok h
  obtain ⟨_, d₃, -, h⟩ := bind_ok h
  obtain ⟨node, d₄, ha, h⟩ := bind_ok h
  obtain ⟨rfl, rfl⟩ := allocate_ok ha
  obtain ⟨_, d₅, hplace, h⟩ := bind_ok h
  obtain ⟨tree, htree, rfl⟩ := place_ok hplace
  obtain ⟨heq, rfl⟩ := pure_ok h
  cases heq
  have hopens : k.MayOpen (d₃.allocated (.unit name name none) line) d₃.tree.size :=
    mayOpen_allocated (headless rfl)
  exact hopens.mono (Tree.keeps_setRoot htree)

theorem unitHead_cuts {d c : Draft} (hcut : k.Cut d c) :
    k.Cuts k.Excuses Never unitHead unitHead d c := by
  refine cuts_expect hcut (Or.inl rfl) fun line d₁ c₁ _ hcut₁ _ => ?_
  refine cuts_identifier hcut₁ (Or.inl rfl) fun name _ d₂ c₂ _ hcut₂ _ => ?_
  refine cuts_expect hcut₂ (Or.inl rfl) fun _ d₃ c₃ _ hcut₃ _ => ?_
  refine cuts_allocate hcut₃ fun root d₄ c₄ hcut₄ _ hopens => ?_
  exact cuts_place hcut₄ (hopens (headless rfl)) (fun _ _ h => Tree.keeps_setRoot h)
    fun d₅ c₅ hcut₅ _ _ => Cuts.pure hcut₅

/-- A program: behind its last token nothing may stand, so the cut is never behind it. -/
theorem unit_cuts {i j : Nat} (hij : i < j) {d c d' : Draft} {root : NodeId} (hcut : k.Cut d c)
    (hm : c.tokens.length ≤ i) (hrun : (unit j).run d = .ok root d') (hdefines : k.Defines d') :
    Comes (unit i) c (fun _ _ => False) k.Excuses := by
  rw [unit_eq] at hrun ⊢
  obtain ⟨⟨root, name⟩, d₁, hhead, hrun⟩ := bind_ok hrun
  refine Comes.bind (unitHead_cuts hcut _ d₁ hhead) ?_
  rintro _ c₁ (⟨rfl, hcut₁, hle₁⟩ | ⟨-, h⟩)
  swap
  · exact h.elim
  obtain ⟨_, d₂, hblock, hrun⟩ := bind_ok hrun
  obtain ⟨-, rfl⟩ := atEnd_ok hrun
  have hopen : 1 ≤ k.deeper.depth := Nat.succ_le_succ (Nat.zero_le _)
  have hinside : k.Cuts k.Excuses Never (inBlock root name (unitInside j name))
      (inBlock root name (unitInside i name)) d₁ c₁ := by
    refine inBlock_cuts hcut₁ (unitHead_mayOpen hhead) fun hcut₂ u d₃ hread => ?_
    obtain ⟨d₄, hread', rfl⟩ := inBlock_ok hblock
    obtain rfl : d₃ = d₄ := by
      rw [hread] at hread'
      cases hread'
      rfl
    exact (unitInside_cuts hij hopen hcut₂ (Nat.le_trans hle₁ hm) hread hdefines).imp
      (fun _ _ h => Or.inl ⟨rfl, h⟩) fun _ h => h
  refine Comes.bind (hinside _ d' hblock) ?_
  rintro _ c₂ (⟨-, hcut₂, -⟩ | ⟨-, h⟩)
  · have htokens := (atEnd_ok hrun).1
    rw [hcut₂.tokens] at htokens
    exact absurd (List.append_eq_nil_iff.1 htokens).2 k.lost_ne
  · exact h.elim

end Cutting

end Primer.Grammar

namespace Primer.Program

open Grammar

/-- A text that is accepted as a whole is refused when tokens are missing at its end: because it
stops, or for a fault that the missing tokens would have prevented. -/
theorem ofTokens_truncated {kept lost : List Lexeme} {p : Program}
    (h : ofTokens (kept ++ lost) = .ok p) (hlost : lost ≠ []) :
    ∃ e, ofTokens kept = .error e ∧ (e.fault = .unexpectedEnd ∨
      Mistaken p.routines (kept.map (·.token)) (lost.map (·.token)) e.fault) := by
  let k : Cutting := ⟨kept, lost, hlost, p.routines, 0⟩
  have hcut : k.Cut (Draft.start (kept ++ lost)) (Draft.start kept) :=
    ⟨rfl, List.suffix_rfl, rfl, ⟨Nat.le_refl _, nofun, nofun⟩⟩
  have hlength : kept.length < (kept ++ lost).length := by
    rw [List.length_append]
    exact Nat.lt_add_of_pos_right (List.length_pos_iff.2 hlost)
  unfold ofTokens at h ⊢
  split at h
  · rename_i root d hunit
    cases h
    have hread := Cutting.unit_cuts hlength hcut (Nat.le_refl _) hunit fun _ _ hr => hr
    cases hshort : (unit kept.length).run (Draft.start kept) with
    | error e d' => exact ⟨e, rfl, hread.run_error hshort⟩
    | ok root' d' => exact (hread.run_ok hshort).elim
  · cases h

/-- A unit that calls its function, up to the function's name in the call. -/
def callKept : List Lexeme :=
  [.word .module, .identifier "m", .mark .semicolon,
    .word .function, .word .public, .identifier "f", .mark .openParen, .mark .closeParen,
    .mark .colon, .word (.scalar .integer), .word .end, .identifier "f", .mark .semicolon,
    .word .beginning, .word .output, .identifier "f"].map (⟨·, 1⟩)

/-- The rest of the unit. -/
def callLost : List Lexeme :=
  [.mark .openParen, .mark .closeParen, .mark .semicolon, .word .end, .identifier "m",
    .mark .dot].map (⟨·, 1⟩)

theorem exists_callTokens : ∃ p, ofTokens (callKept ++ callLost) = .ok p := by
  have haccepted : (ofTokens (callKept ++ callLost)).toOption.isSome = true := by decide +kernel
  cases hp : ofTokens (callKept ++ callLost) with
  | ok p => exact ⟨p, rfl⟩
  | error e =>
    rw [hp] at haccepted
    cases haccepted

/-- A call in an expression that is cut off behind the name of its function. -/
theorem callTokens_truncated : ∃ p e, ofTokens (callKept ++ callLost) = .ok p ∧
    ofTokens callKept = .error e ∧ (e.fault = .unexpectedEnd ∨
      Mistaken p.routines (callKept.map (·.token)) (callLost.map (·.token)) e.fault) := by
  obtain ⟨p, hp⟩ := exists_callTokens
  obtain ⟨e, he, hfault⟩ := ofTokens_truncated hp (List.cons_ne_nil _ _)
  exact ⟨p, e, hp, he, hfault⟩

/-- Not every text that was cut off is refused for its end: a function's name is taken for the name
of a variable. -/
theorem not_always_unexpectedEnd : ¬ ∀ (kept lost : List Lexeme) (p : Program),
    ofTokens (kept ++ lost) = .ok p → lost ≠ [] →
      ∃ line, ofTokens kept = .error ⟨.unexpectedEnd, line⟩ := by
  intro hall
  obtain ⟨p, hp⟩ := exists_callTokens
  obtain ⟨line, hline⟩ := hall callKept callLost p hp (List.cons_ne_nil _ _)
  have hunknown : (match ofTokens callKept with
      | .error ⟨.unknownIdentifier name, _⟩ => name == "f"
      | _ => false) = true := by decide +kernel
  rw [hline] at hunknown
  cases hunknown

end Primer.Program
