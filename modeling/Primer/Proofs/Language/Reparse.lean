import Primer.Proofs.Language.Rebuilding
import Primer.Proofs.Scope.Soundness

/-!
# Primer.Proofs.Language.Reparse — a written program is read as what it was.

The tokens of an accepted program are accepted, and they are read as the same program, up to lines.
The induction is on the reading of the program, with the invariant `Rebuilt` of its role: the
numbers of the blocks, the positions of the nodes and the routines that are known come out the same,
and with them what every later name means.

The tokens are those of the tree, by its own walk (`Program.tokens`), so nothing is assumed of how
the text was written at first.  Blocks are numbered while they are read, and the numbers are part of
what is built; a routine is known to its own body only after its heading, and to others only after
its end.  Both come out the same because the tokens come in the order of the first reading.

Main statement: `Program.ofSource_tokens`.
-/

namespace Primer.Grammar

variable {β : Type} {v : Names}

/-! ## Blocks -/

theorem body_done (d : Draft) : Rebuilt d .nil d .body := by
  intro bound terminators rest _ hends hlength e he hw
  have hw : e.words = rest := hw
  exact block_end (hw ▸ hends) (hw ▸ hlength) ⟨rfl, he, hw⟩

theorem body_item {d d₁ d₂ : Draft} {f g : Forest} (first : RebuildsStatement d f.tokens d₁)
    (more : Rebuilt (d₁.attached d.tree.size) g d₂ .body) : Rebuilt d (f.append g) d₂ .body := by
  intro bound terminators rest ht hends hlength e he hw
  rw [Forest.tokens_append, List.append_assoc] at hlength hw
  obtain ⟨k, u, htokens, hreader⟩ := first
  cases bound with
  | zero => simp [htokens] at hlength
  | succ bound =>
    obtain ⟨x, hx, hstatement⟩ := hreader bound
    have hhead : e.words.head? = some (.word k) := by
      rw [hw, htokens]
      rfl
    rw [htokens, List.cons_append, List.length_cons, List.length_append] at hlength
    have hitem : Comes (item (block bound) bound (.word k)) e
        (fun _ e₁ => e₁.built = (d₁.attached d.tree.size).built ∧ e₁.words = g.tokens ++ rest)
        fun _ => False := by
      rw [item_of_statement? hx]
      refine (hstatement (g.tokens ++ rest) (by simp at hlength ⊢; omega)).bind he hw
        fun e₁ he₁ h₁ => ?_
      refine Comes.attach ⟨Draft.built_attached_eq he₁ _, ?_⟩
      rw [Draft.words, Draft.tokens_attached]
      exact h₁
    refine block_statement ht hx hhead hitem ?_
    rintro e₁ ⟨he₁, h₁⟩
    exact more bound terminators rest ht hends (by simp at hlength ⊢; omega) e₁ he₁ h₁

/-- A body that is read in a block of its own. -/
theorem inBlock_rebuilds {d d' : Draft} {node : NodeId} {scope : String} {body : Forest}
    (inside : Rebuilt (d.opened node scope) body d' .body) {bound : Nat}
    {terminators : List Keyword} {rest : List Token} (ht : Terminates terminators)
    (hends : EndsBlock terminators rest) (hlength : (body.tokens ++ rest).length ≤ bound) :
    Rebuilds (inBlock node scope (block bound terminators)) d body.tokens rest () d'.closed := by
  intro e he hw
  have hread := inside bound terminators rest ht hends hlength (e.opened node scope)
    (congrArg (Draft.opened · node scope) he) hw
  refine Comes.inBlock (hread.imp ?_ fun _ hf => hf)
  rintro _ e' ⟨-, he', hw'⟩
  exact ⟨rfl, congrArg Draft.closed he', hw'⟩

theorem endsBlock_end (k : Keyword) (rest : List Token) :
    EndsBlock [.end] (.word .end :: .word k :: .mark .semicolon :: rest) :=
  ⟨.end, List.mem_cons_self, rfl⟩

/-- A condition between the two keywords around it. -/
theorem condition_at {d d₁ e : Draft} {k k' : Keyword} {condition : Expr} {rest : List Token}
    {bound : Nat} {f : Nat → Expr → Parse β} {Q : β → Draft → Prop} (taken : d.Skips d₁)
    (sound : condition.Sound d.bareNames) (hk : binaryOp? (.word k') = none)
    (hbound : (condition.tokens ++ .word k' :: rest).length ≤ bound) (he : e.built = d.built)
    (hw : e.words = .word k :: (condition.tokens ++ .word k' :: rest))
    (h : ∀ line a e', a.unlined = condition.unlined → e'.built = d₁.built → e'.words = rest →
      Comes (f line a) e' Q fun _ => False) :
    Comes (do
      let line ← expect (.word k)
      let a ← expression bound
      let _ ← expect (.word k')
      f line a) e Q fun _ => False := by
  refine expect_at hw fun line e₁ h₁ hs₁ => ?_
  have hcondition := restored condition d.bareNames bound (.word k' :: rest) sound hbound
    (.of_none hk (by simp) (by simp))
  refine hcondition.bind (hs₁.bareNames.trans (Draft.bareNames_eq he)) h₁ fun a e₂ ha h₂ hs₂ => ?_
  refine expect_at h₂ fun _ e₃ h₃ hs₃ => h line a e₃ ha ?_ h₃
  rw [((hs₁.trans hs₂).trans hs₃).built, he, taken.built]

/-- A construct with a body is made under the next free number, and its body is read. -/
theorem block_at {d₁ d₂ e : Draft} {label scope : String} {c : Construct} {c' : String → Construct}
    {line line' bound : Nat} {body : Forest} {terminators : List Keyword} {rest : List Token}
    {f : NodeId → Parse β} {Q : β → Draft → Prop} (scope_eq : scope = d₁.nextScope label)
    (inside : Rebuilt (d₁.counted.entered c line scope) body d₂ .body)
    (hc : (c' scope).unlined = c.unlined)
    (ht : Terminates terminators) (hends : EndsBlock terminators rest)
    (hlength : (body.tokens ++ rest).length ≤ bound) (he : e.built = d₁.built)
    (hw : e.words = body.tokens ++ rest)
    (h : ∀ e', e'.built = d₂.closed.built → e'.words = rest →
      Comes (f d₁.tree.size) e' Q fun _ => False) :
    Comes (do
      let scope ← blockScope label
      let node ← allocate (c' scope) line'
      inBlock node scope (block bound terminators)
      f node) e Q fun _ => False := by
  refine Comes.blockScope (Comes.allocate ?_)
  have hsize : e.counted.tree.size = d₁.tree.size := Draft.size_eq_of_built (d := d₁) (e := e) he
  rw [Draft.nextScope_eq_of_built he, ← scope_eq, hsize]
  have hmade := Draft.built_allocated_eq (Draft.built_counted_eq he) hc line line'
  exact (inBlock_rebuilds inside ht hends hlength).bind hmade hw h

/-- A loop is rebuilt if its body is. -/
theorem loop_rebuilds {d d₁ d₂ d₃ : Draft} {line : Nat} {scope : String} {condition : Expr}
    {body : Forest} (taken : d.Skips d₁) (sound : condition.Sound d.bareNames)
    (scope_eq : scope = d₁.nextScope "while")
    (inside : Rebuilt (d₁.counted.entered (.loop scope condition) line scope) body d₂ .body)
    (after : d₂.closed.Skips d₃) :
    Rebuilt d (.block (.loop scope condition) line body) d₃ .statement := by
  have htokens : (Forest.block (.loop scope condition) line body).tokens = .word .while ::
      (condition.tokens ++ .word .repeat :: (body.tokens ++
        [.word .end, .word .while, .mark .semicolon])) := by
    simp [Forest.block, Forest.tokens, Construct.opening, Construct.closing]
  refine ⟨_, _, htokens, fun bound => ⟨_, rfl, fun rest hlength e he hw => ?_⟩⟩
  have hw : e.words = .word .while :: (condition.tokens ++ .word .repeat :: (body.tokens ++
      .word .end :: .word .while :: .mark .semicolon :: rest)) := by
    simpa [htokens] using hw
  simp only [List.append_assoc, List.cons_append, List.length_append, List.length_cons,
    List.length_nil] at hlength
  refine condition_at taken sound rfl (by simp; omega) he hw fun line' a e₁ ha he₁ h₁ => ?_
  refine block_at scope_eq inside (congrArg (Construct.loop scope) ha) terminates_end
    (endsBlock_end _ rest) (by simp; omega) he₁ h₁ fun e₂ he₂ h₂ => ?_
  refine blockEnd_at h₂ fun e₃ h₃ hs₃ => Comes.pure ⟨congrArg Tree.size taken.tree, ?_, h₃⟩
  rw [hs₃.built, he₂, after.built]

/-! ## Branches -/

/-- What stands behind the body of a conditional, or of one of its branches, ends it. -/
theorem Reads.endsBlock {c : NodeId} {d d' : Draft} {f : Forest}
    (h : Reads (.branches c) d f d') {rest : List Token} (hrest : rest.head? = some (.word .end)) :
    EndsBlock [.elseif, .else, .end] (f.tokens ++ rest) := by
  cases h with
  | elseIf => exact ⟨.elseif, by simp, rfl⟩
  | otherwise => exact ⟨.else, by simp, rfl⟩
  | done => exact ⟨.end, by simp, hrest⟩
  | item admitted => exact admitted.elim

theorem branches_done (c : NodeId) (d : Draft) : Rebuilt d .nil d (.branches c) := by
  intro bound more rest e hrest _ _ he hw
  have hend : e.words.head? = some (.word .end) := by rw [hw, Forest.tokens, List.nil_append, hrest]
  exact elseIfs_not (by rw [hend]; simp) (otherwise_not (by rw [hend]; simp) ⟨he, hw⟩)

/-- A branch that is made and placed. -/
theorem branch_at {d₁ e : Draft} {c : NodeId} {branch branch' : Construct} {line line' : Nat}
    {tree : Tree} {f : NodeId → Parse β} {Q : β → Draft → Prop}
    (placed : (d₁.tree.allocate branch line).2.attachBranch c d₁.tree.size = .ok tree)
    (hbranch : branch'.unlined = branch.unlined) (he : e.built = d₁.counted.built)
    (h : ∀ e', e'.built = (d₁.counted.planted tree).built → e'.words = e.words →
      Comes (f d₁.tree.size) e' Q fun _ => False) :
    Comes (do
      let node ← allocate branch' line'
      place (·.attachBranch c node) line'
      f node) e Q fun _ => False := by
  refine Comes.allocate ?_
  have hsize : e.tree.size = d₁.tree.size := Draft.size_eq_of_built (d := d₁.counted) he
  rw [hsize]
  have htree := congrArg Draft.tree (Draft.built_allocated_eq he hbranch line line')
  refine place_rebuilds (fun t => t.attachBranch_unlined c d₁.tree.size) htree placed rfl
    fun tree' htree' => h _ (Draft.built_planted_eq he htree') rfl

/-- A further branch is rebuilt if its body is, in front of those behind it. -/
theorem elseIf_rebuilds {d d₁ d₂ d₃ : Draft} {c : NodeId} {line : Nat} {scope : String}
    {condition : Expr} {tree : Tree} {body slots : Forest} (taken : d.Skips d₁)
    (sound : condition.Sound d.bareNames) (scope_eq : scope = d₁.nextScope "elseif")
    (placed : (d₁.tree.allocate (.elseIf scope condition) line).2.attachBranch c d₁.tree.size
      = .ok tree)
    (inside : Rebuilt ((d₁.counted.planted tree).opened d₁.tree.size scope) body d₂ .body)
    (reads : Reads (.branches c) d₂.closed slots d₃)
    (after : Rebuilt d₂.closed slots d₃ (.branches c)) :
    Rebuilt d (.cons (.elseIf scope condition) line body .nil slots) d₃ (.branches c) := by
  intro bound more rest e hrest hbound hmore he hw
  have htokens : (Forest.cons (.elseIf scope condition) line body .nil slots).tokens ++ rest
      = .word .elseif :: (condition.tokens ++ .word .then :: (body.tokens ++
        (slots.tokens ++ rest))) := by
    simp [Forest.tokens, Construct.opening, Construct.closing]
  rw [htokens] at hbound hmore hw
  simp only [List.length_cons, List.length_append] at hbound hmore
  cases more with
  | zero => omega
  | succ more =>
    rw [elseIfs]
    refine Comes.peek ?_
    rw [if_pos (by rw [hw]; rfl)]
    refine condition_at taken sound rfl (by simp; omega) he hw fun line' a e₁ ha he₁ h₁ => ?_
    refine Comes.blockScope ?_
    rw [Draft.nextScope_eq_of_built he₁, ← scope_eq]
    refine branch_at placed (congrArg (Construct.elseIf scope) ha) (Draft.built_counted_eq he₁)
      fun e₂ he₂ h₂ => ?_
    refine (inBlock_rebuilds inside terminates_branch (reads.endsBlock hrest)
      (by simp; omega)).bind he₂ (h₂.trans h₁) fun e₃ he₃ h₃ => ?_
    exact after bound more rest e₃ hrest (by simp; omega) (by simp; omega) he₃ h₃

theorem otherwise_rebuilds {d d₁ d₂ : Draft} {c : NodeId} {line : Nat} {scope : String}
    {tree : Tree} {body : Forest} (taken : d.Skips d₁) (scope_eq : scope = d₁.nextScope "else")
    (placed : (d₁.tree.allocate (.otherwise scope) line).2.attachBranch c d₁.tree.size = .ok tree)
    (inside : Rebuilt ((d₁.counted.planted tree).opened d₁.tree.size scope) body d₂ .body) :
    Rebuilt d (.block (.otherwise scope) line body) d₂.closed (.branches c) := by
  intro bound more rest e hrest hbound _ he hw
  have htokens : (Forest.block (.otherwise scope) line body).tokens ++ rest
      = .word .else :: (body.tokens ++ rest) := by
    simp [Forest.block, Forest.tokens, Construct.opening, Construct.closing]
  rw [htokens] at hbound hw
  have hlast : Comes (otherwise (block bound) c) e
      (fun _ e' => e'.built = d₂.closed.built ∧ e'.words = rest) fun _ => False := by
    refine Comes.peek ?_
    rw [if_pos (by rw [hw]; rfl)]
    refine expect_at hw fun line' e₁ h₁ hs₁ => Comes.blockScope ?_
    have he₁ : e₁.built = d₁.built := hs₁.built.trans (he.trans taken.built.symm)
    rw [Draft.nextScope_eq_of_built he₁, ← scope_eq]
    refine branch_at placed rfl (Draft.built_counted_eq he₁) fun e₂ he₂ h₂ => ?_
    exact (inBlock_rebuilds inside terminates_end ⟨.end, List.mem_cons_self, hrest⟩
      (Nat.le_of_succ_le hbound) e₂ he₂ (h₂.trans h₁)).imp (fun _ _ h => h.2) fun _ hf => hf
  exact elseIfs_not (by rw [hw]; simp) hlast

/-- A conditional is rebuilt if its body and its branches are. -/
theorem conditional_rebuilds {d d₁ d₂ d₃ d₄ : Draft} {line : Nat} {scope : String}
    {condition : Expr} {body slots : Forest} (taken : d.Skips d₁)
    (sound : condition.Sound d.bareNames) (scope_eq : scope = d₁.nextScope "if")
    (inside : Rebuilt (d₁.counted.entered (.conditional scope condition [] none) line scope) body d₂
      .body)
    (reads : Reads (.branches d₁.tree.size) d₂.closed slots d₃)
    (after : Rebuilt d₂.closed slots d₃ (.branches d₁.tree.size)) (rest : d₃.Skips d₄) :
    Rebuilt d
      (.cons (slots.fill (.conditional scope condition [] none) d₂.tree.size) line body slots .nil)
      d₄ .statement := by
  obtain ⟨elseIfs, last, hfill⟩ := slots.exists_fill_eq d₂.tree.size scope condition [] none
  rw [hfill]
  have htokens :
      (Forest.cons (.conditional scope condition elseIfs last) line body slots .nil).tokens
        = .word .if :: (condition.tokens ++ .word .then :: (body.tokens ++ (slots.tokens ++
          [.word .end, .word .if, .mark .semicolon]))) := by
    simp [Forest.tokens, Construct.opening, Construct.closing]
  refine ⟨_, _, htokens, fun bound => ⟨_, rfl, fun behind hlength e he hw => ?_⟩⟩
  have hw : e.words = .word .if :: (condition.tokens ++ .word .then :: (body.tokens ++
      (slots.tokens ++ .word .end :: .word .if :: .mark .semicolon :: behind))) := by
    simpa [htokens] using hw
  simp only [List.append_assoc, List.cons_append, List.length_append, List.length_cons,
    List.length_nil] at hlength
  refine condition_at taken sound rfl (by simp; omega) he hw fun line' a e₁ ha he₁ h₁ => ?_
  refine block_at scope_eq inside (congrArg (Construct.conditional scope · [] none) ha)
    terminates_branch (reads.endsBlock rfl) (by simp; omega) he₁ h₁ fun e₂ he₂ h₂ => ?_
  -- the branches are read as one, first those with conditions and then the last
  refine Comes.bind (after bound bound _ e₂ rfl (by simp; omega) (by simp; omega) he₂ h₂) ?_
  intro _ e₃ h₃
  refine Comes.bind h₃ ?_
  rintro _ e₄ ⟨he₄, h₄⟩
  refine blockEnd_at h₄ fun e₅ h₅ hs₅ => Comes.pure ⟨congrArg Tree.size taken.tree, ?_, h₅⟩
  rw [hs₅.built, he₄, rest.built]

/-! ## Routines -/

theorem parameter_restores (p : Parameter) (rest : List Token) :
    Restores v parameter p.tokens rest (· = p) := by
  intro d _ hd
  obtain ⟨mode, type, name⟩ := p
  refine advance_at hd fun l d₁ hl h₁ hs₁ => ?_
  have hmode : Comes (do
      let type ← scalarType
      let name ← identifier
      return ({ mode, type, name } : Parameter)) d₁ (fun p d' => d.Skips d' ∧ d'.words = rest ∧
        p = { mode, type, name }) fun _ => False := by
    refine scalarType_at h₁ fun d₂ h₂ hs₂ => identifier_at h₂ fun d₃ h₃ hs₃ => ?_
    exact Comes.pure ⟨(hs₁.trans hs₂).trans hs₃, h₃, rfl⟩
  rw [hl]
  cases mode <;> exact hmode

theorem parameters_restores (ps : List Parameter) (bound : Nat) (rest : List Token)
    (hlength : (Token.listed (ps.map Parameter.tokens) ++ rest).length ≤ bound) :
    Restores v (commaSeparated (fun _ => parameter) .closeParen bound)
      (Token.listed (ps.map Parameter.tokens)) rest (· = ps) := by
  have hhead : ∀ p ∈ ps, ∃ t w, p.tokens = t :: w ∧ t ≠ .mark .closeParen := by
    rintro ⟨mode, type, name⟩ _
    cases mode <;> exact ⟨_, _, rfl, by simp [PassMode.token]⟩
  have hlist := commaSeparated_restores (v := v) id id hhead
    (fun i hi rest _ _ => parameter_restores ps[i] rest) hlength
  simpa using hlist

theorem visibility_of_token {d : Draft} {visibility : Visibility} {rest : List Token}
    (hd : d.words = visibility.token :: rest) {f : Visibility → Parse β} {Q : β → Draft → Prop}
    {E : ParseFault → Prop}
    (h : ∀ d', d'.words = rest → d.Skips d' → Comes (f visibility) d' Q E) :
    Comes (Grammar.visibility >>= f) d Q E := by
  refine Comes.bind (P := fun found d' => found = visibility ∧ d'.words = rest ∧ d.Skips d') ?_ ?_
  · refine advance_at hd fun l d₁ hl h₁ hs₁ => ?_
    rw [hl]
    cases visibility <;> exact Comes.pure ⟨rfl, h₁, hs₁⟩
  · rintro found d' ⟨rfl, hrest, hskips⟩
    exact h d' hrest hskips

/-- The end of a routine that is there is taken. -/
theorem namedEnd_at {d : Draft} {name : String} {rest : List Token}
    (hd : d.words = .word .end :: .identifier name :: rest) {f : Unit → Parse β}
    {Q : β → Draft → Prop} {E : ParseFault → Prop}
    (h : ∀ d', d'.words = rest → d.Skips d' → Comes (f ()) d' Q E) :
    Comes (namedEnd name >>= f) d Q E := by
  refine Comes.bind (P := fun _ d' => d'.words = rest ∧ d.Skips d') ?_
    fun _ d' hd' => h d' hd'.1 hd'.2
  refine expect_at hd fun _ d₁ h₁ hs₁ => identifier_at h₁ fun d₂ h₂ hs₂ => ?_
  rw [if_pos rfl]
  exact Comes.pure ⟨h₂, hs₁.trans hs₂⟩

/-- Names that are different are none of them repeated. -/
theorem firstRepeated?_of_nodup {names : List String} : ∀ {seen : List String}, names.Nodup →
    (∀ name ∈ names, name ∉ seen) → firstRepeated? seen names = none := by
  induction names with
  | nil => exact fun _ _ => rfl
  | cons name rest ih =>
    intro seen hnodup hseen
    obtain ⟨hname, hrest⟩ := List.nodup_cons.1 hnodup
    rw [firstRepeated?, if_neg (hseen name List.mem_cons_self)]
    refine ih hrest fun other hother => ?_
    rw [List.mem_cons, not_or]
    refine ⟨?_, hseen other (List.mem_cons_of_mem _ hother)⟩
    rintro rfl
    exact hname hother

/-- The keyword of a routine tells whether there is a result clause. -/
theorem result_of_keyword {heading : Heading} {d : Draft} {t : Token} {rest : List Token}
    (ht : t = .word heading.keyword) (hd : d.words = heading.resultTokens ++ rest)
    {f : Option Scalar → Parse β} {Q : β → Draft → Prop} {E : ParseFault → Prop}
    (h : ∀ d', d'.words = rest → d.Skips d' → Comes (f heading.result) d' Q E) :
    Comes (if t = .word .function then do
        let _ ← expect (.mark .colon)
        let result ← some <$> scalarType
        f result
      else do
        let result ← pure none
        f result) d Q E := by
  rw [ht, Heading.keyword]
  rw [Heading.resultTokens] at hd
  cases hresult : heading.result with
  | none =>
    rw [hresult] at hd h
    exact h d hd (.refl d)
  | some type =>
    rw [hresult] at hd h
    exact result_at hd h

theorem routineBody_rebuilds {d₁ d₂ d₃ : Draft} {line : Nat} {heading : Heading}
    {routines : Routines} {body : Forest}
    (inside : Rebuilt (d₁.entered (.routine heading) line heading.scope) body d₂ .body)
    (after : d₂.closed.Skips d₃)
    (defined : d₃.routines.define ⟨d₁.tree.size, heading⟩ = .ok routines)
    {bound line' : Nat} {rest : List Token} (hlength : (body.tokens ++ .word .end ::
      .identifier heading.name :: .mark .semicolon :: rest).length ≤ bound) :
    Rebuilds (routineBody (block bound) heading line') d₁
      (body.tokens ++ [.word .end, .identifier heading.name, .mark .semicolon]) rest ()
      ((d₃.equipped routines).attached d₁.tree.size) := by
  intro e he hw
  have hw : e.words = body.tokens ++ .word .end :: .identifier heading.name ::
      .mark .semicolon :: rest := by
    simpa using hw
  have hmade := Draft.built_allocated_eq (c := .routine heading) he rfl line line'
  refine Comes.allocate ?_
  rw [Draft.size_eq_of_built he]
  refine (inBlock_rebuilds inside terminates_end ⟨.end, List.mem_cons_self, rfl⟩ hlength).bind hmade
    hw fun e₁ he₁ h₁ => ?_
  refine namedEnd_at h₁ fun e₂ h₂ hs₂ => expect_at h₂ fun _ e₃ h₃ hs₃ => Comes.get ?_
  have he₃ : e₃.built = d₃.built := by rw [(hs₂.trans hs₃).built, he₁, after.built]
  rw [show e₃.routines = d₃.routines from Draft.routines_eq_of_built he₃, defined]
  refine Comes.set (d := e₃) (Comes.attach ⟨rfl, ?_, ?_⟩)
  · exact Draft.built_attached_eq (Draft.built_equipped_eq he₃ routines) _
  · rw [Draft.words, Draft.tokens_attached]
    exact h₃

theorem routine_rebuilds {d d₁ d₂ d₃ : Draft} {line : Nat} {heading : Heading}
    {routines : Routines} {body : Forest} (taken : d.Skips d₁) (outermost : d.blocks.length = 1)
    (distinct : (heading.parameters.map (·.name)).Nodup)
    (scope_eq : heading.scope = Name.qualify d.scope heading.name)
    (inside : Rebuilt (d₁.entered (.routine heading) line heading.scope) body d₂ .body)
    (after : d₂.closed.Skips d₃)
    (defined : d₃.routines.define ⟨d₁.tree.size, heading⟩ = .ok routines) :
    Rebuilt d (.block (.routine heading) line body) (d₃.equipped routines) .routine := by
  intro bound rest hlength e he hw
  let inner := body.tokens ++ [.word .end, .identifier heading.name, .mark .semicolon]
  have htokens : (Forest.block (.routine heading) line body).tokens ++ rest
      = .word heading.keyword :: heading.visibility.token :: .identifier heading.name ::
        .mark .openParen :: (Token.listed (heading.parameters.map Parameter.tokens) ++
          (heading.resultTokens ++ (inner ++ rest))) := by
    simp [Forest.block, Forest.tokens, Construct.opening, Construct.closing, Heading.tokens, inner]
  rw [htokens] at hlength hw
  simp only [List.length_cons, List.length_append, inner, List.length_nil] at hlength
  refine advance_at hw fun l e₁ hl h₁ hs₁ => visibility_of_token h₁ fun e₂ h₂ hs₂ => ?_
  refine identifier_at h₂ fun e₃ h₃ hs₃ => Comes.get ?_
  have hs := (hs₁.trans hs₂).trans hs₃
  have hlevel : e₃.blocks.length = 1 := by
    rw [hs.blocks, Draft.blocks_eq_of_built he, outermost]
  rw [if_neg (not_not_intro hlevel)]
  refine expect_at h₃ fun _ e₄ h₄ hs₄ => ?_
  have hv₄ := (hs.trans hs₄).bareNames.trans (Draft.bareNames_eq he)
  have hparameters := parameters_restores (v := d.bareNames) heading.parameters bound
    (heading.resultTokens ++ (inner ++ rest)) (by simp [inner]; omega)
  refine hparameters.bind hv₄ h₄ fun parameters e₅ hfound h₅ hs₅ => ?_
  obtain rfl : parameters = heading.parameters := hfound
  rw [firstRepeated?_of_nodup distinct fun _ _ => List.not_mem_nil]
  dsimp only
  refine result_of_keyword hl h₅ fun e₆ h₆ hs₆ => Comes.get ?_
  have he₆ : e₆.built = d₁.built := by
    rw [(((hs.trans hs₄).trans hs₅).trans hs₆).built, he, taken.built]
  -- the scope is computed from where the routine stands, which is the same place
  show Comes (routineBody (block bound) { heading with
    scope := Name.qualify e₆.scope heading.name } l.line) e₆ _ _
  rw [Draft.scope_eq_of_built (he₆.trans taken.built), ← scope_eq, ← taken.tree]
  exact routineBody_rebuilds inside after defined (by simp; omega) e₆ he₆ h₆

/-! ## Items of a unit -/

/-- A declaration is written with its keyword in front. -/
theorem Reads.declaration_tokens {d d' : Draft} {f : Forest} (h : Reads .declaration d f d') :
    ∃ u, f.tokens = .word .variable :: u := by
  cases h with
  | declaration => exact ⟨_, rfl⟩
  | done list => exact list.elim
  | item admitted => exact admitted.elim

theorem Reads.routine_tokens {d d' : Draft} {f : Forest} (h : Reads .routine d f d') :
    ∃ k u, f.tokens = .word k :: u ∧ (k = .function ∨ k = .procedure) := by
  cases h with
  | @routine _ _ _ _ line heading =>
    refine ⟨heading.keyword, _, rfl, ?_⟩
    rw [Heading.keyword]
    split
    · exact Or.inl rfl
    · exact Or.inr rfl
  | done list => exact list.elim
  | item admitted => exact admitted.elim

/-- A declaration is one of the statements of a body. -/
theorem declaration_statement {d d' : Draft} {f : Forest} (h : Reads .declaration d f d')
    (hf : Rebuilt d f d' .declaration) : RebuildsStatement d f.tokens d' := by
  obtain ⟨u, htokens⟩ := h.declaration_tokens
  refine ⟨.variable, u, htokens, fun bound => ⟨_, rfl, fun rest hlength => hf bound rest ?_⟩⟩
  rw [htokens]
  exact Nat.succ_le_succ hlength

theorem items_done (d : Draft) : Rebuilt d .nil d .items := by
  intro bound rest hhead hlength e he hw
  have hw : e.words = rest := hw
  exact unitItems_end (hw ▸ hhead) (hw ▸ hlength) ⟨rfl, he, hw⟩

theorem items_declaration {d d₁ d₂ : Draft} {f g : Forest} (reads : Reads .declaration d f d₁)
    (first : Rebuilt d f d₁ .declaration) (more : Rebuilt (d₁.attached d.tree.size) g d₂ .items) :
    Rebuilt d (f.append g) d₂ .items := by
  intro bound rest hhead hlength e he hw
  rw [Forest.tokens_append, List.append_assoc] at hlength hw
  obtain ⟨u, htokens⟩ := reads.declaration_tokens
  cases bound with
  | zero => simp [htokens] at hlength
  | succ bound =>
    have hfirst := first bound (g.tokens ++ rest) hlength e he hw
    refine unitItems_declaration (by rw [hw, htokens]; rfl) hfirst ?_
    rintro _ e₁ ⟨rfl, he₁, h₁⟩
    rw [htokens, List.cons_append, List.length_cons, List.length_append] at hlength
    refine more bound rest hhead (by omega) _ (Draft.built_attached_eq he₁ _) ?_
    rw [Draft.words, Draft.tokens_attached]
    exact h₁

theorem items_routine {d d₁ d₂ : Draft} {f g : Forest} (reads : Reads .routine d f d₁)
    (first : Rebuilt d f d₁ .routine) (more : Rebuilt (d₁.attached d.tree.size) g d₂ .items) :
    Rebuilt d (f.append g) d₂ .items := by
  intro bound rest hhead hlength e he hw
  rw [Forest.tokens_append, List.append_assoc] at hlength hw
  obtain ⟨k, u, htokens, hk⟩ := reads.routine_tokens
  cases bound with
  | zero => simp [htokens] at hlength
  | succ bound =>
    have hfirst := first bound (g.tokens ++ rest) hlength e he hw
    refine unitItems_routine hk (by rw [hw, htokens]; rfl) hfirst ?_
    rintro e₁ ⟨-, he₁, h₁⟩
    rw [htokens, List.cons_append, List.length_cons, List.length_append] at hlength
    exact more bound rest hhead (by omega) e₁ he₁ h₁

/-! ## The induction -/

/-- Whatever was read is read again as it was from what is written for it. -/
theorem Reads.rebuilt {role : Role} {d d' : Draft} {f : Forest} (h : Reads role d f d') :
    Token.AllPlain d.tokens → f.All (fun c => ∀ size ∈ c.sizes, size ≤ 2147483647) →
    Rebuilt d f d' role := by
  induction h with
  | declaration taken written sound id_eq new =>
    intro hplain hsizes
    exact declaration_rebuilds taken.toSkips
      (Construct.sound_mono (Draft.names_le_bareNames hplain) _ sound) id_eq new hsizes.1
  | simple taken kind sound =>
    intro hplain _
    exact simple_rebuilds taken.toSkips kind
      (Construct.sound_mono (Draft.names_le_bareNames hplain) _ sound)
  | loop taken sound scope_eq inside rest ih =>
    intro hplain hsizes
    exact loop_rebuilds taken.toSkips (Expr.sound_mono (Draft.names_le_bareNames hplain) _ sound)
      scope_eq (ih (taken.allPlain hplain) hsizes.2.1) rest.toSkips
  | conditional taken sound scope_eq inside after rest ihb ihs =>
    intro hplain hsizes
    have hplain' := inside.allPlain (taken.allPlain hplain)
    exact conditional_rebuilds taken.toSkips
      (Expr.sound_mono (Draft.names_le_bareNames hplain) _ sound) scope_eq
      (ihb (taken.allPlain hplain) hsizes.2.1) after (ihs hplain' hsizes.2.2.1) rest.toSkips
  | elseIf taken sound scope_eq placed inside after ihb ihs =>
    intro hplain hsizes
    have hplain' := inside.allPlain (taken.allPlain hplain)
    exact elseIf_rebuilds taken.toSkips
      (Expr.sound_mono (Draft.names_le_bareNames hplain) _ sound) scope_eq placed
      (ihb (taken.allPlain hplain) hsizes.2.1) after (ihs hplain' hsizes.2.2.2)
  | otherwise taken scope_eq placed inside ih =>
    intro hplain hsizes
    exact otherwise_rebuilds taken.toSkips scope_eq placed
      (ih (taken.allPlain hplain) hsizes.2.1)
  | routine taken outermost written distinct parameters scope_eq inside rest defined ih =>
    intro hplain hsizes
    exact routine_rebuilds taken.toSkips outermost distinct scope_eq
      (ih (taken.allPlain hplain) hsizes.2.1) rest.toSkips defined
  | @done role d list =>
    intro _ _
    cases role with
    | body => exact body_done d
    | items => exact items_done d
    | branches conditional => exact branches_done conditional d
    | _ => exact list.elim
  | @item list role d d₁ d₂ f g admitted first more ihf ihm =>
    intro hplain hsizes
    obtain ⟨hf, hg⟩ := (Forest.all_append ..).1 hsizes
    have hplain' := first.allPlain_attached hplain d.tree.size
    have hfirst := ihf hplain hf
    have hmore := ihm hplain' hg
    -- a list is read by a reader of its own, and tells its items by their first tokens
    cases list with
    | body =>
      cases role with
      | declaration => exact body_item (declaration_statement first hfirst) hmore
      | statement => exact body_item hfirst hmore
      | _ => exact admitted.elim
    | items =>
      cases role with
      | declaration => exact items_declaration first hfirst hmore
      | routine => exact items_routine first hfirst hmore
      | _ => exact admitted.elim
    | _ => cases role <;> exact admitted.elim

/-! ## Programs -/

/-- The reader of the entry block. -/
theorem entryBlock_rebuilds {d d₁ d₂ : Draft} {line : Nat} {name : String} {tree : Tree}
    {body : Forest} (begun : d.Skips d₁)
    (placed : (d₁.tree.allocate (.entry (Name.qualify name "beginning")) line).2.setEntry
      d₁.tree.size = .ok tree)
    (inside : Rebuilt ((d₁.planted tree).opened d₁.tree.size (Name.qualify name "beginning")) body
      d₂ .body)
    {bound : Nat} {rest : List Token} (hends : EndsBlock [.end] rest)
    (hlength : (body.tokens ++ rest).length ≤ bound) :
    Rebuilds (entryBlock bound name) d (.word .beginning :: body.tokens) rest () d₂.closed := by
  intro e he hw
  refine expect_at hw fun line' e₁ h₁ hs₁ => Comes.allocate ?_
  have he₁ : e₁.built = d₁.built := hs₁.built.trans (he.trans begun.built.symm)
  rw [Draft.size_eq_of_built he₁]
  have hmade := Draft.built_allocated_eq (c := .entry (Name.qualify name "beginning")) he₁ rfl line
    line'
  have htree := congrArg Draft.tree hmade
  refine place_rebuilds (fun t => t.setEntry_unlined d₁.tree.size) htree placed rfl
    fun tree' htree' => ?_
  exact inBlock_rebuilds inside terminates_end hends hlength _
    (Draft.built_planted_eq he₁ htree') h₁

/-- An accepted program is read again from its tokens. -/
theorem ReadsProgram.rebuilt {tokens ls : List Lexeme} {f : Forest} {p : Program}
    (h : ReadsProgram tokens f p) (hplain : Token.AllPlain tokens)
    (hsizes : f.All fun c => ∀ size ∈ c.sizes, size ≤ 2147483647)
    (hls : ls.map (·.token) = f.tokens) :
    Comes (unit ls.length) (Draft.start ls) (fun root d => root = p.root ∧
      d.tree.unlined = p.tree.unlined ∧ d.routines = p.routines ∧ d.declared = p.declared)
      fun _ => False := by
  cases h with
  | @intro d d₁ d₂ d₃ d₄ line entryLine name scope tree tree' items body taken written placed inside
      begun scope_eq entryPlaced entered rest complete =>
  subst scope_eq
  obtain ⟨-, hitems, ⟨-, hbody, -⟩, -⟩ := hsizes
  have hitems' := inside.rebuilt (taken.allPlain hplain) hitems
  have hplain' : Token.AllPlain d₂.tokens :=
    begun.allPlain (inside.allPlain (taken.allPlain hplain))
  have hbody' := entered.rebuilt hplain' hbody
  -- everything stands in the tokens in the order in which it was read
  have hw : (Draft.start ls).words = .word .module :: .identifier name :: .mark .semicolon ::
      (items.tokens ++ .word .beginning :: (body.tokens ++
        [.word .end, .identifier name, .mark .dot])) := by
    show ls.map (·.token) = _
    rw [hls]
    simp [Forest.block, Forest.tokens, Construct.opening, Construct.closing]
  have hlength : ls.length = _ := (List.length_map _).symm.trans (congrArg List.length hw)
  simp only [List.length_append, List.length_cons, List.length_nil] at hlength
  refine expect_at hw fun line' e₁ h₁ hs₁ => identifier_at h₁ fun e₂ h₂ hs₂ => ?_
  refine expect_at h₂ fun _ e₃ h₃ hs₃ => Comes.allocate ?_
  have he₃ : e₃.built = d.built := by
    rw [((hs₁.trans hs₂).trans hs₃).built, taken.built]
    rfl
  have hmade := Draft.built_allocated_eq (c := .unit name name none) he₃ rfl line line'
  rw [Draft.size_eq_of_built he₃]
  refine place_rebuilds (fun t => t.setRoot_unlined d.tree.size) (congrArg Draft.tree hmade) placed
    rfl fun tree'' htree => ?_
  -- the unit is open around its items and around the entry block
  refine Comes.bind (Comes.inBlock (Q := fun _ e => e.words = [] ∧ e.built = d₃.closed.closed.built)
    ?_) ?_
  · have hopened := congrArg (Draft.opened · d.tree.size name) (Draft.built_planted_eq he₃ htree)
    refine (hitems' ls.length _ rfl (by simp; omega)).bind hopened h₃ fun e₄ he₄ h₄ => ?_
    refine (entryBlock_rebuilds begun.toSkips entryPlaced hbody' ⟨.end, List.mem_cons_self, rfl⟩
      (by simp; omega)).bind he₄ h₄ fun e₅ he₅ h₅ => ?_
    refine namedEnd_at h₅ fun e₆ h₆ hs₆ => expect_at h₆ fun _ e₇ h₇ hs₇ => Comes.pure ⟨h₇, ?_⟩
    exact congrArg Draft.closed ((hs₆.trans hs₇).built.trans he₅)
  · rintro _ e₄ ⟨h₄, he₄⟩
    refine Comes.get ?_
    rw [List.map_eq_nil_iff.1 h₄]
    refine Comes.pure ⟨rfl, congrArg Draft.tree he₄, ?_, ?_⟩
    · exact Draft.routines_eq_of_built (d := d₃.closed.closed) he₄
    · exact Draft.declared_eq_of_built (d := d₃.closed.closed) he₄

end Primer.Grammar

namespace Primer.Program

open Grammar

/-- A program that is written as tokens is read from them as it was, but for its lines: with the
same nodes and links, with the same ids, and with the same tables.  The tokens may stand on any
lines.  Sizes that were computed are written as literals, so they must fit into one. -/
theorem ofSource_tokens {source : String} {p : Program} (h : ofSource source = .ok p)
    (hsizes : ∀ size ∈ p.arraySizes, size ≤ 2147483647) (ls : List Lexeme)
    (hls : ls.map (·.token) = p.tokens) :
    ∃ q, ofTokens ls = .ok q ∧ q.unlined = p.unlined := by
  obtain ⟨tokens, hscan, hread⟩ := ofTokens_of_ofSource h
  obtain ⟨f, hreads⟩ := ofTokens_reads hread
  rw [hreads.tokens_eq] at hls
  obtain ⟨root, d, hrun, hroot, htree, hroutines, hdeclared⟩ :=
    (hreads.rebuilt (Token.scan_plain hscan) (hreads.all_sizes hsizes) hls).answers
  refine ⟨_, by rw [ofTokens, hrun], ?_⟩
  obtain ⟨tree, routines, declared, root⟩ := p
  obtain rfl : _ = root := hroot
  obtain rfl : _ = routines := hroutines
  obtain rfl : _ = declared := hdeclared
  rw [unlined, unlined, show d.tree.unlined = tree.unlined from htree]

/-- The text of a program with a computed size, the least integer, and branches. -/
def branchText : String :=
  "module m; variable array [1 + 1][3] of integer a;\n" ++
  "beginning if not a[1][0] > 7 then input a[1][2]; else let a[0][0] := 1 - -2147483648 - 2;\n" ++
  "end if; end m."

/-- Written on one line with all its parentheses, the program is read as it was. -/
theorem branchText_tokens : ∃ p q, ofSource branchText = .ok p ∧ p.arraySizes = [2, 3] ∧
    ofTokens (p.tokens.map fun t => ⟨t, 1⟩) = .ok q ∧ q.unlined = p.unlined := by
  have hread : (ofSource branchText).toOption.map arraySizes = some [2, 3] := by decide +kernel
  cases hp : ofSource branchText with
  | error e =>
    rw [hp] at hread
    cases hread
  | ok p =>
    rw [hp] at hread
    have hsizes : p.arraySizes = [2, 3] := Option.some.inj hread
    obtain ⟨q, hq, heq⟩ := ofSource_tokens hp (by rw [hsizes]; decide)
      (p.tokens.map fun t => ⟨t, 1⟩) (by rw [List.map_map]; exact List.map_id _)
    exact ⟨p, q, rfl, hsizes, hq, heq⟩

end Primer.Program
