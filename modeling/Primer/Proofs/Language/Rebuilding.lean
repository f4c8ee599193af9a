import Primer.Proofs.Language.Completeness
import Primer.Proofs.Language.Rereading

/-!
# Primer.Proofs.Language.Rebuilding — a written statement builds what it built.

A reader builds the program while it reads.  `Rebuilds` says that in front of what was written for a
part, and wherever as much is built as was built in front of that part, a reader builds what was
built by it.  `Rebuilt` is this property for every role.  It is proved here for declarations and for
the statements that take one line; their nodes get the positions, and their names the ids, that they
had.

The draft in front of which a part is read again may differ from the first one in its lines and in
the tokens behind the part; what is built of it is the same.  So the condition on a name, that it is
not declared yet, say, or that it may be written, holds there too.  A statement is rebuilt together
with its node, which is attached to the block only by what reads the statement.
-/

namespace Primer.Grammar

variable {α β : Type}

/-- Where as much is built as in `d`, and in front of these tokens, the reader takes the tokens,
gives the answer and builds as much as in `d'`. -/
def Rebuilds (x : Parse α) (d : Draft) (w rest : List Token) (a : α) (d' : Draft) : Prop :=
  ∀ e : Draft, e.built = d.built → e.words = w ++ rest →
    Comes x e (fun b e' => b = a ∧ e'.built = d'.built ∧ e'.words = rest) fun _ => False

/-- A part that is rebuilt, in front of another. -/
theorem Rebuilds.bind {x : Parse α} {f : α → Parse β} {d d' e : Draft} {w rest : List Token} {a : α}
    {Q : β → Draft → Prop} (hx : Rebuilds x d w rest a d') (he : e.built = d.built)
    (hw : e.words = w ++ rest)
    (h : ∀ e', e'.built = d'.built → e'.words = rest → Comes (f a) e' Q fun _ => False) :
    Comes (x >>= f) e Q fun _ => False := by
  refine Comes.bind (hx e he hw) ?_
  rintro _ e' ⟨rfl, he', hw'⟩
  exact h e' he' hw'

/-- A node that is made last of all. -/
theorem allocate_rebuilds {d e : Draft} {c c' : Construct} {rest : List Token} {line line' : Nat}
    {E : ParseFault → Prop} (he : e.built = d.built) (hw : e.words = rest)
    (hc : c'.unlined = c.unlined) :
    Comes (allocate c' line') e (fun b e' => b = d.tree.size ∧
      e'.built = (d.allocated c line).built ∧ e'.words = rest) E :=
  ⟨Draft.size_eq_of_built he, Draft.built_allocated_eq he hc _ _, hw⟩

/-- A placement that does not look at lines succeeds where it did. -/
theorem place_rebuilds {g : Tree → Except TreeFault Tree}
    (hg : ∀ t : Tree, g t.unlined = (g t).map Tree.unlined) {s t tree : Tree}
    (hs : s.unlined = t.unlined) (ht : g t = .ok tree) {d : Draft} (hd : d.tree = s) {line : Nat}
    {f : Unit → Parse β} {Q : β → Draft → Prop}
    (h : ∀ tree', tree'.unlined = tree.unlined → Comes (f ()) (d.planted tree') Q fun _ => False) :
    Comes (place g line >>= f) d Q fun _ => False := by
  have hmap : (g d.tree).map Tree.unlined = .ok tree.unlined := by
    rw [← hg, hd, hs, hg, ht]
    rfl
  refine Comes.place (fun tree' htree' => h tree' ?_) fun cause hcause => ?_
  · rw [htree'] at hmap
    exact Except.ok.inj hmap
  · rw [hcause] at hmap
    cases hmap

/-! ## Declarations -/

variable {v : Names}

/-- The literal of a size gives this size, whatever line it stands on. -/
theorem arraySize_literal {e : Expr} {n : Integer} {size : Nat} (hn : n.val = size)
    (hpos : 0 < size) (he : e.unlined = .literal 0 (.integer n)) : arraySize e = .ok size := by
  cases e with
  | literal line value =>
    obtain ⟨-, rfl⟩ := Expr.literal.inj he
    show (if n.val < 1 then _ else _) = _
    rw [if_neg (by omega), hn]
    rfl
  | _ => cases he

theorem dimensions_restores {bound : Nat} : ∀ {sizes : List Nat},
    (∀ size ∈ sizes, 0 < size ∧ size ≤ 2147483647) → ∀ (more : Nat) (rest : List Token),
    (SlotType.sizeTokens sizes ++ rest).length ≤ bound →
    (SlotType.sizeTokens sizes ++ rest).length ≤ more → EndsPhrase [] rest →
    Restores v (dimensions bound more) (SlotType.sizeTokens sizes) rest (· = sizes) := by
  intro sizes
  induction sizes with
  | nil =>
    intro _ more rest _ _ hends d hv hd
    exact dimensions_end (by rw [hd]; exact hends) ⟨.refl d, hd, rfl⟩
  | cons size sizes ih =>
    intro hsizes more rest hbound hmore hends d hv hd
    obtain ⟨hpos, hle⟩ := hsizes size List.mem_cons_self
    let n : Integer := { val := size }
    have hn : (Expr.literal 0 (.integer n)).tokens = [.integer size] := by
      rw [Expr.tokens, Value.tokens, if_neg (by simp [n])]
      rfl
    simp only [SlotType.sizeTokens, List.cons_append, List.length_cons] at hbound hmore
    cases more with
    | zero => omega
    | succ more =>
      rw [dimensions]
      refine eat_at hd fun d₁ h₁ hs₁ => ?_
      -- A size is written as a literal, which is read and folded to the same number.
      have hsize := restored (.literal 0 (.integer n)) v bound
        (.mark .closeBracket :: (SlotType.sizeTokens sizes ++ rest)) trivial
        (by rw [hn]; exact Nat.le_of_succ_le hbound) (.of_none rfl (by decide) (by decide))
      rw [hn] at hsize
      refine hsize.bind (hs₁.bareNames.trans hv) h₁ fun e d₂ he h₂ hs₂ => ?_
      rw [arraySize_literal rfl hpos he]
      refine expect_at h₂ fun _ d₃ h₃ hs₃ => ?_
      have hs := (hs₁.trans hs₂).trans hs₃
      have hlater := ih (fun s h => hsizes s (List.mem_cons_of_mem _ h)) more rest (by omega)
        (by omega) hends
      refine hlater.bind (hs.bareNames.trans hv) h₃ fun found d₄ hfound h₄ hs₄ => ?_
      exact Comes.pure ⟨hs.trans hs₄, h₄, congrArg (size :: ·) hfound⟩

/-- What is found of a declaration in front of its semicolon: the type, the name, and what is stored
at first, but for the lines in it. -/
theorem declarator_restores {bound line : Nat} {x : Declaration}
    (hsound : (Construct.declaration x).Sound v)
    (hsizes : ∀ size ∈ (Construct.declaration x).sizes, size ≤ 2147483647) {rest : List Token}
    (hbound : (x.type.tokens ++ .identifier x.name ::
      (x.initializer.tokens ++ .mark .semicolon :: rest)).length ≤ bound) :
    Restores v (declarator bound line)
      (x.type.tokens ++ .identifier x.name :: x.initializer.tokens) (.mark .semicolon :: rest)
      (fun found => found.1 = x.type ∧ found.2.1 = x.name ∧
        found.2.2.unlined = x.initializer.unlined) := by
  intro d hv hd
  obtain ⟨type, name, id, initializer⟩ := x
  obtain ⟨hproper, hinitial⟩ := hsound
  cases type with
  | scalar type =>
    refine eat_not (by rw [hd]; exact fun heq => by cases heq) ?_
    refine scalarType_at hd fun d₁ h₁ hs₁ => identifier_at h₁ fun d₂ h₂ hs₂ => ?_
    have hs := hs₁.trans hs₂
    cases initializer with
    | computed e =>
      refine eat_at h₂ fun d₃ h₃ hs₃ => ?_
      have he := restored e v bound (.mark .semicolon :: rest) hinitial.2
        (by simp [Initializer.tokens, SlotType.tokens] at hbound ⊢; omega)
        (.of_none rfl (by decide) (by decide))
      refine he.bind ((hs.trans hs₃).bareNames.trans hv) h₃ fun a d₄ ha h₄ hs₄ => ?_
      exact Comes.pure ⟨(hs.trans hs₃).trans hs₄, h₄, rfl, rfl,
        congrArg Initializer.computed ha⟩
    | fixed value =>
      -- A fixed value is the initial one of its type, and it is not written out.
      obtain rfl : value = .initial type := hinitial
      refine eat_not (by rw [h₂]; exact fun heq => by cases heq) ?_
      exact Comes.pure ⟨hs, h₂, rfl, rfl, rfl⟩
  | array element sizes =>
    cases initializer with
    | computed e =>
      -- An array has no computed initializer.
      obtain ⟨⟨t, ht⟩, -⟩ := hinitial
      cases ht
    | fixed value =>
      obtain rfl : value = (SlotType.array element sizes).initial := hinitial
      have hd : d.words = .word .array :: (SlotType.sizeTokens sizes ++ .word .of ::
          .word (.scalar element) :: .identifier name :: .mark .semicolon :: rest) := by
        simpa [SlotType.tokens, Initializer.tokens] using hd
      have hlength : (SlotType.sizeTokens sizes ++ .word .of :: .word (.scalar element) ::
          .identifier name :: .mark .semicolon :: rest).length ≤ bound := by
        simp [SlotType.tokens, Initializer.tokens] at hbound ⊢
        omega
      refine eat_at hd fun d₁ h₁ hs₁ => ?_
      have hdimensions := dimensions_restores (v := v)
        (fun size h => ⟨hproper.2 size h, hsizes size h⟩) bound _ hlength hlength
        (.of_none rfl (by decide) (by decide))
      refine hdimensions.bind (hs₁.bareNames.trans hv) h₁ fun found d₂ hfound h₂ hs₂ => ?_
      obtain rfl : found = sizes := hfound
      rw [if_neg (by simpa using hproper.1)]
      refine expect_at h₂ fun _ d₃ h₃ hs₃ => ?_
      refine scalarType_at h₃ fun d₄ h₄ hs₄ => identifier_at h₄ fun d₅ h₅ hs₅ => Comes.pure ?_
      exact ⟨(((hs₁.trans hs₂).trans hs₃).trans hs₄).trans hs₅, h₅, rfl, rfl, rfl⟩

/-! ## What everything is read as again -/

/-- The tokens start with a keyword, and the reader of that keyword reads them as what was read. -/
def RebuildsStatement (d : Draft) (w : List Token) (d' : Draft) : Prop :=
  ∃ k u, w = .word k :: u ∧ ∀ bound, ∃ x, statement? (block bound) bound k = some x ∧
    ∀ rest, (u ++ rest).length ≤ bound → Rebuilds x d w rest d.tree.size d'

/-- What the reader for a role does in front of what was written for a forest, if it has steps
enough left and what follows ends that part of the text. -/
def Rebuilt (d : Draft) (f : Forest) (d' : Draft) : Role → Prop
  | .declaration => ∀ (bound : Nat) (rest : List Token), (f.tokens ++ rest).length ≤ bound + 1 →
    Rebuilds (declaration bound) d f.tokens rest d.tree.size d'
  | .statement => RebuildsStatement d f.tokens d'
  | .routine => ∀ (bound : Nat) (rest : List Token), (f.tokens ++ rest).length ≤ bound + 1 →
    Rebuilds (routine (block bound) bound) d f.tokens rest () (d'.attached d.tree.size)
  | .body => ∀ (bound : Nat) (terminators : List Keyword) (rest : List Token),
    Terminates terminators → EndsBlock terminators rest → (f.tokens ++ rest).length ≤ bound →
    Rebuilds (block bound terminators) d f.tokens rest () d'
  | .items => ∀ (bound : Nat) (rest : List Token), rest.head? = some (.word .beginning) →
    (f.tokens ++ rest).length ≤ bound → Rebuilds (unitItems bound) d f.tokens rest () d'
  | .branches conditional => ∀ (bound more : Nat) (rest : List Token) (e : Draft),
    rest.head? = some (.word .end) → (f.tokens ++ rest).length ≤ bound →
    (f.tokens ++ rest).length ≤ more → e.built = d.built → e.words = f.tokens ++ rest →
    Comes (elseIfs (block bound) bound conditional more) e (fun _ e₁ =>
      Comes (otherwise (block bound) conditional) e₁ (fun _ e' =>
        e'.built = d'.built ∧ e'.words = rest) fun _ => False) fun _ => False

theorem declaration_rebuilds {d d₁ : Draft} {line : Nat} {x : Declaration} (taken : d.Skips d₁)
    (sound : (Construct.declaration x).Sound d.bareNames)
    (id_eq : x.id = Name.qualify d.scope x.name) (new : d.declared.contains x.id = false)
    (hsizes : ∀ size ∈ (Construct.declaration x).sizes, size ≤ 2147483647) :
    Rebuilt d (.leaf (.declaration x) line)
      ((d₁.registered x.fresh).allocated (.declaration x) line) .declaration := by
  intro bound rest hlength e he hw
  simp only [Forest.leaf, Forest.tokens, Construct.opening, Construct.closing, List.append_nil]
    at hlength hw
  have hw : e.words = .word .variable :: ((x.type.tokens ++ .identifier x.name ::
      x.initializer.tokens) ++ .mark .semicolon :: rest) := by
    simpa using hw
  have hbound : (x.type.tokens ++ .identifier x.name ::
      (x.initializer.tokens ++ .mark .semicolon :: rest)).length ≤ bound := by
    simp at hlength ⊢
    omega
  refine expect_at hw fun line' e₁ h₁ hs₁ => ?_
  refine (declarator_restores sound hsizes hbound).bind
    (hs₁.bareNames.trans (Draft.bareNames_eq he)) h₁ fun found e₂ hfound h₂ hs₂ => ?_
  obtain ⟨type, name, initializer⟩ := found
  obtain ⟨htype, hname, hinitializer⟩ := hfound
  obtain rfl : type = x.type := htype
  obtain rfl : name = x.name := hname
  refine expect_at h₂ fun _ e₃ h₃ hs₃ => Comes.get ?_
  have he₃ : e₃.built = d₁.built := by
    rw [((hs₁.trans hs₂).trans hs₃).built, he, taken.built]
  have hid : Name.qualify e₃.scope x.name = x.id := by
    rw [id_eq, Draft.scope_eq_of_built (he₃.trans taken.built)]
  have hfree : e₃.declared.contains x.id = false := by
    rw [Draft.declared_eq_of_built he₃, taken.declared, new]
  -- the variable is as new as it was, so it is registered before its node is made
  dsimp only
  rw [hid, hfree, if_neg Bool.false_ne_true]
  refine Comes.set (d := e₃) ?_
  have hx : (Construct.declaration { x with initializer }).unlined
      = (Construct.declaration x).unlined := by
    show Construct.declaration _ = Construct.declaration _
    rw [← hinitializer]
  rw [← taken.tree]
  exact allocate_rebuilds (Draft.built_registered_eq he₃ x.fresh) h₃ hx

/-! ## Simple statements -/

theorem target_restores (bound line : Nat) {id : String} {indices : List Expr}
    (hid : v.writes id) (hsound : Expr.SoundList v indices) (rest : List Token)
    (hlength : (Expr.indexTokens indices ++ rest).length ≤ bound) (hends : EndsPhrase [] rest) :
    Restores v (target bound line) (Construct.targetTokens id indices) rest
      (fun found => found.1 = id ∧ Expr.unlinedList found.2 = Expr.unlinedList indices) := by
  intro d hv hd
  refine identifier_at hd fun d₁ h₁ hs₁ => ?_
  have hv₁ := hs₁.bareNames.trans hv
  refine resolveWritable_at (hv₁ ▸ hid) ?_
  refine (indices_restores hsound bound rest hlength hlength hends).bind hv₁
    h₁ fun found d₂ hfound h₂ hs₂ => ?_
  exact Comes.pure ⟨hs₁.trans hs₂, h₂, rfl, hfound⟩

/-- The last step of a simple statement, in front of its semicolon. -/
theorem finish_rebuilds {d d₁ e : Draft} {c c' : Construct} {rest : List Token} {line line' : Nat}
    (taken : d.Skips d₁) (he : e.built = d.built) (hw : e.words = .mark .semicolon :: rest)
    (hc : c'.unlined = c.unlined) :
    Comes (do
      let _ ← expect (.mark .semicolon)
      allocate c' line') e (fun b e' => b = d.tree.size ∧
        e'.built = (d₁.allocated c line).built ∧ e'.words = rest) fun _ => False := by
  refine expect_at hw fun _ e₁ h₁ hs₁ => ?_
  rw [← taken.tree]
  exact allocate_rebuilds (hs₁.built.trans (he.trans taken.built.symm)) h₁ hc

/-- An assignment is rebuilt if its target and its value are sound. -/
theorem assignment_rebuilds {d d₁ : Draft} {line : Nat} {target : String} {indices : List Expr}
    {value : Expr} (taken : d.Skips d₁) (htarget : d.bareNames.writes target)
    (hindices : Expr.SoundList d.bareNames indices) (hvalue : value.Sound d.bareNames) :
    RebuildsStatement d (Construct.assignment target indices value).opening
      (d₁.allocated (.assignment target indices value) line) := by
  refine ⟨_, _, rfl, fun bound => ⟨_, rfl, fun rest hlength e he hw => ?_⟩⟩
  have hw : e.words = .word .let :: (Construct.targetTokens target indices ++
      .mark .assign :: (value.tokens ++ .mark .semicolon :: rest)) := by
    simpa [Construct.opening] using hw
  simp only [Construct.targetTokens, List.cons_append, List.append_assoc, List.length_cons,
    List.length_append, List.length_nil] at hlength
  refine expect_at hw fun line' e₁ h₁ hs₁ => ?_
  have hv₁ := hs₁.bareNames.trans (Draft.bareNames_eq he)
  have hfirst := target_restores bound line' htarget hindices
    (.mark .assign :: (value.tokens ++ .mark .semicolon :: rest)) (by simp; omega)
    (.of_none rfl (by decide) (by decide))
  refine hfirst.bind hv₁ h₁ fun found e₂ hfound h₂ hs₂ => expect_at h₂ fun _ e₃ h₃ hs₃ => ?_
  obtain ⟨id, path⟩ := found
  obtain ⟨hid, hpath⟩ := hfound
  obtain rfl : id = target := hid
  have hs := (hs₁.trans hs₂).trans hs₃
  have hlater := restored value d.bareNames bound (.mark .semicolon :: rest) hvalue
    (by simp; omega) (.of_none rfl (by decide) (by decide))
  refine hlater.bind (hs.bareNames.trans (Draft.bareNames_eq he)) h₃ fun a e₄ ha h₄ hs₄ => ?_
  refine finish_rebuilds taken ((hs.trans hs₄).built.trans he) h₄ ?_
  show Construct.assignment _ _ _ = Construct.assignment _ _ _
  rw [hpath, ha]

theorem callStatement_rebuilds {d d₁ : Draft} {line : Nat} {name : String} {heading : Heading}
    {as : List Argument} (taken : d.Skips d₁) (hc : d.bareNames.callable name = some heading)
    (hfit : Expr.Fit d.bareNames heading.parameters as) :
    RebuildsStatement d (Construct.call name as).opening (d₁.allocated (.call name as) line) := by
  refine ⟨_, _, rfl, fun bound => ⟨_, rfl, fun rest hlength e he hw => ?_⟩⟩
  have hw : e.words = .word .call :: .identifier name :: ((.mark .openParen ::
      Token.listed (Expr.argumentTokens as)) ++ .mark .semicolon :: rest) := by
    simpa [Construct.opening] using hw
  refine expect_at hw fun line' e₁ h₁ hs₁ => identifier_at h₁ fun e₂ h₂ hs₂ => ?_
  have hs := hs₁.trans hs₂
  have hgiven := arguments_restores line' hc hfit bound (.mark .semicolon :: rest)
    (by simp at hlength ⊢; omega)
  refine hgiven.bind (hs.bareNames.trans (Draft.bareNames_eq he)) h₂
    fun found e₃ hfound h₃ hs₃ => ?_
  exact finish_rebuilds taken ((hs.trans hs₃).built.trans he) h₃
    (congrArg (Construct.call name) hfound)

theorem inputStatement_rebuilds {d d₁ : Draft} {line : Nat} {target : String} {indices : List Expr}
    (taken : d.Skips d₁) (htarget : d.bareNames.writes target)
    (hindices : Expr.SoundList d.bareNames indices) :
    RebuildsStatement d (Construct.input target indices).opening
      (d₁.allocated (.input target indices) line) := by
  refine ⟨_, _, rfl, fun bound => ⟨_, rfl, fun rest hlength e he hw => ?_⟩⟩
  have hw : e.words = .word .input :: (Construct.targetTokens target indices ++
      .mark .semicolon :: rest) := by
    simpa [Construct.opening] using hw
  refine expect_at hw fun line' e₁ h₁ hs₁ => ?_
  have hv₁ := hs₁.bareNames.trans (Draft.bareNames_eq he)
  have hfirst := target_restores bound line' htarget hindices (.mark .semicolon :: rest)
    (by simp [Construct.targetTokens] at hlength ⊢; omega)
    (.of_none rfl (by decide) (by decide))
  refine hfirst.bind hv₁ h₁ fun found e₂ hfound h₂ hs₂ => ?_
  obtain ⟨id, path⟩ := found
  obtain ⟨hid, hpath⟩ := hfound
  obtain rfl : id = target := hid
  exact finish_rebuilds taken ((hs₁.trans hs₂).built.trans he) h₂
    (congrArg (Construct.input id) hpath)

theorem outputStatement_rebuilds {d d₁ : Draft} {line : Nat} {value : Expr} (taken : d.Skips d₁)
    (hvalue : value.Sound d.bareNames) :
    RebuildsStatement d (Construct.output value).opening (d₁.allocated (.output value) line) := by
  refine ⟨_, _, rfl, fun bound => ⟨_, rfl, fun rest hlength e he hw => ?_⟩⟩
  rw [List.append_assoc] at hlength
  have hw : e.words = .word .output :: (value.tokens ++ .mark .semicolon :: rest) := by
    simpa [Construct.opening] using hw
  refine expect_at hw fun line' e₁ h₁ hs₁ => ?_
  have hlater := restored value d.bareNames bound (.mark .semicolon :: rest) hvalue hlength
    (.of_none rfl (by decide) (by decide))
  refine hlater.bind (hs₁.bareNames.trans (Draft.bareNames_eq he)) h₁ fun a e₂ ha h₂ hs₂ => ?_
  exact finish_rebuilds taken ((hs₁.trans hs₂).built.trans he) h₂ (congrArg Construct.output ha)

theorem bareReturn_rebuilds {d d₁ : Draft} {line : Nat} {heading : Heading} (taken : d.Skips d₁)
    (hheading : d.bareNames.heading = some heading) (hresult : heading.result = none) :
    RebuildsStatement d (Construct.result none).opening (d₁.allocated (.result none) line) := by
  refine ⟨_, _, rfl, fun bound => ⟨_, rfl, fun rest _ e he hw => ?_⟩⟩
  have hw : e.words = .word .return :: .mark .semicolon :: rest := hw
  refine expect_at hw fun line' e₁ h₁ hs₁ => Comes.get ?_
  have he₁ := hs₁.built.trans he
  rw [show e₁.enclosing? = d.bareNames.heading from congrArg Names.heading (Draft.bareNames_eq he₁),
    hheading]
  refine Comes.peek ?_
  have hbare : e₁.words.head? = some (.mark .semicolon) := by rw [h₁]; rfl
  rw [hbare, hresult]
  exact finish_rebuilds taken he₁ h₁ rfl

theorem return_rebuilds {d d₁ : Draft} {line : Nat} {heading : Heading} {type : Scalar}
    {value : Expr} (taken : d.Skips d₁) (hheading : d.bareNames.heading = some heading)
    (hresult : heading.result = some type) (hvalue : value.Sound d.bareNames) :
    RebuildsStatement d (Construct.result (some value)).opening
      (d₁.allocated (.result (some value)) line) := by
  refine ⟨_, _, rfl, fun bound => ⟨_, rfl, fun rest hlength e he hw => ?_⟩⟩
  rw [List.append_assoc] at hlength
  have hw : e.words = .word .return :: (value.tokens ++ .mark .semicolon :: rest) := by
    simpa [Construct.opening] using hw
  refine expect_at hw fun line' e₁ h₁ hs₁ => Comes.get ?_
  have he₁ := hs₁.built.trans he
  rw [show e₁.enclosing? = d.bareNames.heading from congrArg Names.heading (Draft.bareNames_eq he₁),
    hheading]
  refine Comes.peek ?_
  -- no expression starts with the semicolon of a bare return
  have hnotBare : ¬ e₁.words.head? = some (.mark .semicolon) := by
    obtain ⟨t, w, htokens, ht⟩ := exists_tokens_cons hvalue
    rw [h₁, htokens]
    intro heq
    obtain rfl : t = .mark .semicolon := Option.some.inj heq
    rcases ht with ht | ht <;> cases ht
  rw [decide_eq_false hnotBare, hresult]
  have hread := restored value d.bareNames bound (.mark .semicolon :: rest) hvalue hlength
    (.of_none rfl (by decide) (by decide)) e₁ (Draft.bareNames_eq he₁) h₁
  refine Comes.bind (P := fun found e₂ => e₁.Skips e₂ ∧ e₂.words = .mark .semicolon :: rest ∧
    found.map Expr.unlined = some value.unlined) (Comes.map (hread.imp ?_ fun _ hf => hf)) ?_
  · rintro a e₂ ⟨hs₂, h₂, ha⟩
    exact ⟨hs₂, h₂, congrArg some ha⟩
  · rintro found e₂ ⟨hs₂, h₂, hfound⟩
    exact finish_rebuilds taken (hs₂.built.trans he₁) h₂ (congrArg Construct.result hfound)

theorem simple_rebuilds {d d₁ : Draft} {line : Nat} {c : Construct} (taken : d.Skips d₁)
    (kind : c.IsSimple) (sound : c.Sound d.bareNames) :
    Rebuilt d (.leaf c line) (d₁.allocated c line) .statement := by
  have hclosing : c.closing = [] := by
    cases c <;> first | rfl | exact kind.elim
  show RebuildsStatement d (c.opening ++ ([] ++ ([] ++ (c.closing ++ [])))) _
  rw [hclosing, List.nil_append, List.nil_append, List.append_nil, List.append_nil]
  cases c with
  | assignment => exact assignment_rebuilds taken sound.1 sound.2.1 sound.2.2
  | call =>
    obtain ⟨heading, hc, hfit⟩ := sound
    exact callStatement_rebuilds taken hc hfit
  | input => exact inputStatement_rebuilds taken sound.1 sound.2
  | output => exact outputStatement_rebuilds taken sound
  | result value =>
    cases value with
    | none =>
      obtain ⟨heading, hheading, hresult⟩ := sound
      exact bareReturn_rebuilds taken hheading hresult
    | some value =>
      obtain ⟨⟨heading, type, hheading, hresult⟩, hvalue⟩ := sound
      exact return_rebuilds taken hheading hresult hvalue
  | _ => exact kind.elim

end Primer.Grammar
