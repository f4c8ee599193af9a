import Primer.Proofs.Language.Built
import Primer.Proofs.Language.Expected
import Primer.Proofs.Language.Unparse

/-!
# Primer.Proofs.Language.Rereading — a written expression is read as what it was.

The tokens of an expression that is sound for some names are read, wherever just these names are
known, as the same expression, with the ids that it had.  Only the lines are new.  The induction is
on the expression: an operand stands in parentheses, so no reader goes on behind its closing one.

There is more than one way of writing an expression, and what is inside brackets and parentheses is
read back in the same way for each.  So the lemmas on indices, elements and calls are about any
`Writing`.

`Restores v x w rest P` says that, in front of the tokens `w` with `rest` behind them and with the
names `v` known, the reader `x` takes just `w` and answers something with the property `P`, mostly
that it is the expression up to lines.  The bound must be as large as the number of tokens, which is
what the readers are started with.
-/

namespace Primer.Grammar

variable {α β : Type} {v : Names}

/-- Taking tokens changes nothing that is known of names. -/
theorem Draft.Skips.bareNames {d d' : Draft} (h : d.Skips d') : d'.bareNames = d.bareNames :=
  Draft.bareNames_eq h.built

/-- In front of these tokens, and where these names are known, the reader takes the tokens and
answers what has the property. -/
def Restores (v : Names) (x : Parse α) (w rest : List Token) (P : α → Prop) : Prop :=
  ∀ d : Draft, d.bareNames = v → d.words = w ++ rest →
    Comes x d (fun a d' => d.Skips d' ∧ d'.words = rest ∧ P a) fun _ => False

/-- A part that is read back, in front of another reader. -/
theorem Restores.bind {x : Parse α} {f : α → Parse β} {w rest : List Token} {P : α → Prop}
    {d : Draft} {Q : β → Draft → Prop} (hx : Restores v x w rest P) (hv : d.bareNames = v)
    (hd : d.words = w ++ rest)
    (h : ∀ a d', P a → d'.words = rest → d.Skips d' → Comes (f a) d' Q fun _ => False) :
    Comes (x >>= f) d Q fun _ => False := by
  refine Comes.bind (hx d hv hd) ?_
  rintro a d' ⟨hs, hrest, ha⟩
  exact h a d' ha hrest hs

/-- What follows may stand behind an item of a list. -/
def FollowsItem (rest : List Token) : Prop :=
  ∃ m more, rest = .mark m :: more ∧ (m = .comma ∨ m = .closeParen)

theorem FollowsItem.endsPhrase {rest : List Token} (h : FollowsItem rest) (layers : List Layer) :
    EndsPhrase layers rest := by
  obtain ⟨m, more, rfl, rfl | rfl⟩ := h <;> exact .of_none rfl (by decide) (by decide)

/-! ## Names -/

section

variable {d : Draft} {Q : β → Draft → Prop} {E : ParseFault → Prop} {id : String} {line : Nat}

/-- A name that may be read is resolved to its id. -/
theorem resolve_at (h : d.bareNames.reads id) {f : String → Parse β} (hf : Comes (f id) d Q E) :
    Comes (resolve (Name.bare id) line >>= f) d Q E := by
  refine Comes.bind (P := fun found d' => found = id ∧ d' = d) (Comes.get ?_) ?_
  · rw [show d.resolve? (Name.bare id) = some id from h]
    exact Comes.pure ⟨rfl, rfl⟩
  · rintro found d' ⟨rfl, rfl⟩
    exact hf

theorem resolveWritable_at (h : d.bareNames.writes id) {f : String → Parse β}
    (hf : Comes (f id) d Q E) : Comes (resolveWritable (Name.bare id) line >>= f) d Q E := by
  refine Comes.bind (P := fun found d' => found = id ∧ d' = d) ?_ ?_
  · refine resolve_at h.1 (Comes.get ?_)
    rw [h.2]
    exact Comes.pure ⟨rfl, rfl⟩
  · rintro found d' ⟨rfl, rfl⟩
    exact hf

theorem callable_at {name : String} {heading : Heading}
    (h : d.bareNames.callable name = some heading) {f : Heading → Parse β}
    (hf : Comes (f heading) d Q E) : Comes (callable name line >>= f) d Q E := by
  refine Comes.bind (P := fun found d' => found = heading ∧ d' = d) (Comes.get ?_) ?_
  · rw [show d.callable? name = some heading from h]
    exact Comes.pure ⟨rfl, rfl⟩
  · rintro found d' ⟨rfl, rfl⟩
    exact hf

/-- A literal in range is read as itself. -/
theorem integerLiteral_at {n : Integer} {i : Int} (hi : i = n.val) {digitsLine : Nat}
    {Q : Expr → Draft → Prop} (h : Q (.literal line (.integer n)) d) :
    Comes (integerLiteral i line digitsLine) d Q E := by
  rw [integerLiteral, hi, Integer.ofInt?_val]
  exact Comes.pure h

end

/-! ## Operators -/

/-- The token of an operator is read as the operator. -/
theorem binaryOp?_token (op : BinaryOp) : binaryOp? op.token = some op := by
  cases op <;> rfl

theorem EndsPhrase.operator {op : BinaryOp} {layers : List Layer} (h : op.layer ∉ layers)
    (rest : List Token) : EndsPhrase layers (op.token :: rest) := by
  rintro _ ⟨⟩
  refine ⟨by cases op <;> decide, by cases op <;> decide, fun op' hop => ?_⟩
  rw [binaryOp?_token] at hop
  cases hop
  exact h

/-- An operand is an expression of any layers, if nothing goes on behind it. -/
theorem layered_restores {bound : Nat} {w rest : List Token} {P : Expr → Prop}
    (h : Restores v (operand bound) w rest P) : ∀ layers : List Layer, EndsPhrase layers rest →
      Restores v (layered (operand bound) bound layers) w rest P := by
  intro layers
  induction layers with
  | nil => exact fun _ => h
  | cons layer tighter ih =>
    intro hends d hv hd
    rw [layered]
    refine (ih (hends.mono (List.subset_cons_self _ _))).bind hv hd fun a d₁ ha h₁ hs₁ => ?_
    exact operations_end (h₁ ▸ hends) ⟨hs₁, h₁, ha⟩

/-- One operator between two operands is read in its own layer, and then no other one is there. -/
theorem operation_restores {bound : Nat} {op : BinaryOp} {w u rest : List Token}
    {P R S : Expr → Prop} (hlength : (w ++ op.token :: (u ++ rest)).length ≤ bound)
    (left : Restores v (operand bound) w (op.token :: (u ++ rest)) P)
    (right : Restores v (operand bound) u rest R)
    (h : ∀ line l r, P l → R r → S (.binary line op l r)) :
    ∀ layers : List Layer, layers.Nodup → op.layer ∈ layers → EndsPhrase layers rest →
      Restores v (layered (operand bound) bound layers) (w ++ op.token :: u) rest S := by
  intro layers
  induction layers with
  | nil => exact fun _ hmem => by cases hmem
  | cons layer tighter ih =>
    intro hnodup hmem hends d hv hd
    obtain ⟨hlayer, hnodup'⟩ := List.nodup_cons.1 hnodup
    have htighter := hends.mono (List.subset_cons_self layer tighter)
    rw [layered]
    rcases List.mem_cons.1 hmem with rfl | hmem
    · -- this is the layer of the operator
      have hd : d.words = w ++ op.token :: (u ++ rest) := by
        rw [hd, List.append_assoc, List.cons_append]
      have hfirst := layered_restores left tighter (.operator hlayer _)
      refine hfirst.bind hv hd fun l d₁ hl h₁ hs₁ => ?_
      rw [List.length_append, List.length_cons] at hlength
      obtain ⟨more, rfl⟩ : ∃ more, bound = more + 1 := ⟨bound - 1, by omega⟩
      rw [operations]
      refine operator?_at h₁ (binaryOp?_token op) rfl (advance_at h₁ fun t d₂ _ h₂ hs₂ => ?_)
      have hs := hs₁.trans hs₂
      refine (layered_restores right tighter htighter).bind (hs.bareNames.trans hv) h₂
        fun r d₃ hr h₃ hs₃ => ?_
      exact operations_end (h₃ ▸ hends) ⟨hs.trans hs₃, h₃, h _ _ _ hl hr⟩
    · refine (ih hnodup' hmem htighter).bind hv hd fun e d₁ he h₁ hs₁ => ?_
      exact operations_end (h₁ ▸ hends) ⟨hs₁, h₁, he⟩

/-! ## Ways of writing -/

/-- A way of writing expressions: the tokens of an expression, and what is read back from them,
apart from its lines. -/
structure Writing where
  tokens : Expr → List Token
  image : Expr → Expr

namespace Writing

/-- The tokens of an argument. -/
def argumentTokens (s : Writing) : Argument → List Token
  | .value e => s.tokens e
  | .reference _ id => [.identifier (Name.bare id)]

/-- What is read back from the tokens of an argument. -/
def argumentImage (s : Writing) : Argument → Argument
  | .value e => .value (s.image e)
  | .reference _ id => .reference 0 id

/-- The expression is read back from its tokens, wherever what it names is known. -/
def Restored (s : Writing) (e : Expr) : Prop :=
  ∀ (v : Names) (bound : Nat) (rest : List Token), e.Sound v →
    (s.tokens e ++ rest).length ≤ bound → EndsPhrase Layer.all rest →
    Restores v (expression bound) (s.tokens e) rest (·.unlined = s.image e)

/-- The expression of an argument by value is read back. -/
def RestoredArgument (s : Writing) : Argument → Prop
  | .value e => s.Restored e
  | .reference .. => True

/-- The tokens of a sound expression start like one. -/
def Opening (s : Writing) : Prop :=
  ∀ (v : Names) (e : Expr), e.Sound v → ∃ t w, s.tokens e = t :: w ∧ Opens t

/-- All operands in parentheses. -/
def enclosed : Writing := ⟨Expr.tokens, Expr.unlined⟩

end Writing

/-! ## Operands -/

/-- The expression is read from its tokens as it was, wherever what it names is known: this is
`Writing.enclosed.Restored`, written out. -/
def Restored (e : Expr) : Prop :=
  ∀ (v : Names) (bound : Nat) (rest : List Token), e.Sound v →
    (e.tokens ++ rest).length ≤ bound → EndsPhrase Layer.all rest →
    Restores v (expression bound) e.tokens rest (·.unlined = e.unlined)

/-- An operand that starts with no unary operator is a primary. -/
theorem operand_restores {bound : Nat} {t : Token} {w rest : List Token} {P : Expr → Prop}
    (hminus : t ≠ .mark .minus) (hnot : t ≠ .word .not) (hlength : (t :: w ++ rest).length ≤ bound)
    (h : ∀ more, (w ++ rest).length ≤ more →
      Restores v (primary (expression more) more) (t :: w) rest P) :
    Restores v (operand bound) (t :: w) rest P := by
  intro d hv hd
  cases bound with
  | zero => cases hlength
  | succ more =>
    have hprimary := h more (Nat.le_of_succ_le_succ hlength) d hv hd
    rw [operand]
    refine Comes.peek ?_
    rw [hd]
    split
    · rename_i heq
      exact absurd (Option.some.inj heq) hminus
    · rename_i heq
      exact absurd (Option.some.inj heq) hnot
    · exact hprimary

/-- What stands in parentheses is an operand. -/
theorem inside_restores {bound : Nat} {w rest : List Token} {P : Expr → Prop}
    (hlength : (Token.parenthesized w ++ rest).length ≤ bound)
    (h : ∀ more, (w ++ .mark .closeParen :: rest).length ≤ more →
      Restores v (expression more) w (.mark .closeParen :: rest) P) :
    Restores v (operand bound) (Token.parenthesized w) rest P := by
  refine operand_restores (by decide) (by decide) hlength fun more hmore d hv hd => ?_
  have hd : d.words = .mark .openParen :: (w ++ .mark .closeParen :: rest) := by
    simpa using hd
  rw [List.append_assoc] at hmore
  refine advance_at hd fun l d₁ hl h₁ hs₁ => ?_
  rw [hl]
  refine (h more hmore).bind (hs₁.bareNames.trans hv) h₁ fun a d₂ ha h₂ hs₂ => ?_
  exact expect_at h₂ fun _ d₃ h₃ hs₃ => Comes.pure ⟨(hs₁.trans hs₂).trans hs₃, h₃, ha⟩

/-- A minus in front of an operand that starts with no integer is an operator. -/
theorem negation_restores {bound : Nat} {t : Token} {w rest : List Token} {P S : Expr → Prop}
    (ht : ∀ n, t ≠ .integer n) (h : Restores v (operand bound) (t :: w) rest P)
    (hS : ∀ line e, P e → S (.unary line .negate e)) :
    Restores v (operand (bound + 1)) (.mark .minus :: t :: w) rest S := by
  intro d hv hd
  rw [operand]
  refine Comes.peek ?_
  rw [hd]
  refine advance_at hd fun sign d₁ _ h₁ hs₁ => Comes.peek ?_
  rw [h₁]
  split
  · rename_i heq
    exact absurd (Option.some.inj heq) (ht _)
  · refine h.bind (hs₁.bareNames.trans hv) h₁ fun e d₂ he h₂ hs₂ => ?_
    exact Comes.pure ⟨hs₁.trans hs₂, h₂, hS _ e he⟩

/-- A complement is read back if its operand is. -/
theorem complement_restores {bound : Nat} {w rest : List Token} {P S : Expr → Prop}
    (h : Restores v (operand bound) w rest P) (hS : ∀ line e, P e → S (.unary line .not e)) :
    Restores v (operand (bound + 1)) (.word .not :: w) rest S := by
  intro d hv hd
  rw [operand]
  refine Comes.peek ?_
  rw [hd]
  refine advance_at hd fun sign d₁ _ h₁ hs₁ => ?_
  refine h.bind (hs₁.bareNames.trans hv) h₁ fun e d₂ he h₂ hs₂ => ?_
  exact Comes.pure ⟨hs₁.trans hs₂, h₂, hS _ e he⟩

theorem parenthesized_restores {e : Expr} (h : Restored e) (hsound : e.Sound v) {bound : Nat}
    {rest : List Token} (hlength : (Token.parenthesized e.tokens ++ rest).length ≤ bound) :
    Restores v (operand bound) (Token.parenthesized e.tokens) rest (·.unlined = e.unlined) :=
  inside_restores hlength fun more hmore =>
    h v more _ hsound hmore (.of_none rfl (by decide) (by decide))

/-- A minus directly in front of an integer belongs to the literal. -/
theorem negative_restores {n : Integer} {k : Nat} (hn : n.val = -k) {bound : Nat}
    {rest : List Token} (hlength : (.mark .minus :: .integer k :: rest).length ≤ bound) :
    Restores v (operand bound) [.mark .minus, .integer k] rest
      (·.unlined = .literal 0 (.integer n)) := by
  intro d _ hd
  cases bound with
  | zero => cases hlength
  | succ more =>
    rw [operand]
    refine Comes.peek ?_
    rw [hd]
    refine advance_at hd fun sign d₁ _ h₁ hs₁ => Comes.peek ?_
    rw [h₁]
    refine advance_at h₁ fun digits d₂ _ h₂ hs₂ => ?_
    exact integerLiteral_at hn.symm ⟨hs₁.trans hs₂, h₂, rfl⟩

theorem literal_restores {value : Value} (hvalue : value.IsLiteral) {bound : Nat}
    {rest : List Token} (hlength : (value.tokens ++ rest).length ≤ bound) :
    Restores v (operand bound) value.tokens rest (·.unlined = .literal 0 value) := by
  cases value with
  | integer n =>
    rw [Value.tokens] at hlength ⊢
    by_cases hneg : n.val < 0
    · rw [if_pos hneg] at hlength ⊢
      exact negative_restores (by omega) hlength
    · rw [if_neg hneg] at hlength ⊢
      refine operand_restores (by simp) (by simp) hlength fun more _ d hv hd => ?_
      refine advance_at hd fun l d₁ hl h₁ hs₁ => ?_
      rw [hl]
      exact integerLiteral_at (by omega) ⟨hs₁, h₁, rfl⟩
  | real x =>
    refine operand_restores (by simp) (by simp) hlength fun more _ d hv hd => ?_
    refine advance_at hd fun l d₁ hl h₁ hs₁ => ?_
    rw [hl]
    dsimp only
    rw [if_pos (show Real.isFinite x = true from hvalue)]
    exact Comes.pure ⟨hs₁, h₁, rfl⟩
  | boolean | char | string =>
    refine operand_restores (by simp) (by simp) hlength fun more _ d hv hd => ?_
    refine advance_at hd fun l d₁ hl h₁ hs₁ => ?_
    rw [hl]
    exact Comes.pure ⟨hs₁, h₁, rfl⟩
  | array => exact hvalue.elim

/-! ## Indices -/

/-- An index in front of more of them. -/
theorem index_restores {bound more : Nat} {w u rest : List Token} {P : Expr → Prop}
    {R S : List Expr → Prop}
    (first : Restores v (expression bound) w (.mark .closeBracket :: (u ++ rest)) P)
    (later : Restores v (indices (expression bound) more) u rest R)
    (hS : ∀ e es, P e → R es → S (e :: es)) :
    Restores v (indices (expression bound) (more + 1))
      (.mark .openBracket :: (w ++ .mark .closeBracket :: u)) rest S := by
  intro d hv hd
  have hd : d.words = .mark .openBracket :: (w ++ .mark .closeBracket :: (u ++ rest)) := by
    simpa using hd
  rw [indices]
  refine eat_at hd fun d₁ h₁ hs₁ => ?_
  refine first.bind (hs₁.bareNames.trans hv) h₁ fun e d₂ he h₂ hs₂ => ?_
  refine expect_at h₂ fun _ d₃ h₃ hs₃ => ?_
  have hs := (hs₁.trans hs₂).trans hs₃
  refine later.bind (hs.bareNames.trans hv) h₃ fun es d₄ hes h₄ hs₄ => ?_
  exact Comes.pure ⟨hs.trans hs₄, h₄, hS e es he hes⟩

/-- A variable or an element, whose indices are read from these tokens. -/
theorem path_restores {id : String} {bound : Nat} {w rest : List Token} {R : List Expr → Prop}
    {S : Expr → Prop} (hid : v.reads id) (hcall : (w ++ rest).head? ≠ some (.mark .openParen))
    (path : Restores v (indices (expression bound) bound) w rest R)
    (hident : R [] → ∀ line, S (.ident line id))
    (helement : ∀ line e es, R (e :: es) → S (.element line id (e :: es))) :
    Restores v (primary (expression bound) bound) (.identifier (Name.bare id) :: w) rest S := by
  intro d hv hd
  refine advance_at hd fun l d₁ hl h₁ hs₁ => ?_
  rw [hl]
  refine Comes.peek ?_
  rw [if_neg (by rw [h₁]; exact hcall)]
  have hv₁ := hs₁.bareNames.trans hv
  refine resolve_at (hv₁ ▸ hid) ?_
  refine path.bind hv₁ h₁ fun es d₂ hes h₂ hs₂ => ?_
  cases es with
  | nil => exact Comes.pure ⟨hs₁.trans hs₂, h₂, hident hes _⟩
  | cons e es => exact Comes.pure ⟨hs₁.trans hs₂, h₂, helement _ e es hes⟩

section

variable {s : Writing}

theorem bracketed_restores {bound : Nat} : ∀ {es : List Expr}, (∀ e ∈ es, s.Restored e) →
    Expr.SoundList v es → ∀ (more : Nat) (rest : List Token),
    (Token.bracketed (es.map s.tokens) ++ rest).length ≤ bound →
    (Token.bracketed (es.map s.tokens) ++ rest).length ≤ more → EndsPhrase [] rest →
    Restores v (indices (expression bound) more) (Token.bracketed (es.map s.tokens)) rest
      (·.map Expr.unlined = es.map s.image) := by
  intro es
  induction es with
  | nil =>
    intro _ _ more rest _ _ hends d hv hd
    exact indices_end (by rw [hd]; exact hends) ⟨.refl d, hd, rfl⟩
  | cons e es ih =>
    intro hes hsound more rest hbound hmore hends
    rw [List.map_cons, Token.bracketed] at hbound hmore ⊢
    simp only [List.length_cons, List.length_append] at hbound hmore
    obtain ⟨more, rfl⟩ : ∃ less, more = less + 1 := ⟨more - 1, by omega⟩
    have hfirst := hes e List.mem_cons_self v bound (.mark .closeBracket ::
      (Token.bracketed (es.map s.tokens) ++ rest)) hsound.1 (by simp; omega)
      (.of_none rfl (by decide) (by decide))
    have hlater := ih (fun e he => hes e (List.mem_cons_of_mem _ he)) hsound.2 more rest
      (by simp; omega) (by simp; omega) hends
    refine index_restores hfirst hlater fun a as ha has => ?_
    show a.unlined :: as.map Expr.unlined = s.image e :: es.map s.image
    rw [ha, has]

/-- A variable or an element, from behind its name. -/
theorem slot_restores {id : String} (es : List Expr) (hid : v.reads id)
    (hes : ∀ e ∈ es, s.Restored e) (hsound : Expr.SoundList v es) {bound : Nat}
    {rest : List Token} (hlength : (Token.bracketed (es.map s.tokens) ++ rest).length ≤ bound)
    (hends : EndsPhrase [] rest) {P : Expr → Prop} (hident : es = [] → ∀ line, P (.ident line id))
    (helement : es ≠ [] → ∀ line as, as.map Expr.unlined = es.map s.image →
      P (.element line id as)) :
    Restores v (primary (expression bound) bound)
      (.identifier (Name.bare id) :: Token.bracketed (es.map s.tokens)) rest P := by
  have hcall : (Token.bracketed (es.map s.tokens) ++ rest).head? ≠ some (.mark .openParen) := by
    cases es with
    | nil => exact fun ht => (hends _ ht).1 rfl
    | cons => exact fun ht => by cases ht
  refine path_restores hid hcall (bracketed_restores hes hsound bound rest hlength hlength hends)
    (fun has => hident (List.map_eq_nil_iff.1 has.symm)) fun line a as has => ?_
  refine helement ?_ line _ has
  rintro rfl
  cases has

end

/-! ## Arguments -/

theorem lastItem_restores {item : Nat → Parse α} {more position : Nat} {w rest : List Token}
    {P : α → Prop} {S : List α → Prop}
    (last : Restores v (item position) w (.mark .closeParen :: rest) P) (hS : ∀ a, P a → S [a]) :
    Restores v (items item .closeParen (more + 1) position) (w ++ [.mark .closeParen]) rest S := by
  intro d hv hd
  rw [List.append_assoc] at hd
  rw [items]
  refine last.bind hv hd fun a d₁ ha h₁ hs₁ => advance_at h₁ fun l d₂ hl h₂ hs₂ => ?_
  rw [if_pos hl]
  exact Comes.pure ⟨hs₁.trans hs₂, h₂, hS a ha⟩

/-- An item in front of more of them. -/
theorem moreItems_restores {item : Nat → Parse α} {more position : Nat} {w u rest : List Token}
    {P : α → Prop} {R S : List α → Prop}
    (first : Restores v (item position) w (.mark .comma :: (u ++ rest)) P)
    (later : Restores v (items item .closeParen more (position + 1)) u rest R)
    (hS : ∀ a as, P a → R as → S (a :: as)) :
    Restores v (items item .closeParen (more + 1) position) (w ++ .mark .comma :: u) rest S := by
  intro d hv hd
  rw [List.append_assoc] at hd
  rw [items]
  refine first.bind hv hd fun a d₁ ha h₁ hs₁ => advance_at h₁ fun l d₂ hl h₂ hs₂ => ?_
  have hs := hs₁.trans hs₂
  rw [hl, if_neg (by decide), if_pos rfl]
  refine later.bind (hs.bareNames.trans hv) h₂ fun as d₃ has h₃ hs₃ => ?_
  exact Comes.pure ⟨hs.trans hs₃, h₃, hS a as ha has⟩

/-- One after another, the items of a list are read as what is to become of them, as far as `view`
shows. -/
theorem items_restores {γ : Type} {item : Nat → Parse α} {tokens : α → List Token}
    {view image : α → γ} {bound : Nat} : ∀ {as : List α}, as ≠ [] →
    ∀ (more position : Nat) (rest : List Token),
    (∀ i (hi : i < as.length) (rest : List Token), FollowsItem rest →
      (tokens as[i] ++ rest).length ≤ bound →
      Restores v (item (position + i)) (tokens as[i]) rest (view · = image as[i])) →
    (Token.listed (as.map tokens) ++ rest).length ≤ bound →
    (Token.listed (as.map tokens) ++ rest).length ≤ more →
    Restores v (items item .closeParen more position) (Token.listed (as.map tokens)) rest
      (·.map view = as.map image) := by
  intro as
  induction as with
  | nil => exact fun hne => absurd rfl hne
  | cons a as ih =>
    intro _ more position rest hitems hbound hmore
    cases more with
    | zero => cases as <;> simp [Token.listed] at hmore
    | succ more =>
      cases as with
      | nil =>
        rw [List.map_singleton, Token.listed] at hbound ⊢
        rw [List.append_assoc] at hbound
        have hlast := hitems 0 Nat.zero_lt_one _ ⟨_, _, rfl, Or.inr rfl⟩ hbound
        exact lastItem_restores hlast fun b hb => congrArg ([·]) hb
      | cons a' as =>
        have hsplit : Token.listed ((a :: a' :: as).map tokens)
            = tokens a ++ .mark .comma :: Token.listed ((a' :: as).map tokens) := rfl
        rw [hsplit, List.append_assoc, List.cons_append] at hbound hmore
        rw [hsplit]
        have hfirst := hitems 0 (Nat.zero_lt_succ _) _ ⟨_, _, rfl, Or.inl rfl⟩ hbound
        rw [List.length_append, List.length_cons] at hbound hmore
        -- the items behind the first one are read one position further on
        have hitems' : ∀ i (hi : i < (a' :: as).length) (rest : List Token), FollowsItem rest →
            (tokens (a' :: as)[i] ++ rest).length ≤ bound →
            Restores v (item (position + 1 + i)) (tokens (a' :: as)[i]) rest
              (view · = image (a' :: as)[i]) := by
          intro i hi
          have hat := hitems (i + 1) (Nat.succ_lt_succ hi)
          rwa [show position + (i + 1) = position + 1 + i by omega] at hat
        have hlater := ih (List.cons_ne_nil _ _) more (position + 1) rest hitems' (by omega)
          (by omega)
        refine moreItems_restores hfirst hlater fun b bs hb hbs => ?_
        show view b :: bs.map view = image a :: (a' :: as).map image
        rw [show view b = image a from hb, hbs]

theorem commaSeparated_restores {γ : Type} {item : Nat → Parse α} {tokens : α → List Token}
    (view image : α → γ) {bound : Nat} {as : List α} {rest : List Token}
    (hhead : ∀ a ∈ as, ∃ t w, tokens a = t :: w ∧ t ≠ .mark .closeParen)
    (hitems : ∀ i (hi : i < as.length) (rest : List Token), FollowsItem rest →
      (tokens as[i] ++ rest).length ≤ bound →
      Restores v (item i) (tokens as[i]) rest (view · = image as[i]))
    (hbound : (Token.listed (as.map tokens) ++ rest).length ≤ bound) :
    Restores v (commaSeparated item .closeParen bound) (Token.listed (as.map tokens)) rest
      (·.map view = as.map image) := by
  intro d hv hd
  cases as with
  | nil => exact eat_at hd fun d₁ h₁ hs₁ => Comes.pure ⟨hs₁, h₁, rfl⟩
  | cons a as =>
    refine eat_not ?_ ?_
    · obtain ⟨t, w, hw, ht⟩ := hhead a List.mem_cons_self
      rw [hd]
      cases as <;> simpa [Token.listed, hw] using ht
    · refine items_restores (List.cons_ne_nil _ _) bound 0 rest ?_ hbound hbound d hv hd
      intro i hi
      rw [Nat.zero_add]
      exact hitems i hi

/-- The tokens of a sound expression start like one. -/
theorem exists_tokens_cons : ∀ {e : Expr}, e.Sound v → ∃ t w, e.tokens = t :: w ∧ Opens t
  | .literal _ (.integer n), _ => by
    rw [Expr.tokens, Value.tokens]
    split
    · exact ⟨_, _, rfl, Or.inr rfl⟩
    · exact ⟨_, _, rfl, trivial⟩
  | .literal _ (.real _), _ | .literal _ (.boolean _), _ | .literal _ (.char _), _
  | .literal _ (.string _), _ => ⟨_, _, rfl, trivial⟩
  | .literal _ (.array ..), h => h.elim
  | .ident .., _ | .element .., _ | .call .., _ => ⟨_, _, rfl, trivial⟩
  | .unary _ .negate _, _ => ⟨_, _, rfl, Or.inr rfl⟩
  | .unary _ .not _, _ => ⟨_, _, rfl, rfl⟩
  | .binary .., _ => ⟨_, _, rfl, Or.inl rfl⟩

theorem enclosed_opening : Writing.enclosed.Opening := fun _ _ h => exists_tokens_cons h

theorem argumentTokens_enclosed (as : List Argument) :
    Expr.argumentTokens as = as.map Writing.enclosed.argumentTokens := by
  rw [Expr.argumentTokens_eq_map]
  exact List.map_congr_left fun a _ => by cases a <;> rfl

theorem unlinedArguments_enclosed (as : List Argument) :
    Expr.unlinedArguments as = as.map Writing.enclosed.argumentImage := by
  rw [Expr.unlinedArguments_eq_map]
  exact List.map_congr_left fun a _ => by cases a <;> rfl

section

variable {heading : Heading} {position : Nat} {type : Scalar} {name : String}

/-- An argument by value is read back if its expression is. -/
theorem valueArgument_restores
    (hp : heading.parameters[position]? = some ⟨.byValue, type, name⟩) {bound : Nat}
    {w rest : List Token} {P : Expr → Prop} {S : Argument → Prop}
    (h : Restores v (expression bound) w rest P) (hS : ∀ e, P e → S (.value e)) :
    Restores v (argument (expression bound) heading position) w rest S := by
  intro d hv hd
  rw [argument, hp]
  exact h.bind hv hd fun e d₁ he h₁ hs₁ => Comes.pure ⟨hs₁, h₁, hS e he⟩

/-- An argument by reference is read back as its name. -/
theorem referenceArgument_restores
    (hp : heading.parameters[position]? = some ⟨.byReference, type, name⟩) {id : String}
    (hid : v.writes id) {rest : List Token} (hrest : FollowsItem rest) (expression : Parse Expr) :
    Restores v (argument expression heading position) [.identifier (Name.bare id)] rest
      (Expr.unlinedArgument · = .reference 0 id) := by
  intro d hv hd
  rw [argument, hp]
  obtain ⟨m, more, rfl, hm⟩ := hrest
  refine Comes.peekLine fun line => Comes.get ?_
  have hd : d.words = .identifier (Name.bare id) :: .mark m :: more := hd
  obtain ⟨⟨token, nameLine⟩, lexemes, htokens, hname, hlexemes⟩ := List.map_eq_cons_iff.1 hd
  obtain ⟨⟨token', markLine⟩, lexemes', rfl, hmark, -⟩ := List.map_eq_cons_iff.1 hlexemes
  obtain rfl : token = .identifier (Name.bare id) := hname
  obtain rfl : token' = .mark m := hmark
  rw [htokens]
  dsimp only
  rw [if_pos hm]
  refine advance_at hd fun l d₁ _ h₁ hs₁ => ?_
  have hid₁ : d₁.bareNames.writes id := (hs₁.bareNames.trans hv) ▸ hid
  refine resolve_at hid₁.1 (Comes.get ?_)
  rw [hid₁.2]
  exact Comes.pure ⟨hs₁, h₁, rfl⟩

end

theorem argument_restores {s : Writing} {heading : Heading} {position : Nat} {p : Parameter}
    {a : Argument} (hp : heading.parameters[position]? = some p)
    (hfit : Expr.FitArgument v p.mode a) (h : s.RestoredArgument a) {bound : Nat}
    {rest : List Token} (hrest : FollowsItem rest)
    (hlength : (s.argumentTokens a ++ rest).length ≤ bound) :
    Restores v (argument (expression bound) heading position) (s.argumentTokens a) rest
      (Expr.unlinedArgument · = s.argumentImage a) := by
  obtain ⟨mode, type, name⟩ := p
  cases a with
  | value e =>
    obtain ⟨rfl, hsound⟩ := hfit
    exact valueArgument_restores hp (h v bound rest hsound hlength (hrest.endsPhrase _))
      fun b hb => congrArg Argument.value hb
  | reference line id =>
    obtain ⟨rfl, hwrites⟩ := hfit
    exact referenceArgument_restores hp hwrites hrest _

/-- Every argument has a parameter of its own, which it fits. -/
theorem exists_fitArgument {as : List Argument} : ∀ {parameters : List Parameter},
    Expr.Fit v parameters as → ∀ i (hi : i < as.length),
      ∃ p, parameters[i]? = some p ∧ Expr.FitArgument v p.mode as[i] := by
  induction as with
  | nil => exact fun _ i hi => absurd hi (Nat.not_lt_zero i)
  | cons a as ih =>
    rintro _ ⟨p, more, rfl, ha, has⟩ i hi
    cases i with
    | zero => exact ⟨p, rfl, ha⟩
    | succ i => exact ih has i (Nat.lt_of_succ_lt_succ hi)

/-- The parentheses of a call, around a list of as many arguments as there are parameters. -/
theorem given_restores {name : String} (line : Nat) {heading : Heading}
    (hc : v.callable name = some heading) {bound : Nat} {w rest : List Token}
    {R : List Argument → Prop}
    (h : Restores v (commaSeparated (argument (expression bound) heading) .closeParen bound) w rest
      R)
    (hcount : ∀ as, R as → as.length = heading.parameters.length) :
    Restores v (arguments (expression bound) bound name line) (.mark .openParen :: w) rest R := by
  intro d hv hd
  refine callable_at (by rw [hv]; exact hc) (expect_at hd fun _ d₁ h₁ hs₁ => ?_)
  refine h.bind (hs₁.bareNames.trans hv) h₁ fun as d₂ has h₂ hs₂ => ?_
  dsimp only
  rw [if_pos (hcount as has)]
  exact Comes.pure ⟨hs₁.trans hs₂, h₂, has⟩

theorem listed_restores {s : Writing} (hopening : s.Opening) {name : String} (line : Nat)
    {heading : Heading} {as : List Argument} (hc : v.callable name = some heading)
    (hfit : Expr.Fit v heading.parameters as) (has : ∀ a ∈ as, s.RestoredArgument a) (bound : Nat)
    (rest : List Token)
    (hlength : (Token.listed (as.map s.argumentTokens) ++ rest).length ≤ bound) :
    Restores v (arguments (expression bound) bound name line)
      (.mark .openParen :: Token.listed (as.map s.argumentTokens)) rest
      (·.map Expr.unlinedArgument = as.map s.argumentImage) := by
  have hhead : ∀ a ∈ as, ∃ t w, s.argumentTokens a = t :: w ∧ t ≠ .mark .closeParen := by
    intro a ha
    obtain ⟨i, hi, rfl⟩ := List.getElem_of_mem ha
    obtain ⟨p, -, hfits⟩ := exists_fitArgument hfit i hi
    cases hat : as[i] with
    | value e =>
      rw [hat] at hfits
      obtain ⟨t, w, hw, ht⟩ := hopening v e hfits.2
      refine ⟨t, w, hw, ?_⟩
      rintro rfl
      rcases ht with ht | ht <;> cases ht
    | reference => exact ⟨_, _, rfl, by simp⟩
  have hitems : ∀ i (hi : i < as.length) (rest : List Token), FollowsItem rest →
      (s.argumentTokens as[i] ++ rest).length ≤ bound →
      Restores v (argument (expression bound) heading i) (s.argumentTokens as[i]) rest
        (Expr.unlinedArgument · = s.argumentImage as[i]) := by
    intro i hi rest hrest hbound
    obtain ⟨p, hp, hfits⟩ := exists_fitArgument hfit i hi
    exact argument_restores hp hfits (has _ (List.getElem_mem hi)) hrest hbound
  refine given_restores line hc (commaSeparated_restores Expr.unlinedArgument s.argumentImage hhead
    hitems hlength) fun found hfound => ?_
  rw [← hfit.length_eq, ← List.length_map, hfound, List.length_map]

/-- A call, from its name on. -/
theorem named_restores {name : String} {bound : Nat} {w rest : List Token}
    {R : List Argument → Prop} {S : Expr → Prop}
    (h : ∀ line, Restores v (arguments (expression bound) bound name line) (.mark .openParen :: w)
      rest R)
    (hS : ∀ line as, R as → S (.call line name as)) :
    Restores v (primary (expression bound) bound) (.identifier name :: .mark .openParen :: w) rest
      S := by
  intro d hv hd
  refine advance_at hd fun l d₁ hl h₁ hs₁ => ?_
  rw [hl]
  refine Comes.peek ?_
  rw [if_pos (by rw [h₁]; rfl)]
  refine (h l.line).bind (hs₁.bareNames.trans hv) h₁ fun as d₂ has h₂ hs₂ => ?_
  exact Comes.pure ⟨hs₁.trans hs₂, h₂, hS _ as has⟩

theorem call_restores {s : Writing} (hopening : s.Opening) {name : String} {heading : Heading}
    {as : List Argument} (hc : v.callable name = some heading)
    (hfit : Expr.Fit v heading.parameters as) (has : ∀ a ∈ as, s.RestoredArgument a) {bound : Nat}
    {rest : List Token}
    (hlength : (Token.listed (as.map s.argumentTokens) ++ rest).length ≤ bound) :
    Restores v (primary (expression bound) bound)
      (.identifier name :: .mark .openParen :: Token.listed (as.map s.argumentTokens)) rest
      (·.unlined = .call 0 name (as.map s.argumentImage)) := by
  refine named_restores (fun line => listed_restores hopening line hc hfit has bound rest hlength)
    fun line found hfound => ?_
  rw [← hfound, ← Expr.unlinedArguments_eq_map]
  rfl

/-! ## Expressions -/

/-- A unary operation is read back if its operand is. -/
theorem unary_restores {op : UnaryOp} {e : Expr} (h : Restored e) (hsound : e.Sound v)
    {bound : Nat} {rest : List Token}
    (hlength : (op.token :: Token.parenthesized e.tokens ++ rest).length ≤ bound) :
    Restores v (operand bound) (op.token :: Token.parenthesized e.tokens) rest
      (·.unlined = .unary 0 op e.unlined) := by
  cases bound with
  | zero => cases hlength
  | succ bound =>
    have hinner := parenthesized_restores h hsound (Nat.le_of_succ_le_succ hlength)
    cases op with
    | negate =>
      exact negation_restores (by simp) hinner fun _ _ ha => congrArg (Expr.unary 0 .negate) ha
    | not => exact complement_restores hinner fun _ _ ha => congrArg (Expr.unary 0 .not) ha

theorem binary_restores {op : BinaryOp} {l r : Expr} (hl : Restored l) (hr : Restored r)
    (hsound : l.Sound v ∧ r.Sound v) {bound : Nat} {rest : List Token}
    (hlength : (Token.parenthesized l.tokens ++ op.token :: Token.parenthesized r.tokens
      ++ rest).length ≤ bound) (hends : EndsPhrase Layer.all rest) :
    Restores v (expression bound)
      (Token.parenthesized l.tokens ++ op.token :: Token.parenthesized r.tokens) rest
      (·.unlined = .binary 0 op l.unlined r.unlined) := by
  rw [List.append_assoc, List.cons_append] at hlength
  have hright : (Token.parenthesized r.tokens ++ rest).length ≤ bound := by
    rw [List.length_append, List.length_cons] at hlength
    omega
  refine operation_restores hlength (parenthesized_restores hl hsound.1 hlength)
    (parenthesized_restores hr hsound.2 hright) ?_ Layer.all (by decide) (by cases op <;> decide)
    hends
  intro line a b ha hb
  show Expr.binary 0 op a.unlined b.unlined = _
  rw [ha, hb]

mutual

/-- A sound expression is read from its tokens as it was. -/
theorem restored : ∀ e : Expr, Restored e
  | .literal _ value => fun v bound rest hsound hlength =>
    layered_restores (literal_restores hsound hlength) Layer.all
  | .ident _ id => fun v bound rest hsound hlength hends => by
    refine layered_restores (operand_restores (by simp) (by simp) hlength fun more hmore => ?_)
      Layer.all hends
    exact slot_restores (s := .enclosed) [] hsound (fun e he => by cases he) trivial hmore
      (hends.mono (List.nil_subset _)) (fun _ _ => rfl) fun hne => absurd rfl hne
  | .element _ id indices => fun v bound rest hsound hlength hends => by
    obtain ⟨hreads, hne, hindices⟩ := hsound
    rw [Expr.tokens, Expr.indexTokens_eq_bracketed] at hlength ⊢
    refine layered_restores (operand_restores (by simp) (by simp) hlength fun more hmore => ?_)
      Layer.all hends
    refine slot_restores (s := .enclosed) indices hreads (restoredList indices) hindices hmore
      (hends.mono (List.nil_subset _)) (fun hnil => absurd hnil hne) fun _ _ as has => ?_
    show Expr.element 0 id (Expr.unlinedList as) = .element 0 id (Expr.unlinedList indices)
    rw [Expr.unlinedList_eq_map, Expr.unlinedList_eq_map]
    exact congrArg (Expr.element 0 id) has
  | .call _ name arguments => fun v bound rest hsound hlength hends => by
    obtain ⟨heading, hc, hfit⟩ := hsound
    rw [Expr.tokens, argumentTokens_enclosed] at hlength ⊢
    rw [Expr.unlined, unlinedArguments_enclosed]
    refine layered_restores (operand_restores (by simp) (by simp) hlength fun more hmore => ?_)
      Layer.all hends
    exact call_restores enclosed_opening hc hfit (restoredArguments arguments)
      (Nat.le_of_succ_le hmore)
  | .unary _ op operand => fun v bound rest hsound hlength =>
    layered_restores (unary_restores (restored operand) hsound hlength) Layer.all
  | .binary _ op left right => fun v bound rest hsound hlength hends =>
    binary_restores (restored left) (restored right) hsound hlength hends

theorem restoredList : ∀ es : List Expr, ∀ e ∈ es, Restored e
  | [] => fun _ h => by cases h
  | e :: rest => List.forall_mem_cons.2 ⟨restored e, restoredList rest⟩

theorem restoredArguments : ∀ as : List Argument, ∀ a ∈ as, Writing.enclosed.RestoredArgument a
  | [] => fun _ h => by cases h
  | a :: rest => List.forall_mem_cons.2 ⟨restoredArgument a, restoredArguments rest⟩

theorem restoredArgument : ∀ a : Argument, Writing.enclosed.RestoredArgument a
  | .value e => restored e
  | .reference .. => trivial

end

/-! ## Parts of statements -/

theorem indices_restores {bound : Nat} {es : List Expr} (hsound : Expr.SoundList v es) (more : Nat)
    (rest : List Token) (hbound : (Expr.indexTokens es ++ rest).length ≤ bound)
    (hmore : (Expr.indexTokens es ++ rest).length ≤ more) (hends : EndsPhrase [] rest) :
    Restores v (indices (expression bound) more) (Expr.indexTokens es) rest
      (Expr.unlinedList · = Expr.unlinedList es) := by
  rw [Expr.indexTokens_eq_bracketed] at hbound hmore ⊢
  simp only [Expr.unlinedList_eq_map]
  exact bracketed_restores (s := .enclosed) (restoredList es) hsound more rest hbound hmore hends

theorem arguments_restores {name : String} (line : Nat) {heading : Heading} {as : List Argument}
    (hc : v.callable name = some heading) (hfit : Expr.Fit v heading.parameters as) (bound : Nat)
    (rest : List Token)
    (hlength : (Token.listed (Expr.argumentTokens as) ++ rest).length ≤ bound) :
    Restores v (arguments (expression bound) bound name line)
      (.mark .openParen :: Token.listed (Expr.argumentTokens as)) rest
      (Expr.unlinedArguments · = Expr.unlinedArguments as) := by
  rw [argumentTokens_enclosed] at hlength ⊢
  rw [unlinedArguments_enclosed]
  simp only [Expr.unlinedArguments_eq_map]
  exact listed_restores enclosed_opening line hc hfit (restoredArguments as) bound rest hlength

end Primer.Grammar
