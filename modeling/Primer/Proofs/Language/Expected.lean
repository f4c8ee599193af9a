import Primer.Proofs.Language.Outcome
import Primer.Proofs.Language.Phrases

/-!
# Primer.Proofs.Language.Expected — expressions are read as far as they go.

In front of tokens that follow the rules of an expression, and of nothing that could belong to it
any more, the reader of expressions takes exactly these tokens, or refuses them for what they say:
a name that means nothing, or an argument that does not fit.

The induction is on the derivation.  Every reader has as many steps left as there are tokens, and in
every layer the token behind the phrase is no operator of that layer or of a tighter one.

An expression has no end of its own: it goes on as long as operators of its layers come, and a name
goes on if a bracket or a parenthesis follows.  So all lemmas are about a phrase with a rest behind
it, and the rest must not begin with what the phrase could go on with (`EndsPhrase`).  A phrase that
starts in the same way as another, such as a name alone and a call, is told from it by the second
token.
-/

namespace Primer

/-- The fault is one of what a text says, not of how it is written. -/
def ParseFault.IsStatic : ParseFault → Prop
  | unknownIdentifier _ | unknownFunction _ | functionAlreadyDefined _ | duplicateParameter _
  | argumentCountMismatch .. | expectedVariableArgument .. | readOnlyParameter _
  | mismatchedEnd .. | invalidArraySize _ | returnOutsideRoutine | missingReturnValue _
  | unexpectedReturnValue _ | variableAlreadyDeclared _ | literalTooLarge => True
  | unreadable _ | unexpectedToken _ | expectedToken .. | unexpectedEnd | trailingTokens _
  | nestedRoutine _ | tree _ => False

namespace Grammar

variable {α β : Type}

/-! ## Tokens that are there -/

section

variable {d : Draft} {Q : β → Draft → Prop} {E : ParseFault → Prop} {t : Token}
  {rest : List Token}

namespace Draft

/-- The token that is gone, and those that are left. -/
theorem Drops.words_eq {d' : Draft} {l : Lexeme} (h : d.Drops l d') (hwords : d.words = t :: rest) :
    l.token = t ∧ d'.words = rest := by
  rw [h.words] at hwords
  exact List.cons.inj hwords

end Draft

theorem advance_at (hd : d.words = t :: rest) {f : Lexeme → Parse β}
    (h : ∀ l d', l.token = t → d'.words = rest → d.Skips d' → Comes (f l) d' Q E) :
    Comes (advance >>= f) d Q E := by
  refine Comes.advance (fun hnil => ?_) fun l d' hdrops => ?_
  · rw [Draft.words, hnil] at hd
    cases hd
  · obtain ⟨hl, hrest⟩ := hdrops.words_eq hd
    exact h l d' hl hrest hdrops.toSkips

/-- A token that is there may be expected. -/
theorem expect_at (hd : d.words = t :: rest) {f : Nat → Parse β}
    (h : ∀ line d', d'.words = rest → d.Skips d' → Comes (f line) d' Q E) :
    Comes (expect t >>= f) d Q E := by
  refine Comes.bind (P := fun _ d' => d'.words = rest ∧ d.Skips d') ?_
    fun line d' hd' => h line d' hd'.1 hd'.2
  refine advance_at hd fun l d' hl hrest hskips => ?_
  rw [if_pos hl]
  exact Comes.pure ⟨hrest, hskips⟩

theorem eat_at (hd : d.words = t :: rest) {f : Bool → Parse β}
    (h : ∀ d', d'.words = rest → d.Skips d' → Comes (f true) d' Q E) :
    Comes (eat t >>= f) d Q E := by
  refine Comes.bind (P := fun b d' => b = true ∧ d'.words = rest ∧ d.Skips d') ?_ ?_
  · refine Comes.peek ?_
    rw [if_pos (by rw [hd]; rfl)]
    exact advance_at hd fun l d' _ hrest hskips => Comes.pure ⟨rfl, hrest, hskips⟩
  · rintro b d' ⟨rfl, hrest, hskips⟩
    exact h d' hrest hskips

/-- A token that is not there is not taken. -/
theorem eat_not (hd : d.words.head? ≠ some t) {f : Bool → Parse β} (h : Comes (f false) d Q E) :
    Comes (eat t >>= f) d Q E := by
  refine Comes.bind (P := fun b d' => b = false ∧ d' = d) ?_ ?_
  · refine Comes.peek ?_
    rw [if_neg hd]
    exact Comes.pure ⟨rfl, rfl⟩
  · rintro b d' ⟨rfl, rfl⟩
    exact h

theorem identifier_at {name : String} (hd : d.words = .identifier name :: rest)
    {f : String → Parse β} (h : ∀ d', d'.words = rest → d.Skips d' → Comes (f name) d' Q E) :
    Comes (identifier >>= f) d Q E := by
  refine Comes.bind (P := fun found d' => found = name ∧ d'.words = rest ∧ d.Skips d') ?_ ?_
  · refine advance_at hd fun l d' hl hrest hskips => ?_
    rw [hl]
    exact Comes.pure ⟨rfl, hrest, hskips⟩
  · rintro found d' ⟨rfl, hrest, hskips⟩
    exact h d' hrest hskips

theorem scalarType_at {type : Scalar} (hd : d.words = .word (.scalar type) :: rest)
    {f : Scalar → Parse β} (h : ∀ d', d'.words = rest → d.Skips d' → Comes (f type) d' Q E) :
    Comes (scalarType >>= f) d Q E := by
  refine Comes.bind (P := fun found d' => found = type ∧ d'.words = rest ∧ d.Skips d') ?_ ?_
  · refine advance_at hd fun l d' hl hrest hskips => ?_
    rw [hl]
    exact Comes.pure ⟨rfl, hrest, hskips⟩
  · rintro found d' ⟨rfl, hrest, hskips⟩
    exact h d' hrest hskips

end

/-! ## What a name may be refused for -/

section

variable {d : Draft} {Q : β → Draft → Prop} {name : String} {line : Nat}

/-- A name may be refused for having no meaning. -/
theorem resolve_static {f : String → Parse β}
    (h : ∀ id, Comes (f id) d Q ParseFault.IsStatic) :
    Comes (resolve name line >>= f) d Q ParseFault.IsStatic := by
  refine Comes.bind (P := fun _ d' => d' = d) ?_ fun id d' hd => hd ▸ h id
  refine Comes.get ?_
  split
  · exact Comes.pure rfl
  · exact Comes.refuse trivial

theorem resolveWritable_static {f : String → Parse β}
    (h : ∀ id, Comes (f id) d Q ParseFault.IsStatic) :
    Comes (resolveWritable name line >>= f) d Q ParseFault.IsStatic := by
  refine Comes.bind (P := fun _ d' => d' = d) ?_ fun id d' hd => hd ▸ h id
  refine resolve_static fun id => Comes.get ?_
  split
  · exact Comes.refuse trivial
  · exact Comes.pure rfl

/-- A routine may be refused for not being known. -/
theorem callable_static {f : Heading → Parse β}
    (h : ∀ heading, Comes (f heading) d Q ParseFault.IsStatic) :
    Comes (callable name line >>= f) d Q ParseFault.IsStatic := by
  refine Comes.bind (P := fun _ d' => d' = d) ?_ fun heading d' hd => hd ▸ h heading
  refine Comes.get ?_
  split
  · exact Comes.pure rfl
  · exact Comes.refuse trivial

theorem integerLiteral_static {n : Int} {digitsLine : Nat} {Q : Expr → Draft → Prop}
    (h : ∀ e, Q e d) : Comes (integerLiteral n line digitsLine) d Q ParseFault.IsStatic := by
  unfold integerLiteral
  split
  · exact Comes.pure (h _)
  · exact Comes.refuse trivial

end

/-! ## What stands behind an expression -/

/-- What follows can belong to no expression of these layers. -/
def EndsPhrase (layers : List Layer) (rest : List Token) : Prop :=
  ∀ t, rest.head? = some t → t ≠ .mark .openParen ∧ t ≠ .mark .openBracket ∧
    ∀ op, binaryOp? t = some op → op.layer ∉ layers

/-- What ends more layers ends fewer of them. -/
theorem EndsPhrase.mono {layers layers' : List Layer} {rest : List Token}
    (h : EndsPhrase layers rest) (hsub : layers' ⊆ layers) : EndsPhrase layers' rest :=
  fun t ht => ⟨(h t ht).1, (h t ht).2.1, fun op hop hmem => (h t ht).2.2 op hop (hsub hmem)⟩

/-- A token that is no operator and opens nothing ends an expression. -/
theorem EndsPhrase.of_none {layers : List Layer} {t : Token} {rest : List Token}
    (hop : binaryOp? t = none) (hparen : t ≠ .mark .openParen)
    (hbracket : t ≠ .mark .openBracket) : EndsPhrase layers (t :: rest) := by
  rintro _ ⟨⟩
  refine ⟨hparen, hbracket, fun op h => ?_⟩
  rw [hop] at h
  cases h

/-- Operators of a layer are empty or start with one of them. -/
theorem Phrase.Derives.operations_cases {layer : Layer} {tighter : List Layer} {w : List Token}
    (h : (Phrase.operations layer tighter).Derives w) :
    w = [] ∨ ∃ t op v, w = t :: v ∧ binaryOp? t = some op ∧ op.layer = layer := by
  cases h with
  | noOperation => exact Or.inl rfl
  | operation spelled of_layer => exact Or.inr ⟨_, _, _, rfl, spelled, of_layer⟩

/-- In front of operators of a looser layer, a phrase ends. -/
theorem EndsPhrase.operations {layer : Layer} {tighter : List Layer} {v rest : List Token}
    (hnodup : (layer :: tighter).Nodup) (hv : (Phrase.operations layer tighter).Derives v)
    (h : EndsPhrase (layer :: tighter) rest) : EndsPhrase tighter (v ++ rest) := by
  rcases hv.operations_cases with rfl | ⟨t, op, u, rfl, hop, hlayer⟩
  · exact h.mono (List.subset_cons_self _ _)
  · rintro _ ⟨⟩
    refine ⟨?_, ?_, fun op' hop' hmem => ?_⟩
    · rintro rfl
      cases hop
    · rintro rfl
      cases hop
    · rw [hop] at hop'
      cases hop'
      rw [hlayer] at hmem
      exact (List.nodup_cons.1 hnodup).1 hmem

/-! ## Names as arguments -/

/-- What may stand behind a name inside an expression. -/
def FollowsName (t : Token) : Prop :=
  t = .mark .openParen ∨ t = .mark .openBracket ∨ ∃ op, binaryOp? t = some op

/-- An expression starts with a token of this kind. -/
def Opens : Token → Prop
  | .real _ | .integer _ | .boolean _ | .char _ | .string _ | .identifier _ => True
  | .mark m => m = .openParen ∨ m = .minus
  | .word k => k = .not

/-- The phrase is an expression or an operand of one. -/
def Phrase.IsExpression : Phrase → Prop
  | layered _ | operand | primary => True
  | operations .. | indices | values | arguments => False

/-- An expression starts with a token that may start one. -/
theorem Phrase.Derives.opens {p : Phrase} {w : List Token} (h : p.Derives w)
    (hp : p.IsExpression ∨ p = .values) : ∃ t v, w = t :: v ∧ Opens t := by
  induction h with
  | tightest _ ih => exact ih (Or.inl trivial)
  | layer _ _ ih _ =>
    obtain ⟨t, v, rfl, ht⟩ := ih (Or.inl trivial)
    exact ⟨t, _, rfl, ht⟩
  | primary _ ih => exact ih (Or.inl trivial)
  | negation => exact ⟨_, _, rfl, Or.inr rfl⟩
  | complement => exact ⟨_, _, rfl, rfl⟩
  | @value t h =>
    refine ⟨t, [], rfl, ?_⟩
    cases t <;> trivial
  | slot | call => exact ⟨_, _, rfl, trivial⟩
  | parenthesized => exact ⟨_, _, rfl, Or.inl rfl⟩
  | lastValue _ ih => exact ih (Or.inl trivial)
  | moreValues _ _ ih _ =>
    obtain ⟨t, v, rfl, ht⟩ := ih (Or.inl trivial)
    exact ⟨t, _, rfl, ht⟩
  | _ => rcases hp with hp | hp <;> cases hp

/-- An expression that starts with a name and goes on, goes on with one of these. -/
theorem Phrase.Derives.follows_name {p : Phrase} {w : List Token} (h : p.Derives w)
    (hp : p.IsExpression) {name : String} {t : Token} {v : List Token}
    (hw : w = .identifier name :: t :: v) : FollowsName t := by
  induction h generalizing v with
  | tightest _ ih => exact ih trivial hw
  | @layer layer tighter w₁ w₂ first more ih _ =>
    obtain ⟨t₁, u, rfl, -⟩ := first.opens (Or.inl trivial)
    obtain ⟨rfl, hu⟩ := List.cons.inj hw
    cases u with
    | nil =>
      rcases more.operations_cases with rfl | ⟨t₂, op, u, rfl, hop, -⟩
      · cases hu
      · obtain ⟨rfl, -⟩ := List.cons.inj hu
        exact Or.inr (Or.inr ⟨op, hop⟩)
    | cons t₂ u =>
      obtain ⟨rfl, -⟩ := List.cons.inj hu
      exact ih trivial rfl
  | primary _ ih => exact ih trivial hw
  | @slot name' path hpath _ =>
    obtain ⟨-, rfl⟩ := List.cons.inj hw
    cases hpath with
    | index => exact Or.inr (Or.inl rfl)
  | @call name' given hgiven _ =>
    obtain ⟨-, rfl⟩ := List.cons.inj hw
    cases hgiven with
    | noArguments => exact Or.inl rfl
    | arguments => exact Or.inl rfl
  | value hvalue =>
    cases hw
  | negation | complement | parenthesized => cases hw
  | _ => cases hp

/-! ## What a reader takes -/

/-- In front of these tokens the reader takes the first of them, or refuses what they say. -/
def Accepts (x : Parse α) (w rest : List Token) : Prop :=
  ∀ d : Draft, d.words = w ++ rest →
    Comes x d (fun _ d' => d.Skips d' ∧ d'.words = rest) ParseFault.IsStatic

/-- A reader that takes its phrase, in front of another. -/
theorem Accepts.bind {x : Parse α} {f : α → Parse β} {w rest : List Token} {d : Draft}
    {Q : β → Draft → Prop} (hx : Accepts x w rest) (hd : d.words = w ++ rest)
    (h : ∀ a d', d'.words = rest → d.Skips d' → Comes (f a) d' Q ParseFault.IsStatic) :
    Comes (x >>= f) d Q ParseFault.IsStatic :=
  Comes.bind (hx d hd) fun a d' ⟨hskips, hrest⟩ => h a d' hrest hskips

/-- What every reader does in front of a phrase of its kind, if it has steps enough left. -/
def Phrase.Accepted (w : List Token) : Phrase → Prop
  | layered layers => ∀ (bound : Nat) (rest : List Token), layers.Nodup →
    (w ++ rest).length ≤ bound → EndsPhrase layers rest →
    Accepts (Grammar.layered (Grammar.operand bound) bound layers) w rest
  | operations layer tighter => ∀ (bound more : Nat) (left : Expr) (rest : List Token),
    (layer :: tighter).Nodup → (w ++ rest).length ≤ bound → (w ++ rest).length ≤ more →
    EndsPhrase (layer :: tighter) rest →
    Accepts (Grammar.operations (Grammar.layered (Grammar.operand bound) bound tighter) layer more
      left) w rest
  | operand => ∀ (bound : Nat) (rest : List Token), (w ++ rest).length ≤ bound →
    EndsPhrase [] rest → Accepts (Grammar.operand bound) w rest
  | primary => ∀ (bound : Nat) (rest : List Token), (w ++ rest).length ≤ bound + 1 →
    EndsPhrase [] rest → Accepts (Grammar.primary (Grammar.expression bound) bound) w rest
  | indices => ∀ (bound more : Nat) (rest : List Token), (w ++ rest).length ≤ bound →
    (w ++ rest).length ≤ more → EndsPhrase [] rest →
    Accepts (Grammar.indices (Grammar.expression bound) more) w rest
  | values => ∀ (bound more position : Nat) (heading : Heading) (rest : List Token),
    (w ++ .mark .closeParen :: rest).length ≤ bound →
    (w ++ .mark .closeParen :: rest).length ≤ more →
    Accepts (items (argument (Grammar.expression bound) heading) .closeParen more position)
      (w ++ [.mark .closeParen]) rest
  | arguments => ∀ (bound : Nat) (name : String) (line : Nat) (rest : List Token),
    (w ++ rest).length ≤ bound →
    Accepts (Grammar.arguments (Grammar.expression bound) bound name line) w rest

theorem Phrase.Accepted.expression {w rest : List Token} (h : Phrase.expression.Accepted w)
    {bound : Nat} (hlength : (w ++ rest).length ≤ bound) (hends : EndsPhrase Layer.all rest) :
    Accepts (Grammar.expression bound) w rest :=
  h bound rest (by decide) hlength hends

/-! ## Operands -/

theorem accepted_operand {w : List Token} (hw : Phrase.primary.Derives w)
    (h : Phrase.primary.Accepted w) : Phrase.operand.Accepted w := by
  intro bound rest hlength hends d hd
  obtain ⟨t, v, rfl, -⟩ := hw.opens (Or.inl trivial)
  cases bound with
  | zero => cases hlength
  | succ bound =>
    rw [operand]
    refine Comes.peek ?_
    rw [hd]
    have hprimary := h bound rest hlength hends d hd
    cases hw with
    | value hvalue =>
      cases t <;> first | exact hvalue.elim | exact hprimary
    | slot | call | parenthesized => exact hprimary

/-- A literal whose sign stands in front of it is nothing else. -/
theorem derives_integer {n : Nat} {v : List Token}
    (h : Phrase.operand.Derives (.integer n :: v)) : v = [] := by
  cases h with
  | primary h =>
    cases h with
    | value => rfl

/-- An operand with a minus sign in front. -/
theorem accepted_negation {w : List Token} (hw : Phrase.operand.Derives w)
    (h : Phrase.operand.Accepted w) : Phrase.operand.Accepted (.mark .minus :: w) := by
  intro bound rest hlength hends d hd
  cases bound with
  | zero => cases hlength
  | succ bound =>
    rw [operand]
    refine Comes.peek ?_
    rw [hd]
    refine advance_at hd fun sign d₁ _ h₁ hs₁ => Comes.peek ?_
    split
    · rename_i n hn
      obtain ⟨t, v, rfl, -⟩ := hw.opens (Or.inl trivial)
      rw [h₁] at hn
      obtain rfl : t = .integer n := Option.some.inj hn
      obtain rfl := derives_integer hw
      refine advance_at h₁ fun digits d₂ _ h₂ hs₂ => integerLiteral_static fun e => ?_
      exact ⟨hs₁.trans hs₂, h₂⟩
    · refine (h bound rest (Nat.le_of_succ_le_succ hlength) hends).bind h₁ fun e d₂ h₂ hs₂ => ?_
      exact Comes.pure ⟨hs₁.trans hs₂, h₂⟩

theorem accepted_complement {w : List Token} (h : Phrase.operand.Accepted w) :
    Phrase.operand.Accepted (.word .not :: w) := by
  intro bound rest hlength hends d hd
  cases bound with
  | zero => cases hlength
  | succ bound =>
    rw [operand]
    refine Comes.peek ?_
    rw [hd]
    refine advance_at hd fun sign d₁ _ h₁ hs₁ => ?_
    refine (h bound rest (Nat.le_of_succ_le_succ hlength) hends).bind h₁ fun e d₂ h₂ hs₂ => ?_
    exact Comes.pure ⟨hs₁.trans hs₂, h₂⟩

/-! ## Primaries -/

theorem accepted_value {t : Token} (h : IsValue t) : Phrase.primary.Accepted [t] := by
  intro bound rest _ _ d hd
  refine advance_at hd fun l d₁ hl h₁ hs₁ => ?_
  rw [hl]
  cases t with
  | integer n => exact integerLiteral_static fun e => ⟨hs₁, h₁⟩
  | real x =>
    dsimp only
    split
    · exact Comes.pure ⟨hs₁, h₁⟩
    · exact Comes.refuse trivial
  | boolean | char | string => exact Comes.pure ⟨hs₁, h₁⟩
  | identifier | word | mark => exact h.elim

theorem accepted_slot {name : String} {w : List Token} (hw : Phrase.indices.Derives w)
    (h : Phrase.indices.Accepted w) : Phrase.primary.Accepted (.identifier name :: w) := by
  intro bound rest hlength hends d hd
  have hbound : (w ++ rest).length ≤ bound := Nat.le_of_succ_le_succ hlength
  refine advance_at hd fun l d₁ hl h₁ hs₁ => ?_
  rw [hl]
  refine Comes.peek ?_
  have hcall : d₁.words.head? ≠ some (.mark .openParen) := by
    rw [h₁]
    cases hw with
    | noIndex => exact fun ht => (hends _ ht).1 rfl
    | index => exact fun ht => by cases ht
  rw [if_neg hcall]
  refine resolve_static fun id => ?_
  refine (h bound bound rest hbound hbound hends).bind h₁ fun path d₂ h₂ hs₂ => ?_
  split <;> exact Comes.pure ⟨hs₁.trans hs₂, h₂⟩

theorem accepted_call {name : String} {w : List Token} (hw : Phrase.arguments.Derives w)
    (h : Phrase.arguments.Accepted w) : Phrase.primary.Accepted (.identifier name :: w) := by
  intro bound rest hlength hends d hd
  refine advance_at hd fun l d₁ hl h₁ hs₁ => ?_
  rw [hl]
  refine Comes.peek ?_
  have hcall : d₁.words.head? = some (.mark .openParen) := by
    rw [h₁]
    cases hw <;> rfl
  rw [if_pos hcall]
  have hgiven := h bound name l.line rest (Nat.le_of_succ_le_succ hlength)
  refine hgiven.bind h₁ fun found d₂ h₂ hs₂ => ?_
  exact Comes.pure ⟨hs₁.trans hs₂, h₂⟩

theorem accepted_parenthesized {w : List Token} (h : Phrase.expression.Accepted w) :
    Phrase.primary.Accepted (.mark .openParen :: (w ++ [.mark .closeParen])) := by
  intro bound rest hlength hends d hd
  refine advance_at hd fun l d₁ hl h₁ hs₁ => ?_
  rw [hl]
  have h₁ : d₁.words = w ++ .mark .closeParen :: rest := h₁.trans (List.append_assoc _ _ _)
  have hbound : (w ++ .mark .closeParen :: rest).length ≤ bound := by
    simp only [List.length_append, List.length_cons] at hlength ⊢
    omega
  have hclose : EndsPhrase Layer.all (.mark .closeParen :: rest) :=
    .of_none rfl (by decide) (by decide)
  refine (h.expression hbound hclose).bind h₁ fun e d₂ h₂ hs₂ => ?_
  refine expect_at h₂ fun _ d₃ h₃ hs₃ => Comes.pure ⟨?_, h₃⟩
  exact (hs₁.trans hs₂).trans hs₃

/-! ## Indices and arguments -/

/-- Where no bracket comes, there are no more indices. -/
theorem indices_stop {expression : Parse Expr} {more : Nat} {d : Draft}
    {Q : List Expr → Draft → Prop} {E : ParseFault → Prop}
    (hbracket : d.words.head? ≠ some (.mark .openBracket)) (h : Q [] d) :
    Comes (indices expression more) d Q E := by
  cases more with
  | zero => exact Comes.pure h
  | succ more =>
    rw [indices]
    exact eat_not hbracket (Comes.pure h)

theorem indices_end {expression : Parse Expr} {more : Nat} {d : Draft}
    {Q : List Expr → Draft → Prop} {E : ParseFault → Prop} (hends : EndsPhrase [] d.words)
    (h : Q [] d) : Comes (indices expression more) d Q E :=
  indices_stop (fun ht => (hends _ ht).2.1 rfl) h

theorem accepted_noIndex : Phrase.indices.Accepted [] := by
  intro bound more rest _ _ hends d hd
  exact indices_end (by rw [hd]; exact hends) ⟨.refl d, hd⟩

/-- An index in front of more of them. -/
theorem accepted_index {w v : List Token} (first : Phrase.expression.Accepted w)
    (h : Phrase.indices.Accepted v) :
    Phrase.indices.Accepted (.mark .openBracket :: (w ++ .mark .closeBracket :: v)) := by
  intro bound more rest hbound hmore hends d hd
  have hsplit : w ++ .mark .closeBracket :: v ++ rest
      = w ++ .mark .closeBracket :: (v ++ rest) := by
    rw [List.append_assoc]
    rfl
  rw [List.cons_append, hsplit] at hd hbound hmore
  simp only [List.length_cons, List.length_append] at hbound hmore
  cases more with
  | zero => omega
  | succ more =>
    rw [indices]
    refine eat_at hd fun d₁ h₁ hs₁ => ?_
    have hclose : EndsPhrase Layer.all (.mark .closeBracket :: (v ++ rest)) :=
      .of_none rfl (by decide) (by decide)
    refine (first.expression (by simp; omega) hclose).bind h₁ fun e d₂ h₂ hs₂ => ?_
    refine expect_at h₂ fun _ d₃ h₃ hs₃ => ?_
    refine (h bound more rest (by simp; omega) (by simp; omega) hends).bind h₃
      fun path d₄ h₄ hs₄ => Comes.pure ⟨?_, h₄⟩
    exact ((hs₁.trans hs₂).trans hs₃).trans hs₄

/-- An argument: one that is passed by reference is a name, and no longer expression starts with a
name and one of the tokens that stand behind an argument. -/
theorem argument_accepts {w rest : List Token} {bound : Nat} {t : Token}
    (hw : Phrase.expression.Derives w) (h : Phrase.expression.Accepted w)
    (ht : t = .mark .comma ∨ t = .mark .closeParen)
    (hbound : (w ++ t :: rest).length ≤ bound) (heading : Heading) (position : Nat) :
    Accepts (argument (expression bound) heading position) w (t :: rest) := by
  intro d hd
  unfold argument
  split
  · unfold referenceArgument
    refine Comes.peekLine fun line => Comes.get ?_
    split
    · rename_i name nameLine follow followLine more htokens
      split
      · rename_i hfollow
        have hwords : .identifier name :: .mark follow :: more.map (·.token) = w ++ t :: rest := by
          rw [← hd, Draft.words, htokens]
          rfl
        obtain ⟨t₁, v, rfl, -⟩ := hw.opens (Or.inl trivial)
        obtain ⟨rfl, hv⟩ := List.cons.inj hwords
        -- A name that a comma or a parenthesis follows is the whole argument.
        obtain rfl : v = [] := by
          cases v with
          | nil => rfl
          | cons t₂ v =>
            obtain ⟨rfl, -⟩ := List.cons.inj hv
            rcases hw.follows_name trivial rfl with hp | hp | ⟨op, hp⟩
            · rcases hfollow with rfl | rfl <;> cases hp
            · rcases hfollow with rfl | rfl <;> cases hp
            · rcases hfollow with rfl | rfl <;> cases hp
        refine advance_at hd fun l d₁ _ h₁ hs₁ => resolve_static fun id => Comes.get ?_
        split
        · exact Comes.refuse trivial
        · exact Comes.pure ⟨hs₁, h₁⟩
      · exact Comes.refuse trivial
    · exact Comes.refuse trivial
  · have hends : EndsPhrase Layer.all (t :: rest) := by
      rcases ht with rfl | rfl <;> exact .of_none rfl (by decide) (by decide)
    exact (h.expression hbound hends).bind hd fun e d' h' hs => Comes.pure ⟨hs, h'⟩

theorem accepted_lastValue {w : List Token} (hw : Phrase.expression.Derives w)
    (h : Phrase.expression.Accepted w) : Phrase.values.Accepted w := by
  intro bound more position heading rest hbound hmore d hd
  rw [List.append_assoc] at hd
  cases more with
  | zero => simp at hmore
  | succ more =>
    rw [items]
    refine (argument_accepts hw h (Or.inr rfl) hbound heading position).bind hd
      fun a d₁ h₁ hs₁ => ?_
    refine advance_at h₁ fun l d₂ hl h₂ hs₂ => ?_
    rw [if_pos hl]
    exact Comes.pure ⟨hs₁.trans hs₂, h₂⟩

/-- An argument in front of more of them. -/
theorem accepted_moreValues {w v : List Token} (hw : Phrase.expression.Derives w)
    (first : Phrase.expression.Accepted w) (h : Phrase.values.Accepted v) :
    Phrase.values.Accepted (w ++ .mark .comma :: v) := by
  intro bound more position heading rest hbound hmore d hd
  have hd' : d.words = w ++ .mark .comma :: ((v ++ [.mark .closeParen]) ++ rest) := by
    rw [hd]
    simp
  simp only [List.length_append, List.length_cons] at hbound hmore
  cases more with
  | zero => omega
  | succ more =>
    rw [items]
    refine (argument_accepts hw first (Or.inl rfl) (by simp; omega) heading position).bind hd'
      fun a d₁ h₁ hs₁ => ?_
    refine advance_at h₁ fun l d₂ hl h₂ hs₂ => ?_
    rw [hl, if_neg (by decide), if_pos rfl]
    refine (h bound more (position + 1) heading rest (by simp; omega) (by simp; omega)).bind h₂
      fun found d₃ h₃ hs₃ => Comes.pure ⟨?_, h₃⟩
    exact (hs₁.trans hs₂).trans hs₃

/-- The parentheses of a call, around whatever the list of arguments is read from. -/
theorem arguments_accepts {w : List Token} {bound line : Nat} {name : String} {rest : List Token}
    (h : ∀ heading, Accepts (commaSeparated (argument (expression bound) heading) .closeParen bound)
      w rest) :
    Accepts (arguments (expression bound) bound name line) (.mark .openParen :: w) rest := by
  intro d hd
  refine callable_static fun heading => expect_at hd fun _ d₁ h₁ hs₁ => ?_
  refine (h heading).bind h₁ fun found d₂ h₂ hs₂ => ?_
  dsimp only
  split
  · exact Comes.pure ⟨hs₁.trans hs₂, h₂⟩
  · exact Comes.refuse trivial

theorem accepted_noArguments :
    Phrase.arguments.Accepted [.mark .openParen, .mark .closeParen] := by
  intro bound name line rest _
  refine arguments_accepts fun heading d hd => ?_
  exact eat_at hd fun d₁ h₁ hs₁ => Comes.pure ⟨hs₁, h₁⟩

theorem accepted_arguments {w : List Token} (hw : Phrase.values.Derives w)
    (h : Phrase.values.Accepted w) :
    Phrase.arguments.Accepted (.mark .openParen :: (w ++ [.mark .closeParen])) := by
  intro bound name line rest hlength
  refine arguments_accepts fun heading d hd => eat_not ?_ ?_
  · obtain ⟨t, v, rfl, ht⟩ := hw.opens (Or.inr rfl)
    rw [hd]
    intro heq
    obtain rfl : t = .mark .closeParen := Option.some.inj heq
    rcases ht with ht | ht <;> cases ht
  · simp only [List.length_append, List.length_cons, List.length_nil] at hlength
    exact h bound bound 0 heading rest (by simp; omega) (by simp; omega) d hd

/-! ## Operators -/

theorem operator?_at {layer : Layer} {d : Draft} {t : Token} {rest : List Token} {op : BinaryOp}
    (hd : d.words = t :: rest) (spelled : binaryOp? t = some op) (of_layer : op.layer = layer)
    {f : Option BinaryOp → Parse β} {Q : β → Draft → Prop} {E : ParseFault → Prop}
    (h : Comes (f (some op)) d Q E) : Comes (operator? layer >>= f) d Q E := by
  refine Comes.bind (P := fun found d' => d' = d ∧ found = some op)
    (Comes.peek (Comes.pure ⟨rfl, ?_⟩)) ?_
  · rw [hd, List.head?_cons, Option.bind_some, spelled, Option.filter_some,
      if_pos (decide_eq_true of_layer)]
  · rintro found d' ⟨rfl, rfl⟩
    exact h

/-- Where no operator of the layer comes, there are no more of them. -/
theorem operations_stop {operand : Parse Expr} {layer : Layer} {bound : Nat} {left : Expr}
    {d : Draft} {Q : Expr → Draft → Prop} {E : ParseFault → Prop}
    (hends : ∀ t ∈ d.words.head?, ∀ op, binaryOp? t = some op → op.layer ≠ layer)
    (h : Q left d) : Comes (operations operand layer bound left) d Q E := by
  cases bound with
  | zero => exact Comes.pure h
  | succ bound =>
    rw [operations]
    refine Comes.bind (P := fun op d' => d' = d ∧ op = none) (Comes.peek (Comes.pure ⟨rfl, ?_⟩)) ?_
    · cases hwords : d.words with
      | nil => rfl
      | cons t rest =>
        rw [List.head?_cons, Option.bind_some, Option.filter_eq_none_iff]
        intro op hop hlayer
        exact hends t (by rw [hwords]; rfl) op hop (of_decide_eq_true hlayer)
    · rintro op d' ⟨rfl, rfl⟩
      exact Comes.pure h

/-- Where no operator of the layer follows, the operations end. -/
theorem operations_end {operand : Parse Expr} {layer : Layer} {tighter : List Layer}
    {bound : Nat} {left : Expr} {d : Draft} {Q : Expr → Draft → Prop} {E : ParseFault → Prop}
    (hends : EndsPhrase (layer :: tighter) d.words) (h : Q left d) :
    Comes (operations operand layer bound left) d Q E := by
  refine operations_stop (fun t ht op hop hlayer => (hends t ht).2.2 op hop ?_) h
  rw [hlayer]
  exact List.mem_cons_self

/-- An operator and its right operand, in front of more operations. -/
theorem accepted_operation {layer : Layer} {tighter : List Layer} {t : Token} {op : BinaryOp}
    {w v : List Token} (spelled : binaryOp? t = some op) (of_layer : op.layer = layer)
    (hv : (Phrase.operations layer tighter).Derives v)
    (right : (Phrase.layered tighter).Accepted w)
    (h : (Phrase.operations layer tighter).Accepted v) :
    (Phrase.operations layer tighter).Accepted (t :: (w ++ v)) := by
  intro bound more left rest hnodup hbound hmore hends d hd
  rw [List.cons_append, List.append_assoc] at hd hbound hmore
  simp only [List.length_append, List.length_cons] at hbound hmore
  cases more with
  | zero => omega
  | succ more =>
    rw [operations]
    refine operator?_at hd spelled of_layer (advance_at hd fun l d₁ _ h₁ hs₁ => ?_)
    have hright := right bound (v ++ rest) (List.nodup_cons.1 hnodup).2 (by simp; omega)
      (.operations hnodup hv hends)
    refine hright.bind h₁ fun e d₂ h₂ hs₂ => ?_
    have hmore' := h bound more (.binary l.line op left e) rest hnodup (by simp; omega)
      (by simp; omega) hends d₂ h₂
    exact hmore'.imp (fun _ d₃ h₃ => ⟨(hs₁.trans hs₂).trans h₃.1, h₃.2⟩) fun _ hf => hf

/-- A layer is an operand of it and its operations. -/
theorem accepted_layer {layer : Layer} {tighter : List Layer} {w v : List Token}
    (hv : (Phrase.operations layer tighter).Derives v)
    (first : (Phrase.layered tighter).Accepted w)
    (more : (Phrase.operations layer tighter).Accepted v) :
    (Phrase.layered (layer :: tighter)).Accepted (w ++ v) := by
  intro bound rest hnodup hbound hends d hd
  rw [List.append_assoc] at hd hbound
  rw [layered]
  have hfirst := first bound (v ++ rest) (List.nodup_cons.1 hnodup).2 hbound
    (.operations hnodup hv hends)
  simp only [List.length_append] at hbound
  refine hfirst.bind hd fun left d₁ h₁ hs₁ => ?_
  have hmore := more bound bound left rest hnodup (by simp; omega) (by simp; omega) hends d₁ h₁
  exact hmore.imp (fun _ d₂ h₂ => ⟨hs₁.trans h₂.1, h₂.2⟩) fun _ hf => hf

/-- The readers of expressions take what the rules allow. -/
theorem Phrase.Derives.accepted {p : Phrase} {w : List Token} (h : p.Derives w) :
    p.Accepted w := by
  induction h with
  | tightest _ ih => exact fun bound rest _ => ih bound rest
  | layer _ more ihf ihm => exact accepted_layer more ihf ihm
  | noOperation =>
    intro bound more left rest _ _ _ hends d hd
    have hd : d.words = rest := hd
    exact operations_end (hd ▸ hends) ⟨.refl d, hd⟩
  | operation spelled of_layer _ more ihr ihm =>
    exact accepted_operation spelled of_layer more ihr ihm
  | negation h ih => exact accepted_negation h ih
  | complement _ ih => exact accepted_complement ih
  | primary h ih => exact accepted_operand h ih
  | value h => exact accepted_value h
  | slot path ih => exact accepted_slot path ih
  | call given ih => exact accepted_call given ih
  | parenthesized _ ih => exact accepted_parenthesized ih
  | noIndex => exact accepted_noIndex
  | index _ _ ihf ihm => exact accepted_index ihf ihm
  | lastValue last ih => exact accepted_lastValue last ih
  | moreValues first _ ihf ihm => exact accepted_moreValues first ihf ihm
  | noArguments => exact accepted_noArguments
  | arguments given ih => exact accepted_arguments given ih

end Grammar

end Primer
