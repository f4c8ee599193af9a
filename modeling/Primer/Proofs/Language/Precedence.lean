import Primer.Proofs.Language.Rereading

/-!
# Primer.Proofs.Language.Precedence — expressions with as few parentheses as you like.

The binary operators stand on six levels, and the unary ones above them.  An operand needs
parentheses if its operator stands lower than its place asks for: on the left of a binary operator
for the operator's own level, on the right for a higher one, and behind a unary operator for the
level of the unary ones.  Every other pair of parentheses may be there or not.  `WrittenAs` has one
rule for each of these forms.

Main statement: whatever way is taken, the reader of expressions takes just these tokens and answers
the expression (`expression_of_writtenAs`).

The induction is on the way of writing.  On its own level an expression is not all that the reader
takes: more operators of the level may come, and then the expression becomes their left operand.  So
the invariant (`Reaches`) is about the point where the reader has the expression and looks for more
operators of its level.
-/

namespace Primer

/-- How tightly an operator binds. -/
def BinaryOp.level : BinaryOp → Nat
  | or => 0
  | and => 1
  | equal | notEqual => 2
  | less | greater | lessEqual | greaterEqual => 3
  | add | subtract => 4
  | multiply | divide => 5

/-- How tightly the unary operators bind. -/
def UnaryOp.level : Nat := 6

theorem BinaryOp.level_lt (op : BinaryOp) : op.level < UnaryOp.level := by
  cases op <;> decide

namespace Grammar

/-! ## Ways of writing -/

/-- What is written: an expression at a place that asks for a level, indices in brackets, an
argument, or the arguments of a call up to and with the closing parenthesis. -/
inductive Clause where
  | expression (level : Nat) (e : Expr)
  | indices (es : List Expr)
  | argument (a : Argument)
  | arguments (as : List Argument)

/-- The tokens are a way of writing the clause. -/
inductive WrittenAs : Clause → List Token → Prop
  | literal {level line : Nat} {value : Value} (scalar : value.IsLiteral) :
      WrittenAs (.expression level (.literal line value)) value.tokens
  | ident {level line : Nat} {id : String} :
      WrittenAs (.expression level (.ident line id)) [.identifier (Name.bare id)]
  | element {level line : Nat} {id : String} {es : List Expr} {w : List Token}
      (path : WrittenAs (.indices es) w) :
      WrittenAs (.expression level (.element line id es)) (.identifier (Name.bare id) :: w)
  | call {level line : Nat} {name : String} {as : List Argument} {w : List Token}
      (given : WrittenAs (.arguments as) w) :
      WrittenAs (.expression level (.call line name as))
        (.identifier name :: .mark .openParen :: w)
  | negation {level line : Nat} {e : Expr} {w : List Token}
      (inner : WrittenAs (.expression UnaryOp.level e) w) (enclosed : ∀ n, w ≠ [.integer n]) :
      WrittenAs (.expression level (.unary line .negate e)) (.mark .minus :: w)
  | complement {level line : Nat} {e : Expr} {w : List Token}
      (inner : WrittenAs (.expression UnaryOp.level e) w) :
      WrittenAs (.expression level (.unary line .not e)) (.word .not :: w)
  | operation {level line : Nat} {op : BinaryOp} {l r : Expr} {w u : List Token}
      (le_level : level ≤ op.level) (left : WrittenAs (.expression op.level l) w)
      (right : WrittenAs (.expression (op.level + 1) r) u) :
      WrittenAs (.expression level (.binary line op l r)) (w ++ op.token :: u)
  | parenthesized {level : Nat} {e : Expr} {w : List Token}
      (inner : WrittenAs (.expression 0 e) w) :
      WrittenAs (.expression level e) (Token.parenthesized w)
  | noIndex : WrittenAs (.indices []) []
  | index {e : Expr} {es : List Expr} {w u : List Token}
      (first : WrittenAs (.expression 0 e) w) (more : WrittenAs (.indices es) u) :
      WrittenAs (.indices (e :: es)) (.mark .openBracket :: (w ++ .mark .closeBracket :: u))
  | value {e : Expr} {w : List Token} (inner : WrittenAs (.expression 0 e) w) :
      WrittenAs (.argument (.value e)) w
  | reference {line : Nat} {id : String} :
      WrittenAs (.argument (.reference line id)) [.identifier (Name.bare id)]
  | noArgument : WrittenAs (.arguments []) [.mark .closeParen]
  | lastArgument {a : Argument} {w : List Token} (last : WrittenAs (.argument a) w) :
      WrittenAs (.arguments [a]) (w ++ [.mark .closeParen])
  | moreArguments {a b : Argument} {as : List Argument} {w u : List Token}
      (first : WrittenAs (.argument a) w) (more : WrittenAs (.arguments (b :: as)) u) :
      WrittenAs (.arguments (a :: b :: as)) (w ++ .mark .comma :: u)

/-- The clause is an expression or an argument. -/
def Clause.IsItem : Clause → Prop
  | expression .. | argument _ => True
  | indices _ | arguments _ => False

/-- What is written starts with a token that may start an operand. -/
theorem WrittenAs.opens {c : Clause} {w : List Token} (h : WrittenAs c w) (hc : c.IsItem) :
    ∃ t u, w = t :: u ∧ Opens t := by
  induction h with
  | @literal _ line value scalar =>
    exact exists_tokens_cons (v := ⟨fun _ => True, fun _ => True, fun _ => none, none⟩)
      (e := .literal line value) scalar
  | ident | element | call | reference => exact ⟨_, _, rfl, trivial⟩
  | negation => exact ⟨_, _, rfl, Or.inr rfl⟩
  | complement => exact ⟨_, _, rfl, rfl⟩
  | operation _ _ _ ih _ =>
    obtain ⟨t, u, rfl, ht⟩ := ih trivial
    exact ⟨t, _, rfl, ht⟩
  | parenthesized => exact ⟨_, _, rfl, Or.inl rfl⟩
  | value _ ih => exact ih trivial
  | noIndex | index | noArgument | lastArgument | moreArguments => exact hc.elim

theorem WrittenAs.ne_nil {level : Nat} {e : Expr} {w : List Token}
    (h : WrittenAs (.expression level e) w) : w ≠ [] := by
  obtain ⟨t, u, rfl, -⟩ := h.opens trivial
  exact List.cons_ne_nil t u

/-- Behind a unary operator, an integer stands alone. -/
theorem WrittenAs.eq_singleton {e : Expr} {n : Nat} {u : List Token}
    (h : WrittenAs (.expression UnaryOp.level e) (.integer n :: u)) : u = [] := by
  generalize hw : Token.integer n :: u = w at h
  cases h with
  | @literal _ line value scalar =>
    cases value with
    | integer m =>
      rw [Value.tokens] at hw
      split at hw <;> cases hw
      rfl
    | array => exact scalar.elim
    | real | boolean | char | string => cases hw
  | @operation _ _ op _ _ _ _ le_level => exact absurd le_level (Nat.not_le.2 op.level_lt)
  | ident | element | call | negation | complement | parenthesized => cases hw

theorem WrittenAs.brackets {c : Clause} {w : List Token} (h : WrittenAs c w) {es : List Expr}
    (hc : c = .indices es) (hne : es ≠ []) :
    (∃ u, w = .mark .openBracket :: u) ∧ w.getLast? = some (.mark .closeBracket) := by
  induction h generalizing es with
  | noIndex =>
    cases hc
    exact absurd rfl hne
  | @index e es' w u first more _ ih =>
    refine ⟨⟨_, rfl⟩, ?_⟩
    cases es' with
    | nil =>
      cases more
      rw [List.getLast?_cons, List.getLast?_append]
      rfl
    | cons e' es' =>
      rw [List.getLast?_cons, List.getLast?_append, List.getLast?_cons,
        (ih rfl (List.cons_ne_nil _ _)).2]
      rfl
  | _ => cases hc

/-- Arguments do not start with the parenthesis that ends them. -/
theorem WrittenAs.head_ne {as : List Argument} {w : List Token}
    (h : WrittenAs (.arguments as) w) (hne : as ≠ []) (rest : List Token) :
    (w ++ rest).head? ≠ some (.mark .closeParen) := by
  have hopens : ∃ t u, w = t :: u ∧ Opens t := by
    cases h with
    | noArgument => exact absurd rfl hne
    | lastArgument first | moreArguments first =>
      obtain ⟨t, u, rfl, ht⟩ := first.opens trivial
      exact ⟨t, _, rfl, ht⟩
  obtain ⟨t, u, rfl, ht⟩ := hopens
  intro heq
  obtain rfl : t = .mark .closeParen := Option.some.inj heq
  rcases ht with ht | ht <;> cases ht

/-! ## What may follow -/

/-- The second token goes on with what the first one ends. -/
def Joins : Token → Token → Prop
  | .identifier _, t => t = .mark .openParen ∨ t = .mark .openBracket
  | .mark .closeBracket, t => t = .mark .openBracket
  | _, _ => False

/-- An expression that ends with the first token can go on with the second one. -/
def GoesOn (last t : Token) : Prop := (∃ op : BinaryOp, t = op.token) ∨ Joins last t

/-- A token that is read as an operator is the operator's own. -/
theorem token_of_binaryOp? {t : Token} {op : BinaryOp} (h : binaryOp? t = some op) :
    t = op.token := by
  unfold binaryOp? at h
  split at h <;> cases h <;> rfl

/-- What follows neither goes on with the end of the tokens nor is an operator of these layers. -/
def Closes (w : List Token) (layers : List Layer) (rest : List Token) : Prop :=
  ∀ t ∈ rest.head?, (∀ last ∈ w.getLast?, ¬ Joins last t) ∧
    ∀ op, binaryOp? t = some op → op.layer ∉ layers

namespace Closes

variable {w u rest : List Token} {layers layers' : List Layer}

/-- What closes more layers closes fewer of them. -/
theorem mono (h : Closes w layers rest) (hsub : layers' ⊆ layers) : Closes w layers' rest :=
  fun t ht => ⟨(h t ht).1, fun op hop hmem => (h t ht).2 op hop (hsub hmem)⟩

/-- Only the end of the tokens counts. -/
theorem of_append (h : Closes (w ++ u) layers rest) : Closes u layers rest := by
  intro t ht
  refine ⟨fun last hlast => (h t ht).1 last ?_, (h t ht).2⟩
  rw [Option.mem_def] at hlast ⊢
  rw [List.getLast?_append, hlast, Option.some_or]

theorem of_cons {t : Token} (h : Closes (t :: u) layers rest) : Closes u layers rest :=
  of_append (w := [t]) h

/-- A token that starts nothing and joins two operands closes everything. -/
theorem of_none {t : Token} (hop : binaryOp? t = none) (hparen : t ≠ .mark .openParen)
    (hbracket : t ≠ .mark .openBracket) : Closes w layers (t :: rest) := by
  rintro _ ⟨⟩
  refine ⟨fun last _ hjoins => ?_, fun op h => ?_⟩
  · unfold Joins at hjoins
    split at hjoins
    · exact hjoins.elim hparen hbracket
    · exact hbracket hjoins
    · exact hjoins
  · rw [hop] at h
    cases h

theorem operator {op : BinaryOp} (h : op.layer ∉ layers) : Closes w layers (op.token :: rest) := by
  rintro _ ⟨⟩
  refine ⟨fun last _ hjoins => ?_, fun op' hop => ?_⟩
  · unfold Joins at hjoins
    cases op <;> split at hjoins <;> simp [BinaryOp.token] at hjoins
  · rw [binaryOp?_token] at hop
    cases hop
    exact h

end Closes

theorem FollowsItem.closes {w rest : List Token} (h : FollowsItem rest) (layers : List Layer) :
    Closes w layers rest := by
  obtain ⟨m, more, rfl, rfl | rfl⟩ := h <;> exact .of_none rfl (by decide) (by decide)

/-! ## Layers -/

/-- From these tokens the reader of these layers gets to the expression.  With no layer left, it
answers the expression; else it goes on with looking for operators of the loosest layer, of which
the expression is the left operand. -/
def Reaches (v : Names) (e : Expr) (w : List Token) : List Layer → Prop
  | [] => ∀ (bound : Nat) (rest : List Token), (w ++ rest).length ≤ bound → Closes w [] rest →
    Restores v (operand bound) w rest (·.unlined = e.unlined)
  | layer :: tighter => ∀ (bound : Nat) (rest : List Token), (w ++ rest).length ≤ bound →
    Closes w tighter rest → ∀ d : Draft, d.bareNames = v → d.words = w ++ rest →
    ∀ Q : Expr → Draft → Prop,
    (∀ e' d' more, e'.unlined = e.unlined → d.Skips d' → d'.words = rest → rest.length ≤ more →
      Comes (operations (layered (operand bound) bound tighter) layer more e') d' Q
        fun _ => False) →
    Comes (layered (operand bound) bound (layer :: tighter)) d Q fun _ => False

namespace Reaches

variable {v : Names} {e : Expr} {w : List Token}

/-- If no operator of the layers comes, the reader answers the expression. -/
theorem restores : ∀ {layers : List Layer}, Reaches v e w layers → ∀ {bound : Nat}
    {rest : List Token}, (w ++ rest).length ≤ bound → Closes w layers rest →
    Restores v (layered (operand bound) bound layers) w rest (·.unlined = e.unlined)
  | [], h, bound, rest, hlength, hcloses => h bound rest hlength hcloses
  | layer :: tighter, h, bound, rest, hlength, hcloses => by
    intro d hv hd
    refine h bound rest hlength (hcloses.mono (List.subset_cons_self _ _)) d hv hd _
      fun e' d' more he hs hrest _ => operations_stop (fun t ht op hop hlayer => ?_) ⟨hs, hrest, he⟩
    rw [hrest] at ht
    exact (hcloses t ht).2 op hop (hlayer ▸ List.mem_cons_self)

/-- One layer more, of which there is no operator yet. -/
theorem looser {tighter : List Layer} (h : Reaches v e w tighter) (layer : Layer) :
    Reaches v e w (layer :: tighter) := by
  intro bound rest hlength hcloses d hv hd Q hQ
  rw [layered]
  refine (h.restores hlength hcloses).bind hv hd fun e' d' he hrest hs => ?_
  rw [List.length_append] at hlength
  exact hQ e' d' bound he hs hrest (by omega)

/-- What is reached at a tight layer is reached at looser ones. -/
theorem append {tighter : List Layer} (h : Reaches v e w tighter) : ∀ layers : List Layer,
    Reaches v e w (layers ++ tighter)
  | [] => h
  | layer :: layers => (h.append layers).looser layer

/-- An operand is an expression of any layers. -/
theorem of_operand (h : Reaches v e w []) (layers : List Layer) : Reaches v e w layers := by
  rw [← List.append_nil layers]
  exact h.append layers

/-- What stands on a level stands on every lower one. -/
theorem drop {layers : List Layer} {m n : Nat} (h : Reaches v e w (layers.drop n)) (hmn : m ≤ n) :
    Reaches v e w (layers.drop m) := by
  have hsplit := List.take_append_drop (n - m) (layers.drop m)
  rw [List.drop_drop, Nat.add_sub_of_le hmn] at hsplit
  rw [← hsplit]
  exact h.append _

/-- The left operand is reached in the layer of the operator, and there the operator is found. -/
theorem operation {op : BinaryOp} {line : Nat} {l r : Expr} {u : List Token}
    {tighter : List Layer} (hlayer : op.layer ∉ tighter)
    (left : Reaches v l w (op.layer :: tighter)) (right : Reaches v r u tighter) :
    Reaches v (.binary line op l r) (w ++ op.token :: u) (op.layer :: tighter) := by
  intro bound rest hlength hcloses d hv hd Q hQ
  rw [List.append_assoc, List.cons_append] at hlength hd
  have hright : (u ++ rest).length ≤ bound := by
    rw [List.length_append, List.length_cons] at hlength
    omega
  refine left bound _ hlength (.operator hlayer) d hv hd Q fun l' d₁ more hl hs₁ h₁ hmore => ?_
  rw [List.length_cons, List.length_append] at hmore
  obtain ⟨more, rfl⟩ : ∃ less, more = less + 1 := ⟨more - 1, by omega⟩
  rw [operations]
  refine operator?_at h₁ (binaryOp?_token op) rfl (advance_at h₁ fun t d₂ _ h₂ hs₂ => ?_)
  have hs := hs₁.trans hs₂
  have hcloses' := hcloses.of_append.of_cons
  refine (right.restores hright hcloses').bind (hs.bareNames.trans hv) h₂ fun r' d₃ hr h₃ hs₃ => ?_
  refine hQ _ d₃ more ?_ (hs.trans hs₃) h₃ (by omega)
  rw [Expr.unlined, Expr.unlined, hl, hr]

end Reaches

/-- The layers from a level on, split at the level. -/
theorem drop_level (op : BinaryOp) :
    Layer.all.drop op.level = op.layer :: Layer.all.drop (op.level + 1) := by
  cases op <;> rfl

theorem layer_not_mem_drop (op : BinaryOp) : op.layer ∉ Layer.all.drop (op.level + 1) := by
  cases op <;> decide

/-! ## Reading back -/

/-- The clause is read back from the tokens, if it uses what can be named. -/
def Clause.Returned (v : Names) (w : List Token) : Clause → Prop
  | expression level e => e.Sound v → Reaches v e w (Layer.all.drop level)
  | indices es => Expr.SoundList v es → ∀ (bound more : Nat) (rest : List Token),
    (w ++ rest).length ≤ bound → (w ++ rest).length ≤ more →
    rest.head? ≠ some (.mark .openBracket) →
    Restores v (Grammar.indices (Grammar.expression bound) more) w rest
      (Expr.unlinedList · = Expr.unlinedList es)
  | argument a => ∀ (heading : Heading) (position : Nat) (p : Parameter) (bound : Nat)
    (rest : List Token), heading.parameters[position]? = some p → Expr.FitArgument v p.mode a →
    FollowsItem rest → (w ++ rest).length ≤ bound →
    Restores v (Grammar.argument (Grammar.expression bound) heading position) w rest
      (Expr.unlinedArgument · = Expr.unlinedArgument a)
  | arguments as => as ≠ [] → ∀ (heading : Heading) (position bound more : Nat)
    (rest : List Token), Expr.Fit v (heading.parameters.drop position) as →
    (w ++ rest).length ≤ bound → (w ++ rest).length ≤ more →
    Restores v (items (Grammar.argument (Grammar.expression bound) heading) .closeParen more
      position) w rest (Expr.unlinedArguments · = Expr.unlinedArguments as)

section

variable {v : Names} {w u : List Token}

/-- A whole expression is read back. -/
theorem Clause.Returned.restores {e : Expr} (h : (Clause.expression 0 e).Returned v w)
    (hsound : e.Sound v) {bound : Nat} {rest : List Token} (hlength : (w ++ rest).length ≤ bound)
    (hcloses : Closes w Layer.all rest) :
    Restores v (Grammar.expression bound) w rest (·.unlined = e.unlined) :=
  Reaches.restores (h hsound) hlength hcloses

theorem returned_literal {level line : Nat} {value : Value} :
    (Clause.expression level (.literal line value)).Returned v value.tokens := by
  intro hsound
  refine Reaches.of_operand (fun bound rest hlength _ => ?_) _
  exact literal_restores hsound hlength

theorem returned_ident {level line : Nat} {id : String} :
    (Clause.expression level (.ident line id)).Returned v [.identifier (Name.bare id)] := by
  intro hsound
  refine Reaches.of_operand (fun bound rest hlength hcloses => ?_) _
  refine operand_restores (by simp) (by simp) hlength fun more hmore => ?_
  have hends : ∀ m, m = .openParen ∨ m = .openBracket → rest.head? ≠ some (.mark m) := by
    intro m hm ht
    refine (hcloses _ ht).1 _ rfl ?_
    rcases hm with rfl | rfl
    · exact Or.inl rfl
    · exact Or.inr rfl
  refine path_restores (R := (· = [])) hsound (hends _ (Or.inl rfl)) ?_ (fun _ _ => rfl)
    fun _ _ _ hes => by cases hes
  intro d hv hd
  exact indices_stop (by rw [hd]; exact hends _ (Or.inr rfl)) ⟨.refl d, hd, rfl⟩

/-- A name with indices is read back if the indices are. -/
theorem returned_element {level line : Nat} {id : String} {es : List Expr}
    (path : WrittenAs (.indices es) w) (h : (Clause.indices es).Returned v w) :
    (Clause.expression level (.element line id es)).Returned v
      (.identifier (Name.bare id) :: w) := by
  rintro ⟨hid, hne, hes⟩
  refine Reaches.of_operand (fun bound rest hlength hcloses => ?_) _
  obtain ⟨⟨u, rfl⟩, hlast⟩ := path.brackets rfl hne
  refine operand_restores (by simp) (by simp) hlength fun more hmore => ?_
  have hbracket : rest.head? ≠ some (.mark .openBracket) :=
    fun ht => (hcloses.of_cons _ ht).1 _ hlast rfl
  refine path_restores hid (by simp) (h hes more more rest hmore hmore hbracket) (fun hnil => ?_)
    fun line' e es' heq => ?_
  · cases es with
    | nil => exact absurd rfl hne
    | cons => cases hnil
  · exact congrArg (Expr.element 0 id) heq

/-- A call is read back if the arguments are. -/
theorem returned_call {level line : Nat} {name : String} {as : List Argument}
    (given : WrittenAs (.arguments as) w) (h : (Clause.arguments as).Returned v w) :
    (Clause.expression level (.call line name as)).Returned v
      (.identifier name :: .mark .openParen :: w) := by
  rintro ⟨heading, hc, hfit⟩
  refine Reaches.of_operand (fun bound rest hlength _ => ?_) _
  refine operand_restores (by simp) (by simp) hlength fun more hmore => ?_
  have hmore : (w ++ rest).length ≤ more := Nat.le_of_succ_le hmore
  refine named_restores (R := (Expr.unlinedArguments · = Expr.unlinedArguments as))
    (fun line => given_restores line hc ?_ fun found hfound => ?_)
    fun _ found hfound => congrArg (Expr.call 0 name) hfound
  · cases as with
    | nil =>
      cases given
      intro d hv hd
      exact eat_at hd fun d₁ h₁ hs₁ => Comes.pure ⟨hs₁, h₁, rfl⟩
    | cons a as =>
      intro d hv hd
      refine eat_not ?_ (h (List.cons_ne_nil _ _) heading 0 more more rest hfit hmore hmore d hv hd)
      rw [hd]
      exact given.head_ne (List.cons_ne_nil _ _) rest
  · rw [← hfit.length_eq, ← List.length_map, ← Expr.unlinedArguments_eq_map, hfound,
      Expr.unlinedArguments_eq_map, List.length_map]

/-- A negation is read back if its operand is, and is no bare numeral. -/
theorem returned_negation {level line : Nat} {e : Expr}
    (inner : WrittenAs (.expression UnaryOp.level e) w) (enclosed : ∀ n, w ≠ [.integer n])
    (h : (Clause.expression UnaryOp.level e).Returned v w) :
    (Clause.expression level (.unary line .negate e)).Returned v (.mark .minus :: w) := by
  intro hsound
  refine Reaches.of_operand (fun bound rest hlength hcloses => ?_) _
  cases bound with
  | zero => cases hlength
  | succ bound =>
    have hinner : Reaches v e w [] := h hsound
    have hoperand := hinner bound rest (Nat.le_of_succ_le_succ hlength) hcloses.of_cons
    obtain ⟨t, u, rfl, -⟩ := inner.opens trivial
    refine negation_restores (fun n hn => ?_) hoperand fun _ _ he =>
      congrArg (Expr.unary 0 .negate) he
    subst hn
    exact enclosed n (by rw [inner.eq_singleton])

theorem returned_complement {level line : Nat} {e : Expr}
    (h : (Clause.expression UnaryOp.level e).Returned v w) :
    (Clause.expression level (.unary line .not e)).Returned v (.word .not :: w) := by
  intro hsound
  refine Reaches.of_operand (fun bound rest hlength hcloses => ?_) _
  cases bound with
  | zero => cases hlength
  | succ bound =>
    have hinner : Reaches v e w [] := h hsound
    have hoperand := hinner bound rest (Nat.le_of_succ_le_succ hlength) hcloses.of_cons
    exact complement_restores hoperand fun _ _ he => congrArg (Expr.unary 0 .not) he

/-- An operation is read back if both operands are, each at its level. -/
theorem returned_operation {level line : Nat} {op : BinaryOp} {l r : Expr}
    (le_level : level ≤ op.level) (left : (Clause.expression op.level l).Returned v w)
    (right : (Clause.expression (op.level + 1) r).Returned v u) :
    (Clause.expression level (.binary line op l r)).Returned v (w ++ op.token :: u) := by
  rintro ⟨hl, hr⟩
  refine Reaches.drop ?_ le_level
  have hleft := left hl
  rw [drop_level] at hleft ⊢
  exact hleft.operation (layer_not_mem_drop op) (right hr)

/-- Parentheses leave an expression what it is, at any level. -/
theorem returned_parenthesized {level : Nat} {e : Expr}
    (h : (Clause.expression 0 e).Returned v w) :
    (Clause.expression level e).Returned v (Token.parenthesized w) := by
  intro hsound
  refine Reaches.of_operand (fun bound rest hlength _ => ?_) _
  exact inside_restores hlength fun more hmore =>
    h.restores hsound hmore (.of_none rfl (by decide) (by decide))

theorem returned_noIndex : (Clause.indices []).Returned v [] := by
  intro _ bound more rest _ _ hbracket d hv hd
  exact indices_stop (by rw [hd]; exact hbracket) ⟨.refl d, hd, rfl⟩

/-- An index is read back in front of more of them. -/
theorem returned_index {e : Expr} {es : List Expr} (first : (Clause.expression 0 e).Returned v w)
    (later : (Clause.indices es).Returned v u) :
    (Clause.indices (e :: es)).Returned v
      (.mark .openBracket :: (w ++ .mark .closeBracket :: u)) := by
  rintro ⟨he, hes⟩ bound more rest hbound hmore hbracket
  simp only [List.length_cons, List.length_append] at hbound hmore
  obtain ⟨more, rfl⟩ : ∃ less, more = less + 1 := ⟨more - 1, by omega⟩
  refine index_restores (first.restores he (by simp; omega) (.of_none rfl (by decide) (by decide)))
    (later hes bound more rest (by simp; omega) (by simp; omega) hbracket) fun e' es' he' hes' => ?_
  rw [Expr.unlinedList, Expr.unlinedList, he', hes']

theorem returned_value {e : Expr} (h : (Clause.expression 0 e).Returned v w) :
    (Clause.argument (.value e)).Returned v w := by
  rintro heading position ⟨mode, type, name⟩ bound rest hp ⟨rfl, hsound⟩ hrest hlength
  exact valueArgument_restores hp (h.restores hsound hlength (hrest.closes _))
    fun e' he => congrArg Argument.value he

theorem returned_reference {line : Nat} {id : String} :
    (Clause.argument (.reference line id)).Returned v [.identifier (Name.bare id)] := by
  rintro heading position ⟨mode, type, name⟩ bound rest hp ⟨rfl, hid⟩ hrest _
  exact referenceArgument_restores hp hid hrest _

/-- The parameter at a position is the first one from there on. -/
theorem getElem?_of_drop {parameters more : List Parameter} {position : Nat} {p : Parameter}
    (h : parameters.drop position = p :: more) :
    parameters[position]? = some p ∧ parameters.drop (position + 1) = more := by
  have hp : (parameters.drop position)[0]? = parameters[position + 0]? := List.getElem?_drop
  rw [h] at hp
  refine ⟨hp.symm, ?_⟩
  rw [← List.drop_drop, h]
  rfl

theorem returned_last {a : Argument} (last : (Clause.argument a).Returned v w) :
    (Clause.arguments [a]).Returned v (w ++ [.mark .closeParen]) := by
  rintro - heading position bound more rest ⟨p, later, hp, ha, -⟩ hbound hmore
  simp only [List.length_append, List.length_cons, List.length_nil] at hbound hmore
  obtain ⟨more, rfl⟩ : ∃ less, more = less + 1 := ⟨more - 1, by omega⟩
  refine lastItem_restores (last heading position p bound _ (getElem?_of_drop hp).1 ha
    ⟨_, _, rfl, Or.inr rfl⟩ (by simp; omega)) fun a' ha' => ?_
  rw [Expr.unlinedArguments, ha']
  rfl

/-- An argument is read back in front of more of them. -/
theorem returned_more {a b : Argument} {as : List Argument}
    (first : (Clause.argument a).Returned v w)
    (later : (Clause.arguments (b :: as)).Returned v u) :
    (Clause.arguments (a :: b :: as)).Returned v (w ++ .mark .comma :: u) := by
  rintro - heading position bound more rest ⟨p, parameters, hp, ha, has⟩ hbound hmore
  simp only [List.length_append, List.length_cons] at hbound hmore
  obtain ⟨more, rfl⟩ : ∃ less, more = less + 1 := ⟨more - 1, by omega⟩
  obtain ⟨hat, hdrop⟩ := getElem?_of_drop hp
  rw [← hdrop] at has
  refine moreItems_restores
    (first heading position p bound _ hat ha ⟨_, _, rfl, Or.inl rfl⟩ (by simp; omega))
    (later (List.cons_ne_nil _ _) heading (position + 1) bound more rest has (by simp; omega)
      (by simp; omega)) fun a' as' ha' has' => ?_
  rw [Expr.unlinedArguments, ha', has']
  rfl

/-- What is written is read back. -/
theorem WrittenAs.returned {c : Clause} (h : WrittenAs c w) : c.Returned v w := by
  induction h with
  | literal => exact returned_literal
  | ident => exact returned_ident
  | element path ih => exact returned_element path ih
  | call given ih => exact returned_call given ih
  | negation inner enclosed ih => exact returned_negation inner enclosed ih
  | complement _ ih => exact returned_complement ih
  | operation le_level _ _ ihl ihr => exact returned_operation le_level ihl ihr
  | parenthesized _ ih => exact returned_parenthesized ih
  | noIndex => exact returned_noIndex
  | index _ _ ihf ihm => exact returned_index ihf ihm
  | value _ ih => exact returned_value ih
  | reference => exact returned_reference
  | noArgument => exact fun hne => absurd rfl hne
  | lastArgument _ ih => exact returned_last ih
  | moreArguments _ _ ihf ihm => exact returned_more ihf ihm

end

/-- Where everything in an expression can be named, the reader takes just the tokens by which it is
written, if the next one cannot go on with it, and answers the expression with new lines. -/
theorem expression_of_writtenAs {e : Expr} {w rest : List Token} {d : Draft} {bound : Nat}
    (h : WrittenAs (.expression 0 e) w) (hsound : e.Sound d.bareNames) (hd : d.words = w ++ rest)
    (hbound : d.words.length ≤ bound)
    (hrest : ∀ last ∈ w.getLast?, ∀ t ∈ rest.head?, ¬ GoesOn last t) :
    ∃ e' d', (expression bound).run d = .ok e' d' ∧ d.Skips d' ∧ d'.words = rest ∧
      e'.unlined = e.unlined := by
  have hcloses : Closes w Layer.all rest := by
    obtain ⟨last, hlast⟩ : ∃ last, w.getLast? = some last :=
      ⟨_, List.getLast?_eq_some_getLast h.ne_nil⟩
    intro t ht
    refine ⟨fun last' hlast' hjoins => hrest last' hlast' t ht (Or.inr hjoins), fun op hop _ => ?_⟩
    exact hrest last hlast t ht (Or.inl ⟨op, token_of_binaryOp? hop⟩)
  rw [hd] at hbound
  exact (h.returned.restores hsound hbound hcloses d rfl hd).answers

/-- The tokens of `-x * (2 + 3) - 4 - f(x, n);`. -/
def chainTokens : List Lexeme :=
  [⟨.mark .minus, 2⟩, ⟨.identifier "x", 2⟩, ⟨.mark .star, 2⟩, ⟨.mark .openParen, 2⟩,
    ⟨.integer 2, 2⟩, ⟨.mark .plus, 2⟩, ⟨.integer 3, 2⟩, ⟨.mark .closeParen, 2⟩,
    ⟨.mark .minus, 2⟩, ⟨.integer 4, 2⟩, ⟨.mark .minus, 3⟩, ⟨.identifier "f", 3⟩,
    ⟨.mark .openParen, 3⟩, ⟨.identifier "x", 3⟩, ⟨.mark .comma, 3⟩, ⟨.identifier "n", 3⟩,
    ⟨.mark .closeParen, 3⟩, ⟨.mark .semicolon, 3⟩]

/-- Inside a function `f` with a parameter `x` that is a value and a parameter `n` that is not. -/
def chainDraft : Draft :=
  { Draft.start chainTokens with
    tree := (Tree.empty.allocate (.routine ⟨some .integer, .exported, "f",
      [⟨.byValue, .integer, "x"⟩, ⟨.byReference, .integer, "n"⟩], "m^f"⟩) 1).2
    blocks := [⟨0, "m^f", []⟩] }

/-- The sum that has to stand in parentheses. -/
def chainSum : Expr :=
  .binary 0 .add (.literal 0 (.integer ⟨2, by decide, by decide⟩))
    (.literal 0 (.integer ⟨3, by decide, by decide⟩))

/-- The expression of these tokens: the operators of one level group to the left. -/
def chain : Expr :=
  .binary 0 .subtract
    (.binary 0 .subtract
      (.binary 0 .multiply (.unary 0 .negate (.ident 0 "x")) chainSum)
      (.literal 0 (.integer ⟨4, by decide, by decide⟩)))
    (.call 0 "f" [.value (.ident 0 "x"), .reference 0 "n"])

/-- A chain of operators with parentheses on the right only. -/
theorem expression_of_chain : WrittenAs (.expression 0 chain) chainDraft.words.dropLast ∧
    chain.Sound chainDraft.bareNames ∧ ∃ e d, (expression 18).run chainDraft = .ok e d ∧
      chainDraft.Skips d ∧ d.words = [.mark .semicolon] ∧ e.unlined = chain.unlined := by
  have hinteger : ∀ (level : Nat) (n : Integer), WrittenAs (.expression level (.literal 0
      (.integer n))) (Value.integer n).tokens := fun _ _ => .literal trivial
  have hx : ∀ level, WrittenAs (.expression level (.ident 0 "x")) [.identifier "x"] :=
    fun _ => .ident
  have hsum : WrittenAs (.expression 0 chainSum) [.integer 2, .mark .plus, .integer 3] :=
    .operation (by decide) (hinteger _ _) (hinteger _ _)
  have hcall : WrittenAs (.expression 5 (.call 0 "f" [.value (.ident 0 "x"), .reference 0 "n"]))
      [.identifier "f", .mark .openParen, .identifier "x", .mark .comma, .identifier "n",
        .mark .closeParen] :=
    .call (.moreArguments (.value (hx 0)) (.lastArgument .reference))
  have hwritten : WrittenAs (.expression 0 chain) chainDraft.words.dropLast :=
    .operation (by decide)
      (.operation (by decide)
        (.operation (by decide) (.negation (hx _) (by simp)) (.parenthesized hsum))
        (hinteger _ _))
      hcall
  have hsound : chain.Sound chainDraft.bareNames := by
    refine ⟨⟨⟨rfl, trivial, trivial⟩, trivial⟩, _, rfl, ?_⟩
    exact ⟨_, _, rfl, ⟨rfl, rfl⟩, _, _, rfl, ⟨rfl, rfl, rfl⟩, rfl⟩
  have hwords : chainDraft.words = chainDraft.words.dropLast ++ [.mark .semicolon] := rfl
  refine ⟨hwritten, hsound, ?_⟩
  exact expression_of_writtenAs hwritten hsound hwords (by decide)
    (by rintro _ ⟨⟩ _ ⟨⟩ (⟨op, hop⟩ | h)
        · cases op <;> cases hop
        · exact h.elim)

end Grammar

end Primer
