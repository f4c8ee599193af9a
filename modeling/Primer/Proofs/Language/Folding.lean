import Primer.Proofs.Language.Printing
import Primer.Proofs.Language.Rereading

/-!
# Primer.Proofs.Language.Folding — the text of an expression is read as the expression.

The text has parentheses around binary operations only, so each expression is written as an operand
and is read as one, up to one change: a minus in front of an integer literal without a sign becomes
a part of the literal (`Expr.folded`).  The induction is on the expression, as for the writing with
all parentheses.

Folding is the one thing that reading adds to the text.  A minus sign in front of digits is read
together with them, so that the least integer can be written; a negation of a literal is therefore
read as another literal, which has the same text.  Everything else comes back as it was, and
`Expr.folded` says so for whole expressions.  The lemmas on brackets and parentheses are those for
any `Writing`, of which the text is one.

Main statement: `restoredText`.
-/

namespace Primer

namespace Expr

/-! ## Literals with a sign -/

/-- The integer that a minus in front of this expression makes, if the expression is an integer
literal without a sign. -/
def opposite? : Expr → Option Integer
  | literal _ (.integer n) => if 0 ≤ n.val then n.neg? else none
  | _ => none

mutual

/-- The expression with every minus in front of an integer literal without a sign taken into the
literal. -/
def folded : Expr → Expr
  | literal line value => literal line value
  | ident line id => ident line id
  | element line id indices => element line id (foldedList indices)
  | call line name arguments => call line name (foldedArguments arguments)
  | unary line .negate operand =>
    match opposite? operand with
    | some n => literal line (.integer n)
    | none => unary line .negate (folded operand)
  | unary line .not operand => unary line .not (folded operand)
  | binary line op left right => binary line op (folded left) (folded right)

/-- Folding indices one after another. -/
def foldedList : List Expr → List Expr
  | [] => []
  | e :: rest => folded e :: foldedList rest

/-- Folding arguments. -/
def foldedArguments : List Argument → List Argument
  | [] => []
  | a :: rest => foldedArgument a :: foldedArguments rest

/-- Folding an argument, if it is a value. -/
def foldedArgument : Argument → Argument
  | .value e => .value (folded e)
  | .reference line id => .reference line id

end

/-- An expression whose negation is a literal is a literal without a sign. -/
theorem opposite?_eq_some {e : Expr} {m : Integer} (h : e.opposite? = some m) :
    ∃ line n, e = literal line (.integer n) ∧ 0 ≤ n.val ∧ m.val = -n.val := by
  unfold opposite? at h
  split at h
  · split at h
    · rename_i line n hn
      exact ⟨line, n, rfl, hn, Integer.ofInt?_eq_some_iff.1 h⟩
    · cases h
  · cases h

/-- Every integer without a sign has an opposite. -/
theorem opposite?_eq_none {line : Nat} {n : Integer}
    (h : (literal line (.integer n)).opposite? = none) : n.val < 0 := by
  unfold opposite? at h
  dsimp only at h
  split at h
  · have hupper := n.upper
    rcases Integer.ofInt?_eq_none_iff.1 h with h | h <;> omega
  · omega

end Expr

namespace Grammar

variable {v : Names}

/-- As in the text of an expression. -/
def Writing.text : Writing := ⟨Expr.textTokens, fun e => e.folded.unlined⟩

/-- The text of an expression is read as an operand, wherever what it names is known. -/
def RestoredOperand (e : Expr) : Prop :=
  ∀ (v : Names) (bound : Nat) (rest : List Token), e.Sound v →
    (e.textTokens ++ rest).length ≤ bound → EndsPhrase [] rest →
    Restores v (operand bound) e.textTokens rest (·.unlined = e.folded.unlined)

theorem RestoredOperand.restored {e : Expr} (h : RestoredOperand e) : Writing.text.Restored e :=
  fun v bound rest hsound hlength hends =>
    layered_restores (h v bound rest hsound hlength (hends.mono (List.nil_subset _)))
      Layer.all hends

/-! ## How the text starts -/

/-- The text starts with a token that may start an operand. -/
theorem exists_textTokens_cons : ∀ {e : Expr}, e.Sound v →
    ∃ t w, e.textTokens = t :: w ∧ Opens t ∧ (e.opposite? = none → ∀ n, t ≠ .integer n)
  | .literal line (.integer n), _ => by
    rw [Expr.textTokens, Value.tokens]
    split
    · exact ⟨_, _, rfl, Or.inr rfl, fun _ _ => by simp⟩
    · rename_i hn
      exact ⟨_, _, rfl, trivial, fun h => absurd (Expr.opposite?_eq_none h) hn⟩
  | .literal _ (.real _), _ | .literal _ (.boolean _), _ | .literal _ (.char _), _
  | .literal _ (.string _), _ => ⟨_, _, rfl, trivial, fun _ _ => by simp⟩
  | .literal _ (.array ..), h => h.elim
  | .ident .., _ | .element .., _ | .call .., _ => ⟨_, _, rfl, trivial, fun _ _ => by simp⟩
  | .unary _ .negate _, _ => ⟨_, _, rfl, Or.inr rfl, fun _ _ => by simp [UnaryOp.token]⟩
  | .unary _ .not _, _ => ⟨_, _, rfl, rfl, fun _ _ => by simp [UnaryOp.token]⟩
  | .binary .., _ => ⟨_, _, rfl, Or.inl rfl, fun _ _ => by simp⟩

theorem text_opening : Writing.text.Opening := by
  intro v e hsound
  obtain ⟨t, w, hw, ht, -⟩ := exists_textTokens_cons hsound
  exact ⟨t, w, hw, ht⟩

/-! ## Operators -/

/-- A minus sign in front of an operand is read back, as a part of a literal or not. -/
theorem minus_restores {line : Nat} {e : Expr} (h : RestoredOperand e) (hsound : e.Sound v)
    {bound : Nat} {rest : List Token}
    (hlength : (.mark .minus :: e.textTokens ++ rest).length ≤ bound)
    (hends : EndsPhrase [] rest) :
    Restores v (operand bound) (.mark .minus :: e.textTokens) rest
      (·.unlined = (Expr.unary line .negate e).folded.unlined) := by
  rw [Expr.folded]
  cases hopposite : e.opposite? with
  | some m =>
    -- the minus belongs to the literal
    obtain ⟨_, n, rfl, hn, hm⟩ := Expr.opposite?_eq_some hopposite
    rw [Expr.textTokens, Value.tokens, if_neg (by omega)] at hlength ⊢
    exact negative_restores (by omega) hlength
  | none =>
    obtain ⟨t, w, hw, -, ht⟩ := exists_textTokens_cons hsound
    cases bound with
    | zero => cases hlength
    | succ bound =>
      have hinner := h v bound rest hsound (Nat.le_of_succ_le_succ hlength) hends
      rw [hw] at hinner ⊢
      exact negation_restores (ht hopposite) hinner
        fun _ _ ha => congrArg (Expr.unary 0 .negate) ha

theorem not_restores {e : Expr} (h : RestoredOperand e) (hsound : e.Sound v) {bound : Nat}
    {rest : List Token} (hlength : (.word .not :: e.textTokens ++ rest).length ≤ bound)
    (hends : EndsPhrase [] rest) :
    Restores v (operand bound) (.word .not :: e.textTokens) rest
      (·.unlined = .unary 0 .not e.folded.unlined) := by
  cases bound with
  | zero => cases hlength
  | succ bound =>
    have hinner := h v bound rest hsound (Nat.le_of_succ_le_succ hlength) hends
    exact complement_restores hinner fun _ _ ha => congrArg (Expr.unary 0 .not) ha

/-- An operation in its parentheses is read back. -/
theorem operation_restoresText {op : BinaryOp} {l r : Expr} (hl : RestoredOperand l)
    (hr : RestoredOperand r) (hsound : l.Sound v ∧ r.Sound v) {bound : Nat} {rest : List Token}
    (hlength : (Token.parenthesized (l.textTokens ++ op.token :: r.textTokens)
      ++ rest).length ≤ bound) :
    Restores v (operand bound) (Token.parenthesized (l.textTokens ++ op.token :: r.textTokens)) rest
      (·.unlined = .binary 0 op l.folded.unlined r.folded.unlined) := by
  refine inside_restores hlength fun more hmore => ?_
  have hends : ∀ layers, EndsPhrase layers (.mark .closeParen :: rest) :=
    fun _ => .of_none rfl (by decide) (by decide)
  rw [List.append_assoc, List.cons_append] at hmore
  have hright : (r.textTokens ++ .mark .closeParen :: rest).length ≤ more := by
    rw [List.length_append, List.length_cons] at hmore
    omega
  refine operation_restores hmore
    (hl v more _ hsound.1 hmore (.operator List.not_mem_nil _))
    (hr v more _ hsound.2 hright (hends _)) ?_ Layer.all (by decide) (by cases op <;> decide)
    (hends _)
  intro line a b ha hb
  show Expr.binary 0 op a.unlined b.unlined = _
  rw [ha, hb]

/-! ## Expressions -/

theorem indexTextTokens_eq (es : List Expr) :
    Expr.indexTextTokens es = Token.bracketed (es.map Writing.text.tokens) := by
  induction es with
  | nil => rfl
  | cons e rest ih =>
    rw [Expr.indexTextTokens, ih]
    rfl

theorem argumentTextTokens_eq (as : List Argument) :
    Expr.argumentTextTokens as = as.map Writing.text.argumentTokens := by
  induction as with
  | nil => rfl
  | cons a rest ih =>
    rw [Expr.argumentTextTokens, ih]
    cases a <;> rfl

theorem unlined_foldedList (es : List Expr) :
    Expr.unlinedList (Expr.foldedList es) = es.map Writing.text.image := by
  induction es with
  | nil => rfl
  | cons e rest ih =>
    rw [Expr.foldedList, Expr.unlinedList, ih]
    rfl

theorem unlined_foldedArguments (as : List Argument) :
    Expr.unlinedArguments (Expr.foldedArguments as) = as.map Writing.text.argumentImage := by
  induction as with
  | nil => rfl
  | cons a rest ih =>
    rw [Expr.foldedArguments, Expr.unlinedArguments, ih]
    cases a <;> rfl

mutual

/-- The text of a sound expression is read as the expression. -/
theorem restoredText : ∀ e : Expr, RestoredOperand e
  | .literal _ value => fun v bound rest hsound hlength _ => literal_restores hsound hlength
  | .ident _ id => fun v bound rest hsound hlength hends => by
    refine operand_restores (by simp) (by simp) hlength fun more hmore => ?_
    exact slot_restores (s := .text) [] hsound (fun e he => by cases he) trivial hmore hends
      (fun _ _ => rfl) fun hne => absurd rfl hne
  | .element _ id indices => fun v bound rest hsound hlength hends => by
    obtain ⟨hreads, hne, hindices⟩ := hsound
    rw [Expr.textTokens, indexTextTokens_eq] at hlength ⊢
    refine operand_restores (by simp) (by simp) hlength fun more hmore => ?_
    refine slot_restores (s := .text) indices hreads (restoredTexts indices) hindices hmore hends
      (fun hnil => absurd hnil hne) fun _ line as has => ?_
    rw [Expr.folded, Expr.unlined, Expr.unlined, Expr.unlinedList_eq_map, unlined_foldedList, has]
  | .call _ name arguments => fun v bound rest hsound hlength hends => by
    obtain ⟨heading, hc, hfit⟩ := hsound
    rw [Expr.textTokens, argumentTextTokens_eq] at hlength ⊢
    rw [Expr.folded, Expr.unlined, unlined_foldedArguments]
    refine operand_restores (by simp) (by simp) hlength fun more hmore => ?_
    exact call_restores text_opening hc hfit (restoredArgumentTexts arguments)
      (Nat.le_of_succ_le hmore)
  | .unary _ .negate operand => fun v bound rest hsound hlength hends =>
    minus_restores (restoredText operand) hsound hlength hends
  | .unary _ .not operand => fun v bound rest hsound hlength hends =>
    not_restores (restoredText operand) hsound hlength hends
  | .binary _ op left right => fun v bound rest hsound hlength _ =>
    operation_restoresText (restoredText left) (restoredText right) hsound hlength

/-- What is read back of each expression is read back of all. -/
theorem restoredTexts : ∀ es : List Expr, ∀ e ∈ es, Writing.text.Restored e
  | [] => fun _ h => by cases h
  | e :: rest => List.forall_mem_cons.2 ⟨(restoredText e).restored, restoredTexts rest⟩

theorem restoredArgumentTexts : ∀ as : List Argument, ∀ a ∈ as, Writing.text.RestoredArgument a
  | [] => fun _ h => by cases h
  | a :: rest => List.forall_mem_cons.2 ⟨restoredArgumentText a, restoredArgumentTexts rest⟩

theorem restoredArgumentText : ∀ a : Argument, Writing.text.RestoredArgument a
  | .value e => (restoredText e).restored
  | .reference .. => trivial

end

end Grammar

end Primer
