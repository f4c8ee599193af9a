import Primer.Proofs.Language.Precedence
import Primer.Proofs.Run.Arithmetic

/-!
# Primer.Proofs.Language.Formulas — arithmetic as it is written.

A `Formula` is arithmetic before it is read: numerals of any size, names, minus signs, the four
operations and parentheses, every token with its line.  `Formula.expr?` is the tree it stands for,
with a minus sign in front of a numeral put into the literal; there is none if a literal is out of
range or a name is unknown.  Whether the sign is put there or not does not change the value
(`Formula.whole?_of_expr?`).

If the reader of expressions accepts the tokens of a formula, it has read this tree.  Nothing is
said of when it does, so the lemmas are about answers only, and a refusal may be any (`Answers`).
The induction is on the formula, with the invariant of `Reaches` (`Formula.Leads`).

A formula does not say how it is parenthesised in the sense of layers: `Formula.Closed` asks of an
operand that it has parentheses where its operator would bind less, so every formula that is written
properly has one tree.  Whether a formula is an operand, or goes on with operators of some layers,
is what `Leads` counts.

Main statement: `computesExactly_of_formula`.
-/

namespace Primer

/-- Arithmetic with the lines of its tokens. -/
inductive Formula where
  | numeral (line n : Nat)
  | name (line : Nat) (x : String)
  | negation (line : Nat) (inner : Formula)
  | operation (line : Nat) (op : BinaryOp) (left right : Formula)
  | group (opening closing : Nat) (inner : Formula)

namespace Formula

/-- The tokens by which the formula is written. -/
def lexemes : Formula → List Lexeme
  | numeral line n => [⟨.integer n, line⟩]
  | name line x => [⟨.identifier x, line⟩]
  | negation line inner => ⟨.mark .minus, line⟩ :: inner.lexemes
  | operation line op left right => left.lexemes ++ ⟨op.token, line⟩ :: right.lexemes
  | group opening closing inner =>
    ⟨.mark .openParen, opening⟩ :: (inner.lexemes ++ [⟨.mark .closeParen, closing⟩])

/-- How tightly the parts of the formula hang together. -/
def level : Formula → Nat
  | operation _ op _ _ => op.level
  | _ => UnaryOp.level

/-- Parentheses stand where they have to: around looser operands, and on the right also around those
that are as tight. -/
def IsWritten : Formula → Prop
  | numeral .. | name .. => True
  | negation _ inner => inner.IsWritten ∧ UnaryOp.level ≤ inner.level
  | operation _ op left right => op.IsArithmetic ∧ left.IsWritten ∧ right.IsWritten ∧
    op.level ≤ left.level ∧ op.level < right.level
  | group _ _ inner => inner.IsWritten

/-- The names in the formula. -/
def names : Formula → List String
  | numeral .. => []
  | name _ x => [x]
  | negation _ inner | group _ _ inner => inner.names
  | operation _ _ left right => left.names ++ right.names

/-- The value of the formula in whole numbers without bounds, quotients going toward zero. -/
def value? (vars : String → Option Int) : Formula → Option Int
  | numeral _ n => some n
  | name _ x => vars x
  | negation _ inner => (inner.value? vars).map (-·)
  | operation _ op left right =>
    (left.value? vars).bind fun a => (right.value? vars).bind fun b => op.whole? a b
  | group _ _ inner => inner.value? vars

/-- The tree of the formula, where names stand for these ids.  A minus sign directly in front of a
numeral belongs to the literal. -/
def expr? (resolve? : String → Option String) : Formula → Option Expr
  | numeral line n => (Integer.ofInt? n).map fun i => .literal line (.integer i)
  | name line x => (resolve? x).map (.ident line ·)
  | negation line (numeral _ n) => (Integer.ofInt? (-n)).map fun i => .literal line (.integer i)
  | negation line inner => (inner.expr? resolve?).map (.unary line .negate ·)
  | operation line op left right =>
    (left.expr? resolve?).bind fun l => (right.expr? resolve?).map fun r => .binary line op l r
  | group _ _ inner => inner.expr? resolve?

/-! ## The value of the tree -/

/-- A literal in range is the literal of its number. -/
theorem literal_of_map {n : Int} {line : Nat} {e : Expr}
    (h : ((Integer.ofInt? n).map fun i => Expr.literal line (.integer i)) = some e) :
    ∃ i : Integer, e = .literal line (.integer i) ∧ i.val = n := by
  obtain ⟨i, hi, rfl⟩ := Option.map_eq_some_iff.1 h
  exact ⟨i, rfl, Integer.ofInt?_eq_some_iff.1 hi⟩

/-- A minus sign in front of anything but a numeral is an operator. -/
theorem expr?_negation {resolve? : String → Option String} {line : Nat} {inner : Formula}
    (h : ∀ l n, inner ≠ numeral l n) : (negation line inner).expr? resolve?
      = (inner.expr? resolve?).map (.unary line .negate ·) := by
  cases inner with
  | numeral l n => exact absurd rfl (h l n)
  | _ => rfl

/-- Where the names stand for integers, the tree is arithmetic on integers and has the value of the
formula, be a minus sign put into a literal or not. -/
theorem whole?_of_expr? {m : Memory} {resolve? : String → Option String} :
    ∀ {f : Formula} {e : Expr}, f.IsWritten → f.expr? resolve? = some e →
      (∀ x ∈ f.names, ∀ id, resolve? x = some id → ∃ i, m.load id = .ok (.integer i)) →
      e.IsWhole m ∧ e.whole? m = f.value? fun x => (resolve? x).bind m.whole?
  | numeral line n, e, _, he, _ => by
    obtain ⟨i, rfl, hi⟩ := literal_of_map he
    exact ⟨.literal line i, congrArg some hi⟩
  | name line x, e, _, he, hnames => by
    obtain ⟨id, hid, rfl⟩ := Option.map_eq_some_iff.1 he
    obtain ⟨i, hload⟩ := hnames x List.mem_cons_self id hid
    refine ⟨.variable line hload, ?_⟩
    rw [value?, hid]
    rfl
  | negation line (numeral l n), e, _, he, _ => by
    obtain ⟨i, rfl, hi⟩ := literal_of_map he
    exact ⟨.literal line i, congrArg some hi⟩
  | negation line (name l x), e, hf, he, hnames
  | negation line (negation l g), e, hf, he, hnames
  | negation line (operation l op g h), e, hf, he, hnames
  | negation line (group l k g), e, hf, he, hnames => by
    -- Everything but a numeral keeps its minus; that of a numeral goes into the literal.
    rw [expr?_negation (by simp)] at he
    obtain ⟨a, ha, rfl⟩ := Option.map_eq_some_iff.1 he
    obtain ⟨hwhole, hvalue⟩ := whole?_of_expr? hf.1 ha hnames
    refine ⟨.negation line hwhole, ?_⟩
    rw [Expr.whole?, hvalue]
    rfl
  | operation line op left right, e, hf, he, hnames => by
    obtain ⟨hop, hleft, hright, -⟩ := hf
    obtain ⟨l, hl, he⟩ := Option.bind_eq_some_iff.1 he
    obtain ⟨r, hr, rfl⟩ := Option.map_eq_some_iff.1 he
    obtain ⟨hwhole, hvalue⟩ :=
      whole?_of_expr? hleft hl fun x hx => hnames x (List.mem_append_left _ hx)
    obtain ⟨hwhole', hvalue'⟩ :=
      whole?_of_expr? hright hr fun x hx => hnames x (List.mem_append_right _ hx)
    refine ⟨.operation line hop hwhole hwhole', ?_⟩
    rw [Expr.whole?, hvalue, hvalue']
    rfl
  | group _ _ inner, e, hf, he, hnames => whole?_of_expr? (f := inner) hf he hnames

end Formula

namespace Grammar

variable {α β : Type}

/-! ## Answers -/

/-- An answer of the reader has the property. -/
def Answers (x : Parse α) (d : Draft) (Q : α → Draft → Prop) : Prop :=
  Comes x d Q fun _ => True

/-- A token that is there is taken with its line. -/
theorem advance_lexeme {d : Draft} {l : Lexeme} {rest : List Lexeme} (hd : d.tokens = l :: rest)
    {f : Lexeme → Parse β} {Q : β → Draft → Prop}
    (h : ∀ d', d'.tokens = rest → d.Skips d' → Answers (f l) d' Q) :
    Answers (advance >>= f) d Q := by
  refine Comes.advance (fun _ => trivial) fun l' d' hdrops => ?_
  have htokens := hdrops.tokens
  rw [hd] at htokens
  obtain ⟨rfl, rfl⟩ := List.cons.inj htokens
  exact h d' rfl hdrops.toSkips

/-- A token that is there may be expected. -/
theorem expect_lexeme {d : Draft} {l : Lexeme} {rest : List Lexeme} (hd : d.tokens = l :: rest)
    {f : Nat → Parse β} {Q : β → Draft → Prop}
    (h : ∀ d', d'.tokens = rest → d.Skips d' → Answers (f l.line) d' Q) :
    Answers (expect l.token >>= f) d Q := by
  refine Comes.bind (P := fun line d' => line = l.line ∧ d'.tokens = rest ∧ d.Skips d') ?_ ?_
  · refine advance_lexeme hd fun d' hrest hs => ?_
    rw [if_pos rfl]
    exact Comes.pure ⟨rfl, hrest, hs⟩
  · rintro line d' ⟨rfl, hrest, hs⟩
    exact h d' hrest hs

/-- The next token, where the tokens are known with their lines. -/
theorem peek_lexeme {d : Draft} {ls : List Lexeme} (hd : d.tokens = ls)
    {f : Option Token → Parse β} {Q : β → Draft → Prop}
    (h : Answers (f (ls.head?.map (·.token))) d Q) : Answers (peek >>= f) d Q := by
  subst hd
  exact h

end Grammar

/-! ## Formulas in front of a reader -/

namespace Formula

open Grammar

variable {f left right inner : Formula} {rest : List Lexeme}

/-- The tokens without their lines. -/
def words (f : Formula) : List Token := f.lexemes.map (·.token)

/-- What follows neither goes on with the end of the formula nor is an operator of these layers. -/
def Closed (f : Formula) (layers : List Layer) (rest : List Lexeme) : Prop :=
  Closes f.words layers (rest.map (·.token))

/-- An operator of another layer ends a formula. -/
theorem closed_operator {op : BinaryOp} {layers : List Layer} (h : op.layer ∉ layers) (line : Nat) :
    f.Closed layers (⟨op.token, line⟩ :: rest) :=
  Closes.operator h

/-- What closes an operation closes its right operand. -/
theorem Closed.of_operation {line : Nat} {op : BinaryOp} {layers : List Layer}
    (h : (operation line op left right).Closed layers rest) : right.Closed layers rest := by
  unfold Closed words at h ⊢
  rw [lexemes, List.map_append] at h
  exact h.of_append.of_cons

/-- The reader has read the formula. -/
structure Read (f : Formula) (d : Draft) (rest : List Lexeme) (e : Expr) (d' : Draft) : Prop where
  skips : d.Skips d'
  tokens : d'.tokens = rest
  expr : f.expr? d.resolve? = some e

/-- In front of the formula, the reader answers its tree or refuses. -/
def ReadBy (f : Formula) (x : Parse Expr) (rest : List Lexeme) : Prop :=
  ∀ d : Draft, d.tokens = f.lexemes ++ rest → Answers x d (f.Read d rest)

/-- A formula that is read, in front of another reader. -/
theorem ReadBy.bind {x : Parse Expr} {g : Expr → Parse β} {d : Draft} {Q : β → Draft → Prop}
    (h : f.ReadBy x rest) (hd : d.tokens = f.lexemes ++ rest)
    (hg : ∀ e d', f.Read d rest e d' → Answers (g e) d' Q) : Answers (x >>= g) d Q :=
  Comes.bind (h d hd) hg

/-- From the formula the reader of these layers gets to its tree.  With no layer left, it answers
the tree; else it goes on with looking for operators of the loosest layer, of which the tree is the
left operand. -/
def Leads (f : Formula) : List Layer → Prop
  | [] => ∀ (bound : Nat) (rest : List Lexeme), (f.lexemes ++ rest).length ≤ bound →
    f.Closed [] rest → f.ReadBy (operand bound) rest
  | layer :: tighter => ∀ (bound : Nat) (rest : List Lexeme), (f.lexemes ++ rest).length ≤ bound →
    f.Closed tighter rest → ∀ d : Draft, d.tokens = f.lexemes ++ rest →
    ∀ Q : Expr → Draft → Prop,
    (∀ e d' more, f.Read d rest e d' → rest.length ≤ more →
      Answers (operations (layered (operand bound) bound tighter) layer more e) d' Q) →
    Answers (layered (operand bound) bound (layer :: tighter)) d Q

namespace Leads

/-- If no operator of the layers comes, the reader answers the tree. -/
theorem readBy : ∀ {layers : List Layer}, f.Leads layers → ∀ {bound : Nat}
    {rest : List Lexeme}, (f.lexemes ++ rest).length ≤ bound → f.Closed layers rest →
    f.ReadBy (layered (operand bound) bound layers) rest
  | [], h, bound, rest, hlength, hclosed => h bound rest hlength hclosed
  | layer :: tighter, h, bound, rest, hlength, hclosed => by
    intro d hd
    refine h bound rest hlength (hclosed.mono (List.subset_cons_self _ _)) d hd _
      fun e d' more hread _ => operations_stop (fun t ht op hop hlayer => ?_) hread
    rw [Draft.words, hread.tokens] at ht
    exact (hclosed t ht).2 op hop (hlayer ▸ List.mem_cons_self)

/-- One layer more, of which there is no operator yet. -/
theorem looser {tighter : List Layer} (h : f.Leads tighter) (layer : Layer) :
    f.Leads (layer :: tighter) := by
  intro bound rest hlength hclosed d hd Q hQ
  rw [layered]
  refine (h.readBy hlength hclosed).bind hd fun e d' hread => ?_
  rw [List.length_append] at hlength
  exact hQ e d' bound hread (by omega)

/-- What stands on a level stands on every lower one. -/
theorem drop {layers : List Layer} : ∀ (k : Nat) {n : Nat}, f.Leads (layers.drop (n + k)) →
    f.Leads (layers.drop n)
  | 0, _, h => h
  | k + 1, n, h => by
    rw [← Nat.add_assoc, Nat.add_right_comm] at h
    have hnext := drop k h
    by_cases hn : n < layers.length
    · rw [List.drop_eq_getElem_cons hn]
      exact hnext.looser _
    · rw [List.drop_eq_nil_of_le (by omega)] at hnext ⊢
      exact hnext

/-- The left operand leads to the operator, and there the operator is found. -/
theorem operation {op : BinaryOp} {line : Nat} {tighter : List Layer} (hlayer : op.layer ∉ tighter)
    (hleft : left.Leads (op.layer :: tighter)) (hright : right.Leads tighter) :
    (Formula.operation line op left right).Leads (op.layer :: tighter) := by
  intro bound rest hlength hclosed d hd Q hQ
  rw [lexemes, List.append_assoc, List.cons_append] at hlength hd
  have hlength' : (right.lexemes ++ rest).length ≤ bound := by
    rw [List.length_append, List.length_cons] at hlength
    omega
  refine hleft bound _ hlength (closed_operator hlayer line) d hd Q fun l d₁ more hl hmore => ?_
  rw [List.length_cons, List.length_append] at hmore
  obtain ⟨more, rfl⟩ : ∃ less, more = less + 1 := ⟨more - 1, by omega⟩
  rw [operations]
  have hwords : d₁.words = op.token :: (right.lexemes ++ rest).map (·.token) := by
    rw [Draft.words, hl.tokens]
    rfl
  refine operator?_at hwords (binaryOp?_token op) rfl ?_
  refine advance_lexeme hl.tokens fun d₂ h₂ hs₂ => ?_
  refine (hright.readBy hlength' hclosed.of_operation).bind h₂ fun r d₃ hr => ?_
  have hs := hl.skips.trans hs₂
  refine hQ _ d₃ more ⟨hs.trans hr.skips, hr.tokens, ?_⟩ (by omega)
  have hexpr := hr.expr
  rw [hs.resolve?] at hexpr
  rw [expr?, hl.expr, Option.bind_some, hexpr]
  rfl

end Leads

/-! ## Operands -/

/-- What starts with no minus sign is read as a primary. -/
theorem readBy_operand {bound : Nat} {t : Token} {line : Nat} {more : List Lexeme}
    (hf : f.lexemes = ⟨t, line⟩ :: more) (hminus : t ≠ .mark .minus) (hnot : t ≠ .word .not)
    (hlength : (f.lexemes ++ rest).length ≤ bound)
    (h : ∀ less, (f.lexemes ++ rest).length ≤ less + 1 →
      f.ReadBy (primary (expression less) less) rest) : f.ReadBy (operand bound) rest := by
  intro d hd
  cases bound with
  | zero =>
    rw [hf] at hlength
    cases hlength
  | succ less =>
    have hprimary := h less hlength d hd
    rw [operand]
    refine peek_lexeme hd ?_
    rw [hf]
    split
    · rename_i heq
      exact absurd (Option.some.inj heq) hminus
    · rename_i heq
      exact absurd (Option.some.inj heq) hnot
    · exact hprimary

/-- A literal, if it is in range. -/
theorem answers_integerLiteral {n : Int} {line digitsLine : Nat} {d : Draft}
    {Q : Expr → Draft → Prop}
    (h : ∀ i, Integer.ofInt? n = some i → Q (.literal line (.integer i)) d) :
    Answers (integerLiteral n line digitsLine) d Q := by
  unfold integerLiteral
  cases hn : Integer.ofInt? n with
  | some i => exact Comes.pure (h i hn)
  | none => exact Comes.refuse trivial

theorem leads_numeral (line n : Nat) : (numeral line n).Leads [] := by
  intro bound rest hlength _
  refine readBy_operand rfl (by simp) (by simp) hlength fun less _ d hd => ?_
  refine advance_lexeme hd fun d₁ h₁ hs₁ => answers_integerLiteral fun i hi => ?_
  exact ⟨hs₁, h₁, by rw [expr?, hi]; rfl⟩

theorem leads_name (line : Nat) (x : String) : (name line x).Leads [] := by
  intro bound rest hlength hclosed
  have hends : ∀ m, m = .openParen ∨ m = .openBracket →
      (rest.map (·.token)).head? ≠ some (.mark m) := by
    intro m hm ht
    refine (hclosed _ ht).1 _ rfl ?_
    rcases hm with rfl | rfl
    · exact Or.inl rfl
    · exact Or.inr rfl
  refine readBy_operand rfl (by simp) (by simp) hlength fun less _ d hd => ?_
  refine advance_lexeme hd fun d₁ h₁ hs₁ => Comes.peek ?_
  have hwords : d₁.words = rest.map (·.token) := by
    rw [Draft.words, h₁]
    rfl
  rw [if_neg (by rw [hwords]; exact hends _ (Or.inl rfl))]
  refine Comes.bind (P := fun id d' => d₁ = d' ∧ d.resolve? x = some id) (Comes.get ?_) ?_
  · rw [hs₁.resolve?]
    cases d.resolve? x with
    | none => exact Comes.refuse trivial
    | some id => exact Comes.pure ⟨rfl, rfl⟩
  · rintro id d' ⟨rfl, hid⟩
    refine Comes.bind (P := fun path d' => path = [] ∧ d₁ = d')
      (indices_stop (by rw [hwords]; exact hends _ (Or.inr rfl)) ⟨rfl, rfl⟩) ?_
    rintro path d' ⟨rfl, rfl⟩
    exact Comes.pure ⟨hs₁, h₁, by rw [expr?, hid]; rfl⟩

/-- A minus sign in front of a numeral is read with it. -/
theorem leads_negative (line digitsLine n : Nat) :
    (negation line (numeral digitsLine n)).Leads [] := by
  intro bound rest hlength _ d hd
  cases bound with
  | zero => cases hlength
  | succ bound =>
    rw [operand]
    refine peek_lexeme hd (advance_lexeme hd fun d₁ h₁ hs₁ => peek_lexeme h₁ ?_)
    refine advance_lexeme h₁ fun d₂ h₂ hs₂ => answers_integerLiteral fun i hi => ?_
    exact ⟨hs₁.trans hs₂, h₂, by rw [expr?, hi]; rfl⟩

/-- Where a numeral is no operand of its own, the formula does not start with it. -/
theorem head_ne_integer (hf : UnaryOp.level ≤ f.level) (hnumeral : ∀ l n, f ≠ numeral l n)
    (n : Nat) : (f.lexemes ++ rest).head?.map (·.token) ≠ some (.integer n) := by
  cases f with
  | numeral l k => exact absurd rfl (hnumeral l k)
  | operation _ op => exact absurd hf (Nat.not_le.2 op.level_lt)
  | _ => simp [lexemes]

/-- A negation is an operand, if what is negated is. -/
theorem leads_negation {line : Nat} (h : inner.Leads []) (hlevel : UnaryOp.level ≤ inner.level)
    (hnumeral : ∀ l n, inner ≠ numeral l n) : (negation line inner).Leads [] := by
  intro bound rest hlength hclosed d hd
  cases bound with
  | zero => cases hlength
  | succ bound =>
    have hinner : inner.Closed [] rest := Closes.of_cons hclosed
    have hread := h bound rest (Nat.le_of_succ_le_succ hlength) hinner
    rw [operand]
    refine peek_lexeme hd (advance_lexeme hd fun d₁ h₁ hs₁ => peek_lexeme h₁ ?_)
    split
    · rename_i heq
      exact absurd heq (head_ne_integer hlevel hnumeral _)
    · refine hread.bind h₁ fun e d₂ he => Comes.pure ⟨hs₁.trans he.skips, he.tokens, ?_⟩
      have hexpr := he.expr
      rw [hs₁.resolve?] at hexpr
      rw [expr?_negation hnumeral, hexpr]
      rfl

theorem leads_group {opening closing : Nat} (h : inner.Leads Layer.all) :
    (group opening closing inner).Leads [] := by
  intro bound rest hlength _
  refine readBy_operand rfl (by decide) (by decide) hlength fun less hless d hd => ?_
  rw [lexemes, List.cons_append, List.append_assoc] at hd hless
  have hclosed : inner.Closed Layer.all (⟨.mark .closeParen, closing⟩ :: rest) :=
    Closes.of_none rfl (by simp) (by simp)
  refine advance_lexeme hd fun d₁ h₁ hs₁ => ?_
  refine (h.readBy (Nat.le_of_succ_le_succ hless) hclosed).bind h₁ fun e d₂ he => ?_
  refine expect_lexeme (l := ⟨.mark .closeParen, closing⟩) he.tokens fun d₃ h₃ hs₃ => ?_
  have hexpr := he.expr
  rw [hs₁.resolve?] at hexpr
  exact Comes.pure ⟨(hs₁.trans he.skips).trans hs₃, h₃, hexpr⟩

/-- Operands stand on every level. -/
theorem Leads.of_operand (h : f.Leads []) (n : Nat) : f.Leads (Layer.all.drop n) := by
  refine Leads.drop UnaryOp.level ?_
  rwa [List.drop_eq_nil_of_le (by show 6 ≤ n + 6; omega)]

/-- What is written is read on its own level and on every lower one. -/
theorem leads : ∀ {f : Formula}, f.IsWritten → ∀ n ≤ f.level, f.Leads (Layer.all.drop n)
  | numeral line n, _, _, _ => (leads_numeral line n).of_operand _
  | name line x, _, _, _ => (leads_name line x).of_operand _
  | negation line (numeral l k), _, _, _ => (leads_negative line l k).of_operand _
  | negation line (name l x), hf, _, _
  | negation line (negation l g), hf, _, _
  | negation line (operation l op g h), hf, _, _
  | negation line (group l k g), hf, _, _ =>
    (leads_negation (leads hf.1 UnaryOp.level hf.2) hf.2 (by simp)).of_operand _
  | group _ _ inner, hf, _, _ =>
    (leads_group (leads (f := inner) hf 0 (Nat.zero_le _))).of_operand _
  | operation line op left right, hf, n, hn => by
    obtain ⟨-, hleft, hright, hlevel, hlevel'⟩ := hf
    have hl := leads hleft op.level hlevel
    rw [drop_level] at hl
    have hoperation : (operation line op left right).Leads
        (op.layer :: Layer.all.drop (op.level + 1)) :=
      .operation (layer_not_mem_drop op) hl (leads hright (op.level + 1) hlevel')
    rw [← drop_level, ← Nat.add_sub_of_le (show n ≤ op.level from hn)] at hoperation
    exact hoperation.drop _

end Formula

namespace Grammar

/-- In front of something that cannot go on with the formula, the reader of expressions answers its
tree or refuses. -/
theorem readBy_expression {f : Formula} (hf : f.IsWritten) {rest : List Lexeme} {bound : Nat}
    (hlength : (f.lexemes ++ rest).length ≤ bound)
    (hrest : ∀ last ∈ f.lexemes.getLast?, ∀ l ∈ rest.head?, ¬ GoesOn last.token l.token) :
    f.ReadBy (expression bound) rest := by
  refine (Formula.leads hf 0 (Nat.zero_le _)).readBy hlength fun t ht => ?_
  rw [List.head?_map, Option.mem_def, Option.map_eq_some_iff] at ht
  obtain ⟨l, hl, rfl⟩ := ht
  have hgoes : ∀ last ∈ f.words.getLast?, ¬ GoesOn last l.token := by
    intro last hlast
    rw [Formula.words, List.getLast?_map, Option.mem_def, Option.map_eq_some_iff] at hlast
    obtain ⟨l', hl', rfl⟩ := hlast
    exact hrest l' hl' l hl
  have hne : f.words ≠ [] := by
    cases f <;> simp [Formula.words, Formula.lexemes]
  have hlast := List.getLast?_eq_some_getLast hne
  refine ⟨fun other hother hjoins => hgoes other hother (Or.inr hjoins), fun op hop _ => ?_⟩
  exact hgoes _ hlast (Or.inl ⟨op, token_of_binaryOp? hop⟩)

/-- In every context, arithmetic on integers is exact or fails at the first part that cannot be
computed.  If the reader of expressions accepts the tokens of a formula that nothing goes on with,
it has taken just these and read the tree of the formula, and where the names hold integers, that
tree has the value of the formula and is computed in the same way. -/
theorem computesExactly_of_formula :
    (∀ (c : Context) (e : Expr), e.IsWhole c.memory →
      c.ComputesExactly e (e.whole? c.memory)) ∧
    ∀ (f : Formula) (rest : List Lexeme) (d d' : Draft) (bound : Nat) (e : Expr), f.IsWritten →
      d.tokens = f.lexemes ++ rest → d.tokens.length ≤ bound →
      (∀ last ∈ f.lexemes.getLast?, ∀ l ∈ rest.head?, ¬ GoesOn last.token l.token) →
      (expression bound).run d = .ok e d' →
      d'.tokens = rest ∧ f.expr? d.resolve? = some e ∧
        ∀ c : Context, (∀ x ∈ f.names, ∀ id, d.resolve? x = some id →
            ∃ i, c.memory.load id = .ok (.integer i)) →
          e.IsWhole c.memory ∧
            c.ComputesExactly e (f.value? fun x => (d.resolve? x).bind c.memory.whole?) := by
  refine ⟨fun c e h => c.computesExactly h, fun f rest d d' bound e hf hd hbound hrest hrun => ?_⟩
  rw [hd] at hbound
  have hread : f.Read d rest e d' := (readBy_expression hf hbound hrest d hd).run_ok hrun
  refine ⟨hread.tokens, hread.expr, fun c hnames => ?_⟩
  obtain ⟨hwhole, hvalue⟩ := Formula.whole?_of_expr? hf hread.expr hnames
  exact ⟨hwhole, hvalue ▸ c.computesExactly hwhole⟩

/-- The formula `-2147483648 / (x - 2)`, with the quotient on a line of its own. -/
def leastFormula : Formula :=
  .operation 2 .divide (.negation 1 (.numeral 1 2147483648))
    (.group 3 3 (.operation 3 .subtract (.name 3 "x") (.numeral 3 2)))

/-- A variable `x` that is one. -/
def oneVariable : Variables :=
  Variables.declare .empty ⟨.scalar .integer, "x", "m^x", .integer (.ofBool true)⟩

/-- In front of the formula, where the variable is declared. -/
def leastDraft : Draft :=
  { Draft.start (leastFormula.lexemes ++ [⟨.mark .semicolon, 3⟩]) with
    declared := oneVariable
    blocks := [⟨0, "m", []⟩] }

/-- A context in which nothing but the variable is there. -/
def oneContext : Context :=
  { Context.fresh (.ofTree .empty 0) (.ofInput [] none) with memory := ⟨oneVariable, #[]⟩ }

/-- The literal is in range only with its sign, and the quotient is not. -/
theorem computesExactly_leastFormula : ∃ e d', (expression 9).run leastDraft = .ok e d' ∧
    d'.tokens = [⟨.mark .semicolon, 3⟩] ∧ e.IsWhole oneContext.memory ∧
    oneContext.ComputesExactly e (some 2147483648) ∧
    oneContext.ComputesExactly e (e.whole? oneContext.memory) ∧
    ∃ steps, (oneContext.eval steps e).1 = .error (.error ⟨.overflow, 2⟩) := by
  have haccepts : (match (expression 9).run leastDraft with
      | .ok .. => true
      | .error .. => false) = true := by decide +kernel
  obtain ⟨e, d', hrun⟩ : ∃ e d', (expression 9).run leastDraft = .ok e d' := by
    cases hrun : (expression 9).run leastDraft with
    | ok e d' => exact ⟨e, d', rfl⟩
    | error error d' =>
      rw [hrun] at haccepts
      cases haccepts
  have hwritten : leastFormula.IsWritten :=
    ⟨trivial, ⟨trivial, by decide⟩, ⟨trivial, trivial, trivial, by decide, by decide⟩, by decide,
      by decide⟩
  have hloads : oneContext.memory.load "m^x" = .ok (.integer (.ofBool true)) := rfl
  have hresolve : leastDraft.resolve? "x" = some "m^x" := rfl
  -- What stands behind the formula is a semicolon, so no operator follows.
  obtain ⟨htokens, hexpr, hcontext⟩ := computesExactly_of_formula.2 leastFormula _ leastDraft d' 9 e
    hwritten rfl (by decide) (by
      rintro _ ⟨⟩ _ ⟨⟩ (⟨op, hop⟩ | h)
      · cases op <;> cases hop
      · exact h.elim) hrun
  obtain ⟨hwhole, hcomputes⟩ := hcontext oneContext (by
    rintro x hx id hid
    obtain rfl : x = "x" := List.mem_singleton.1 hx
    rw [hresolve] at hid
    cases hid
    exact ⟨_, hloads⟩)
  refine ⟨e, d', hrun, htokens, hwhole, hcomputes, computesExactly_of_formula.1 _ e hwhole, ?_⟩
  cases hexpr
  obtain ⟨answer, hsteps, -, hanswer⟩ := hcomputes
  rw [show answer = .error ⟨.overflow, 2⟩ from hanswer] at hsteps
  exact hsteps

end Grammar

end Primer
