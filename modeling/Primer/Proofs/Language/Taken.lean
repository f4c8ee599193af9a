import Primer.Proofs.Language.Outcome
import Primer.Proofs.Language.Phrases

/-!
# Primer.Proofs.Language.Taken — what the readers of expressions take.

A reader that answers has taken tokens that follow the rules of its phrase, wherever it was started;
and whatever it refuses, it is not for a node that could not be placed.

The rules do not tell a name that is passed by reference from one that is read, so an argument of
either mode follows the rule of an expression; and a name alone is a slot without indices.  The
lemmas for single tokens are those that every later proof about what is taken starts from.
-/

namespace Primer

/-- The fault is no misplaced node. -/
def ParseFault.IsTextual : ParseFault → Prop
  | tree _ => False
  | _ => True

namespace Grammar

variable {α β : Type}

/-- Tokens with this property are gone from the front. -/
def Draft.Took (d : Draft) (P : List Token → Prop) (d' : Draft) : Prop :=
  ∃ w, d.words = w ++ d'.words ∧ P w

/-- The reader only takes tokens, and those that it takes have this property. -/
def Takes (x : Parse α) (P : List Token → Prop) : Prop :=
  ∀ d, Comes x d (fun _ d' => d.Skips d' ∧ d.Took P d') ParseFault.IsTextual

/-! ## Single tokens -/

section

variable {d : Draft} {Q : β → Draft → Prop}

/-- Everything that is known of a token that was taken. -/
theorem comes_advance {f : Lexeme → Parse β}
    (h : ∀ l d', d.words = l.token :: d'.words → d.Skips d' →
      Comes (f l) d' Q ParseFault.IsTextual) :
    Comes (advance >>= f) d Q ParseFault.IsTextual :=
  Comes.advance (fun _ => trivial) fun l d' hdrops => h l d' hdrops.words hdrops.toSkips

/-- A token that is expected is taken, or refused with what was found. -/
theorem comes_expect {t : Token} {f : Nat → Parse β}
    (h : ∀ line d', d.words = t :: d'.words → d.Skips d' →
      Comes (f line) d' Q ParseFault.IsTextual) :
    Comes (expect t >>= f) d Q ParseFault.IsTextual := by
  refine Comes.bind (P := fun _ d' => d.words = t :: d'.words ∧ d.Skips d') ?_
    fun line d' hd => h line d' hd.1 hd.2
  refine comes_advance fun l d' hwords hskips => ?_
  split
  · rename_i hl
    exact Comes.pure ⟨hl ▸ hwords, hskips⟩
  · exact Comes.refuse trivial

/-- Whether a token is taken that may come. -/
theorem comes_eat {t : Token} {f : Bool → Parse β}
    (hyes : ∀ d', d.words = t :: d'.words → d.Skips d' → Comes (f true) d' Q ParseFault.IsTextual)
    (hno : d.words.head? ≠ some t → Comes (f false) d Q ParseFault.IsTextual) :
    Comes (eat t >>= f) d Q ParseFault.IsTextual := by
  refine Comes.bind (P := fun b d' => (b = true ∧ d.words = t :: d'.words ∧ d.Skips d') ∨
    (b = false ∧ d.words.head? ≠ some t ∧ d' = d)) ?_ ?_
  · refine Comes.peek ?_
    split
    · rename_i hnext
      refine comes_advance fun l d' hwords hskips => Comes.pure (Or.inl ⟨rfl, ?_, hskips⟩)
      rw [hwords] at hnext ⊢
      rw [Option.some.inj hnext]
    · rename_i hnext
      exact Comes.pure (Or.inr ⟨rfl, hnext, rfl⟩)
  · rintro b d' (⟨rfl, hwords, hskips⟩ | ⟨rfl, hnext, rfl⟩)
    · exact hyes d' hwords hskips
    · exact hno hnext

/-- An identifier is taken, or refused with what was found. -/
theorem comes_identifier {f : String → Parse β}
    (h : ∀ name d', d.words = .identifier name :: d'.words → d.Skips d' →
      Comes (f name) d' Q ParseFault.IsTextual) :
    Comes (identifier >>= f) d Q ParseFault.IsTextual := by
  refine Comes.bind (P := fun name d' => d.words = .identifier name :: d'.words ∧ d.Skips d') ?_
    fun name d' hd => h name d' hd.1 hd.2
  refine comes_advance fun l d' hwords hskips => ?_
  split
  · rename_i hl
    exact Comes.pure ⟨hl ▸ hwords, hskips⟩
  · exact Comes.refuse trivial

theorem comes_scalarType {f : Scalar → Parse β}
    (h : ∀ type d', d.words = .word (.scalar type) :: d'.words → d.Skips d' →
      Comes (f type) d' Q ParseFault.IsTextual) :
    Comes (scalarType >>= f) d Q ParseFault.IsTextual := by
  refine Comes.bind
    (P := fun type d' => d.words = .word (.scalar type) :: d'.words ∧ d.Skips d') ?_
    fun type d' hd => h type d' hd.1 hd.2
  refine comes_advance fun l d' hwords hskips => ?_
  split
  · rename_i hl
    exact Comes.pure ⟨hl ▸ hwords, hskips⟩
  · exact Comes.refuse trivial

/-- A phrase that is taken before whatever comes behind it. -/
theorem Takes.bind {x : Parse α} {f : α → Parse β} {P : List Token → Prop} (hx : Takes x P)
    (h : ∀ a d' w, d.words = w ++ d'.words → P w → d.Skips d' →
      Comes (f a) d' Q ParseFault.IsTextual) :
    Comes (x >>= f) d Q ParseFault.IsTextual :=
  Comes.bind (hx d) fun a d' ⟨hskips, w, hw, hp⟩ => h a d' w hw hp hskips

/-- What looks a name up refuses it or changes nothing. -/
theorem comes_resolve {name : String} {line : Nat} {f : String → Parse β}
    (h : ∀ id, Comes (f id) d Q ParseFault.IsTextual) :
    Comes (resolve name line >>= f) d Q ParseFault.IsTextual := by
  refine Comes.bind (P := fun _ d' => d' = d) ?_ fun id d' hd => hd ▸ h id
  refine Comes.get ?_
  split
  · exact Comes.pure rfl
  · exact Comes.refuse trivial

theorem comes_resolveWritable {name : String} {line : Nat} {f : String → Parse β}
    (h : ∀ id, Comes (f id) d Q ParseFault.IsTextual) :
    Comes (resolveWritable name line >>= f) d Q ParseFault.IsTextual := by
  refine Comes.bind (P := fun _ d' => d' = d) ?_ fun id d' hd => hd ▸ h id
  refine comes_resolve fun id => Comes.get ?_
  split
  · exact Comes.refuse trivial
  · exact Comes.pure rfl

theorem comes_callable {name : String} {line : Nat} {f : Heading → Parse β}
    (h : ∀ heading, Comes (f heading) d Q ParseFault.IsTextual) :
    Comes (callable name line >>= f) d Q ParseFault.IsTextual := by
  refine Comes.bind (P := fun _ d' => d' = d) ?_ fun heading d' hd => hd ▸ h heading
  refine Comes.get ?_
  split
  · exact Comes.pure rfl
  · exact Comes.refuse trivial

end

/-! ## Lists -/

/-- Pieces with commas between them; there is one at least. -/
inductive Separated (P : List Token → Prop) : List Token → Prop
  | last {w : List Token} (h : P w) : Separated P w
  | more {w v : List Token} (first : P w) (rest : Separated P v) :
      Separated P (w ++ .mark .comma :: v)

theorem items_takes {item : Nat → Parse α} {closing : Mark} {P : List Token → Prop}
    (hitem : ∀ i, Takes (item i) P) : ∀ bound position,
      Takes (items item closing bound position)
        (fun w => ∃ v, w = v ++ [.mark closing] ∧ Separated P v) := by
  intro bound
  induction bound with
  | zero => exact fun position d => Comes.endOfText trivial
  | succ bound ih =>
    intro position d
    rw [items]
    refine (hitem position).bind fun first d₁ w hw hp hskips => ?_
    refine comes_advance fun l d₂ hl hskips₂ => ?_
    split
    · rename_i hclosing
      refine Comes.pure ⟨hskips.trans hskips₂, w ++ [.mark closing], ?_, w, rfl, .last hp⟩
      rw [hw, hl, hclosing, List.append_assoc]
      rfl
    · split
      · rename_i hcomma
        refine (ih (position + 1)).bind fun rest d₃ v hv hrest hskips₃ => Comes.pure ?_
        obtain ⟨v, rfl, hv'⟩ := hrest
        refine ⟨(hskips.trans hskips₂).trans hskips₃, (w ++ .mark .comma :: v) ++ [.mark closing],
          ?_, _, rfl, .more hp hv'⟩
        rw [hw, hl, hcomma, hv]
        simp
      · exact Comes.refuse trivial

theorem commaSeparated_takes {item : Nat → Parse α} {closing : Mark} {P : List Token → Prop}
    (hitem : ∀ i, Takes (item i) P) (bound : Nat) :
    Takes (commaSeparated item closing bound)
      (fun w => w = [.mark closing] ∨ ∃ v, w = v ++ [.mark closing] ∧ Separated P v) := by
  intro d
  refine comes_eat (fun d' hd hskips => ?_) fun _ => ?_
  · exact Comes.pure ⟨hskips, [.mark closing], hd, Or.inl rfl⟩
  · refine (items_takes hitem bound 0 d).imp (fun as d' h => ?_) fun _ h => h
    obtain ⟨hskips, w, hw, hp⟩ := h
    exact ⟨hskips, w, hw, Or.inr hp⟩

/-! ## Operands -/

/-- An operand is an expression of all layers. -/
theorem derives_of_operand {w : List Token} (h : Phrase.operand.Derives w) (layers : List Layer) :
    (Phrase.layered layers).Derives w := by
  induction layers with
  | nil => exact .tightest h
  | cons layer tighter ih =>
    have hchain : (Phrase.layered (layer :: tighter)).Derives (w ++ []) := .layer ih .noOperation
    rwa [List.append_nil] at hchain

theorem derives_values {w : List Token} (h : Separated Phrase.expression.Derives w) :
    Phrase.values.Derives w := by
  induction h with
  | last h => exact .lastValue h
  | more first _ ih => exact .moreValues first ih

theorem comes_integerLiteral {n : Int} {line digitsLine : Nat} {d : Draft}
    {Q : Expr → Draft → Prop} (h : ∀ e, Q e d) :
    Comes (integerLiteral n line digitsLine) d Q ParseFault.IsTextual := by
  unfold integerLiteral
  split
  · exact Comes.pure (h _)
  · exact Comes.refuse trivial

section

variable {expression : Parse Expr} (he : Takes expression Phrase.expression.Derives)
include he

theorem indices_takes : ∀ bound, Takes (indices expression bound) Phrase.indices.Derives := by
  intro bound
  induction bound with
  | zero => exact fun d => Comes.pure ⟨.refl d, [], rfl, .noIndex⟩
  | succ bound ih =>
    intro d
    rw [indices]
    refine comes_eat (fun d₁ h₁ hs₁ => ?_) fun _ => Comes.pure ⟨.refl d, [], rfl, .noIndex⟩
    refine he.bind fun e d₂ w hw hp hs₂ => ?_
    refine comes_expect fun _ d₃ h₃ hs₃ => ?_
    refine ih.bind fun more d₄ v hv hmore hs₄ => Comes.pure ?_
    refine ⟨((hs₁.trans hs₂).trans hs₃).trans hs₄, _, ?_, .index hp hmore⟩
    rw [h₁, hw, h₃, hv]
    simp

/-- An argument follows the rule of an expression. -/
theorem argument_takes (heading : Heading) (position : Nat) :
    Takes (argument expression heading position) Phrase.expression.Derives := by
  intro d
  unfold argument
  split
  · -- a variable that is passed by reference is an expression as well
    unfold referenceArgument
    refine Comes.peekLine fun line => Comes.get ?_
    split
    · rename_i name _ follow _ _ htokens
      split
      · refine comes_advance fun l d₁ h₁ hs₁ => ?_
        refine comes_resolve fun id => Comes.get ?_
        split
        · exact Comes.refuse trivial
        · refine Comes.pure ⟨hs₁, [.identifier name], ?_, ?_⟩
          · rw [Draft.words, htokens] at h₁ ⊢
            rw [List.singleton_append, ← (List.cons.inj h₁).2]
            rfl
          · exact derives_of_operand (.primary (.slot .noIndex)) Layer.all
      · exact Comes.refuse trivial
    · exact Comes.refuse trivial
  · exact he.bind fun e d' w hw hp hs => Comes.pure ⟨hs, w, hw, hp⟩

theorem arguments_takes (bound : Nat) (name : String) (line : Nat) :
    Takes (arguments expression bound name line) Phrase.arguments.Derives := by
  intro d
  refine comes_callable fun heading => comes_expect fun _ d₁ h₁ hs₁ => ?_
  refine (commaSeparated_takes (argument_takes he heading) bound).bind
    fun found d₂ w hw hp hs₂ => ?_
  dsimp only
  split
  · refine Comes.pure ⟨hs₁.trans hs₂, .mark .openParen :: w, by rw [h₁, hw]; rfl, ?_⟩
    rcases hp with rfl | ⟨v, rfl, hv⟩
    · exact .noArguments
    · exact .arguments (derives_values hv)
  · exact Comes.refuse trivial

/-- What stands behind a name, with the name in front. -/
theorem named_takes (bound : Nat) (name : String) (line : Nat) :
    Takes (named expression bound name line)
      (fun w => Phrase.primary.Derives (.identifier name :: w)) := by
  intro d
  refine Comes.peek ?_
  split
  · exact (arguments_takes he bound name line).bind fun found d₁ w hw hp hs₁ =>
      Comes.pure ⟨hs₁, w, hw, .call hp⟩
  · refine comes_resolve fun id => ?_
    refine (indices_takes he bound).bind fun path d₁ w hw hp hs₁ => ?_
    split
    · exact Comes.pure ⟨hs₁, w, hw, .slot hp⟩
    · exact Comes.pure ⟨hs₁, w, hw, .slot hp⟩

theorem primary_takes (bound : Nat) :
    Takes (primary expression bound) Phrase.primary.Derives := by
  intro d
  refine comes_advance fun l d₁ h₁ hs₁ => ?_
  have hvalue : IsValue l.token → d.Took Phrase.primary.Derives d₁ :=
    fun hl => ⟨[l.token], h₁, .value hl⟩
  obtain ⟨token, line⟩ := l
  rcases token with x | n | b | c | s | name | k | m
  case integer => exact comes_integerLiteral fun _ => ⟨hs₁, hvalue trivial⟩
  case real =>
    dsimp only
    split
    · exact Comes.pure ⟨hs₁, hvalue trivial⟩
    · exact Comes.refuse trivial
  case identifier =>
    refine (named_takes he bound name line d₁).imp ?_ fun _ h => h
    rintro e d₂ ⟨hs₂, w, hw, hp⟩
    exact ⟨hs₁.trans hs₂, .identifier name :: w, by rw [h₁, hw]; rfl, hp⟩
  case mark =>
    cases m with
    | openParen =>
      refine he.bind fun e d₂ w hw hp hs₂ => comes_expect fun _ d₃ h₃ hs₃ => Comes.pure ?_
      refine ⟨(hs₁.trans hs₂).trans hs₃, _, ?_, .parenthesized hp⟩
      rw [h₁, hw, h₃]
      simp
    | _ => exact Comes.refuse trivial
  case word => exact Comes.refuse trivial
  all_goals exact Comes.pure ⟨hs₁, hvalue trivial⟩

end

/-! ## Operators -/

theorem operations_takes {operand : Parse Expr} {layer : Layer} {tighter : List Layer}
    (ho : Takes operand (Phrase.layered tighter).Derives) : ∀ (bound : Nat) (left : Expr),
      Takes (operations operand layer bound left) (Phrase.operations layer tighter).Derives := by
  intro bound
  induction bound with
  | zero => exact fun left d => Comes.pure ⟨.refl d, [], rfl, .noOperation⟩
  | succ bound ih =>
    intro left d
    rw [operations]
    refine Comes.bind (P := fun op d' => d' = d ∧
      op = (d.words.head?.bind binaryOp?).filter (·.layer = layer)) ?_ ?_
    · exact Comes.peek (Comes.pure ⟨rfl, rfl⟩)
    · rintro op d' ⟨rfl, hop⟩
      cases op with
      | none => exact Comes.pure ⟨.refl d', [], rfl, .noOperation⟩
      | some op =>
        refine comes_advance fun l d₁ h₁ hs₁ => ?_
        obtain ⟨hspelled, hlayer⟩ := Option.filter_eq_some_iff.1 hop.symm
        rw [h₁] at hspelled
        refine ho.bind fun right d₂ w hw hp hs₂ => ?_
        refine (ih _ d₂).imp ?_ fun _ h => h
        rintro e d₃ ⟨hs₃, v, hv, hmore⟩
        refine ⟨(hs₁.trans hs₂).trans hs₃, l.token :: (w ++ v), ?_,
          .operation hspelled (of_decide_eq_true hlayer) hp hmore⟩
        rw [h₁, hw, hv, List.cons_append, List.append_assoc]

theorem layered_takes {operand : Parse Expr} (ho : Takes operand Phrase.operand.Derives)
    (bound : Nat) : ∀ layers, Takes (layered operand bound layers)
      (Phrase.layered layers).Derives := by
  intro layers
  induction layers with
  | nil =>
    intro d
    refine (ho d).imp ?_ fun _ h => h
    rintro e d' ⟨hs, w, hw, hp⟩
    exact ⟨hs, w, hw, .tightest hp⟩
  | cons layer tighter ih =>
    intro d
    rw [layered]
    refine ih.bind fun left d₁ w hw hp hs₁ => ?_
    refine (operations_takes ih bound left d₁).imp ?_ fun _ h => h
    rintro e d₂ ⟨hs₂, v, hv, hmore⟩
    exact ⟨hs₁.trans hs₂, w ++ v, by rw [hw, hv, List.append_assoc], .layer hp hmore⟩

theorem operand_takes : ∀ bound, Takes (operand bound) Phrase.operand.Derives := by
  intro bound
  induction bound with
  | zero => exact fun d => Comes.endOfText trivial
  | succ bound ih =>
    intro d
    rw [operand]
    refine Comes.peek ?_
    split
    · rename_i hnext
      refine comes_advance fun sign d₁ h₁ hs₁ => ?_
      rw [h₁] at hnext
      have hsign : sign.token = .mark .minus := Option.some.inj hnext
      rw [hsign] at h₁
      refine Comes.peek ?_
      split
      · rename_i n hdigits
        refine comes_advance fun digits d₂ h₂ hs₂ => comes_integerLiteral fun e => ?_
        rw [h₂] at hdigits
        have hdigits : digits.token = .integer n := Option.some.inj hdigits
        -- A minus in front of digits is read together with them, but it derives as a negation.
        rw [hdigits] at h₂
        refine ⟨hs₁.trans hs₂, [.mark .minus, .integer n], by rw [h₁, h₂]; rfl, ?_⟩
        exact .negation (.primary (.value trivial))
      · refine ih.bind fun e d₂ w hw hp hs₂ => Comes.pure ⟨hs₁.trans hs₂, .mark .minus :: w, ?_, ?_⟩
        · rw [h₁, hw]
          rfl
        · exact .negation hp
    · rename_i hnext
      refine comes_advance fun sign d₁ h₁ hs₁ => ?_
      rw [h₁] at hnext
      have hsign : sign.token = .word .not := Option.some.inj hnext
      rw [hsign] at h₁
      refine ih.bind fun e d₂ w hw hp hs₂ => Comes.pure ⟨hs₁.trans hs₂, .word .not :: w, ?_, ?_⟩
      · rw [h₁, hw]
        rfl
      · exact .complement hp
    · have he := layered_takes ih bound Layer.all
      refine (primary_takes he bound d).imp ?_ fun _ h => h
      rintro e d' ⟨hs, w, hw, hp⟩
      exact ⟨hs, w, hw, .primary hp⟩

/-- The reader of expressions takes expressions. -/
theorem expression_takes (bound : Nat) : Takes (expression bound) Phrase.expression.Derives :=
  layered_takes (operand_takes bound) bound Layer.all

end Grammar

end Primer
