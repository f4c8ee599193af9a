import Primer.Grammar.Size
import Primer.Operator.Meaning

/-!
# Primer.Proofs.Value.Exact — whole numbers with and without a range.

`Expr.Amounts bits e n` says what an expression of integers comes to in whole numbers, as long as no
part of it leaves the range of so many bits.  The integers of the language are those of 32 bits, so
an operator on them gives the exact result, or an overflow where that is out of range
(`BinaryOp.apply_integers`).  The sizes of arrays are computed in 64 bits; main statement:
`Grammar.constant_eq_ok_iff`.

What an operator computes in whole numbers is `BinaryOp.whole?`, without any range; division cuts
towards zero.  An operation with a range is this one, followed by a check of the result, and the two
uses differ in the number of bits only.  So `Amounts` has the number of bits as a parameter, and
whatever stays in 32 bits stays in 64 (`Amounts.widen`), but not the other way round.
-/

namespace Primer

/-! ## Ranges -/

/-- The number fits into so many bits with a sign. -/
def InBits (bits : Nat) (n : Int) : Prop :=
  -(Nat.pow 2 (bits - 1) : Int) ≤ n ∧ n < (Nat.pow 2 (bits - 1) : Int)

theorem inBits_32_iff {n : Int} : InBits 32 n ↔ -2147483648 ≤ n ∧ n ≤ 2147483647 := by
  show -2147483648 ≤ n ∧ n < 2147483648 ↔ _
  omega

theorem inBits_64_iff {n : Int} :
    InBits 64 n ↔ -9223372036854775808 ≤ n ∧ n ≤ 9223372036854775807 := by
  show -9223372036854775808 ≤ n ∧ n < 9223372036854775808 ↔ _
  omega

/-- A number of 32 bits is one of 64. -/
theorem InBits.widen {n : Int} (h : InBits 32 n) : InBits 64 n := by
  rw [inBits_32_iff] at h
  rw [inBits_64_iff]
  omega

namespace Integer

theorem inBits (a : Integer) : InBits 32 a.val := inBits_32_iff.2 ⟨a.lower, a.upper⟩

/-- An integer is given exactly if the number is in range. -/
theorem orOverflow_eq_ok_iff {n : Int} {v : Value} :
    orOverflow (ofInt? n) = .ok v ↔ ∃ a : Integer, v = .integer a ∧ a.val = n := by
  constructor
  · intro h
    cases hn : ofInt? n with
    | none => simp [hn, orOverflow] at h
    | some a =>
      rw [hn] at h
      cases h
      exact ⟨a, rfl, ofInt?_eq_some_iff.1 hn⟩
  · rintro ⟨a, rfl, rfl⟩
    rw [ofInt?_val, orOverflow]

end Integer

/-! ## Operators -/

namespace BinaryOp

/-- Arithmetic in whole numbers, quotients going toward zero.  There is no quotient by zero, and
none of the other operators computes a number. -/
def whole? (op : BinaryOp) (a b : Int) : Option Int :=
  match op with
  | add => some (a + b)
  | subtract => some (a - b)
  | multiply => some (a * b)
  | divide => if b = 0 then none else some (a.tdiv b)
  | _ => none

variable {op : BinaryOp}

/-- On two integers an operator gives the exact result, if it is an integer. -/
theorem apply_integers {a b : Integer} {n : Int} (h : op.whole? a.val b.val = some n) :
    op.apply (.integer a) (.integer b) = Integer.orOverflow (Integer.ofInt? n) := by
  cases op with
  | add | subtract | multiply =>
    cases h
    rfl
  | divide =>
    rw [whole?] at h
    split at h
    · cases h
    · rename_i hb
      cases h
      simp [apply, arithmetic, arithmetic?, onIntegers?, hb, Integer.div?]
  | _ => cases h

/-- An operation on integers that gives an integer gives the exact one. -/
theorem whole?_of_onIntegers {a b c : Integer}
    (h : op.onIntegers? a b = some (.ok (.integer c))) : op.whole? a.val b.val = some c.val := by
  have hgate {n : Int} (h : Integer.orOverflow (Integer.ofInt? n) = .ok (.integer c)) :
      n = c.val := by
    obtain ⟨_, heq, rfl⟩ := Integer.orOverflow_eq_ok_iff.1 h
    cases heq
    rfl
  cases op with
  | add | subtract | multiply =>
    simp only [onIntegers?, Option.some.injEq] at h
    simp [whole?, hgate h]
  | divide =>
    simp only [onIntegers?, Option.some.injEq] at h
    split at h
    · cases h
    · rename_i hb
      simp [whole?, hb, hgate h]
  | _ => cases h

theorem onReals?_ne_integer (x y : Float) (c : Integer) :
    op.onReals? x y ≠ some (.ok (.integer c)) := by
  have hreal (z : Float) : Real.orOverflow z ≠ .ok (.integer c) := by
    unfold Real.orOverflow
    split <;> simp
  cases op with
  | divide =>
    simp only [onReals?, ne_eq, Option.some.injEq]
    split
    · simp
    · exact hreal _
  | _ => simp [onReals?, hreal]

theorem comparison_ne_integer (v w : Value) (c : Integer) :
    op.comparison v w ≠ .ok (.integer c) := by
  unfold comparison
  split
  · simp
  · split
    · simp
    · split <;> simp

theorem logic_ne_integer (v w : Value) (c : Integer) : op.logic v w ≠ .ok (.integer c) := by
  unfold logic
  cases v.expectBoolean with
  | error fault => simp [bind, Except.bind]
  | ok a =>
    cases w.expectBoolean with
    | error fault => simp [bind, Except.bind]
    | ok b =>
      cases op <;> simp [bind, Except.bind, pure, Except.pure, throw, throwThe, MonadExceptOf.throw]

/-- An integer is computed from two integers only, and exactly. -/
theorem exists_of_apply {v w : Value} {c : Integer} (h : op.apply v w = .ok (.integer c)) :
    ∃ a b : Integer, v = .integer a ∧ w = .integer b ∧ op.whole? a.val b.val = some c.val := by
  have harithmetic (h : op.arithmetic v w = .ok (.integer c)) :
      ∃ a b : Integer, v = .integer a ∧ w = .integer b ∧ op.whole? a.val b.val = some c.val := by
    unfold arithmetic at h
    cases hop : op.arithmetic? v w with
    | none => simp [hop] at h
    | some result =>
      rw [hop, Option.getD_some] at h
      subst h
      unfold arithmetic? at hop
      split at hop
      · exact ⟨_, _, rfl, rfl, whole?_of_onIntegers hop⟩
      · split at hop
        · exact absurd hop (onReals?_ne_integer _ _ c)
        · split at hop
          · cases op <;> simp [onTexts?] at hop
          · cases hop
  have hlogic : op.logic v w ≠ .ok (.integer c) := logic_ne_integer v w c
  cases op with
  | add | subtract | multiply | divide => exact harithmetic h
  | less | greater | lessEqual | greaterEqual | equal | notEqual =>
    exact absurd h (comparison_ne_integer v w c)
  | and | or => exact absurd h hlogic

end BinaryOp

/-! ## Expressions -/

/-- The expression is arithmetic on integers.  In whole numbers it comes to this one, and no part of
it to one that is out of range. -/
inductive Expr.Amounts (bits : Nat) : Expr → Int → Prop
  | literal {line : Nat} {n : Integer} (hn : InBits bits n.val) :
      Amounts bits (.literal line (.integer n)) n.val
  | negation {line : Nat} {operand : Expr} {n : Int} (h : Amounts bits operand n)
      (hn : InBits bits (-n)) : Amounts bits (.unary line .negate operand) (-n)
  | operation {line : Nat} {op : BinaryOp} {left right : Expr} {a b n : Int}
      (hleft : Amounts bits left a) (hright : Amounts bits right b) (hop : op.whole? a b = some n)
      (hn : InBits bits n) : Amounts bits (.binary line op left right) n

namespace Expr

variable {bits line : Nat} {n : Int}

theorem amounts_literal_iff {v : Value} :
    (literal line v).Amounts bits n ↔
      ∃ a : Integer, v = .integer a ∧ a.val = n ∧ InBits bits n := by
  constructor
  · rintro ⟨hn⟩
    exact ⟨_, rfl, rfl, hn⟩
  · rintro ⟨a, rfl, rfl, hn⟩
    exact .literal hn

/-- Only a minus sign in front of an expression comes to a number. -/
theorem amounts_unary_iff {op : UnaryOp} {operand : Expr} :
    (unary line op operand).Amounts bits n ↔
      op = .negate ∧ operand.Amounts bits (-n) ∧ InBits bits n := by
  constructor
  · rintro (_ | ⟨h, hn⟩)
    exact ⟨rfl, by rwa [Int.neg_neg], hn⟩
  · rintro ⟨rfl, h, hn⟩
    rw [← Int.neg_neg n] at hn ⊢
    exact .negation h hn

/-- An operation comes to a number if both operands do, and the exact result is in range. -/
theorem amounts_binary_iff {op : BinaryOp} {left right : Expr} :
    (binary line op left right).Amounts bits n ↔
      ∃ a b, left.Amounts bits a ∧ right.Amounts bits b ∧ op.whole? a b = some n ∧
        InBits bits n := by
  constructor
  · rintro (_ | _ | ⟨hleft, hright, hop, hn⟩)
    exact ⟨_, _, hleft, hright, hop, hn⟩
  · rintro ⟨a, b, hleft, hright, hop, hn⟩
    exact .operation hleft hright hop hn

/-- What stays in range of 32 bits stays in range of 64. -/
theorem Amounts.widen {e : Expr} (h : e.Amounts 32 n) : e.Amounts 64 n := by
  induction h with
  | literal hn => exact .literal hn.widen
  | negation _ hn ih => exact .negation ih hn.widen
  | operation _ _ hop hn ihleft ihright => exact .operation ihleft ihright hop hn.widen

end Expr

/-! ## Sizes -/

namespace Grammar

/-- The check of a size in the making. -/
theorem wide_eq_ok_iff {n m : Int} {line : Nat} : wide n line = .ok m ↔ n = m ∧ InBits 64 m := by
  unfold wide
  rw [inBits_64_iff]
  grind

/-- An operation on sizes gives the exact result, if it is in range. -/
theorem sizeOperation_eq_ok_iff {op : BinaryOp} {a b n : Int} {line : Nat} :
    sizeOperation op a b line = .ok n ↔ op.whole? a b = some n ∧ InBits 64 n := by
  cases op with
  | add | subtract | multiply => simp [sizeOperation, BinaryOp.whole?, wide_eq_ok_iff]
  | divide =>
    by_cases hb : b = 0 <;> simp [sizeOperation, BinaryOp.whole?, wide_eq_ok_iff, hb]
  | _ => simp [sizeOperation, BinaryOp.whole?]

/-- What is computed for a size is what the expression comes to. -/
theorem amounts_of_constant : ∀ {e : Expr} {n : Int}, constant e = .ok n → e.Amounts 64 n
  | .literal line v, n, h => by
    cases v with
    | integer a =>
      cases h
      exact .literal a.inBits.widen
    | _ => cases h
  | .unary line op operand, n, h => by
    cases op with
    | negate =>
      rw [constant] at h
      cases hoperand : constant operand with
      | error e =>
        rw [hoperand] at h
        cases h
      | ok m =>
        rw [hoperand] at h
        obtain ⟨rfl, hn⟩ := wide_eq_ok_iff.1 h
        exact .negation (amounts_of_constant hoperand) hn
    | not => cases h
  | .binary line op left right, n, h => by
    rw [constant] at h
    cases hleft : constant left with
    | error e =>
      rw [hleft] at h
      cases h
    | ok a =>
      cases hright : constant right with
      | error e =>
        rw [hleft, hright] at h
        cases h
      | ok b =>
        rw [hleft, hright] at h
        obtain ⟨hop, hn⟩ := sizeOperation_eq_ok_iff.1 h
        -- Neither side failed, so it is the operation itself that was checked.
        exact .operation (amounts_of_constant hleft) (amounts_of_constant hright) hop hn
  | .ident .., _, h | .element .., _, h | .call .., _, h => by cases h

/-- The value of a constant is the exact one, computed in 64 bits. -/
theorem constant_eq_ok_iff {e : Expr} {n : Int} : constant e = .ok n ↔ e.Amounts 64 n := by
  constructor
  · exact amounts_of_constant
  · intro h
    induction h with
    | literal hn => rfl
    | negation _ hn ih =>
      rw [constant, ih]
      exact wide_eq_ok_iff.2 ⟨rfl, hn⟩
    | operation _ _ hop hn ihleft ihright =>
      rw [constant, ihleft, ihright]
      exact sizeOperation_eq_ok_iff.2 ⟨hop, hn⟩

/-- The size of a dimension is the number that its expression comes to, and at least one. -/
theorem arraySize_eq_ok {e : Expr} {n : Nat} :
    arraySize e = .ok n ↔ 1 ≤ n ∧ e.Amounts 64 n := by
  unfold arraySize
  cases hsize : constant e with
  | error err =>
    have hnone : ¬ e.Amounts 64 n := fun h => by
      rw [constant_eq_ok_iff.2 h] at hsize
      cases hsize
    simp [bind, Except.bind, hnone]
  | ok m =>
    have hamount : e.Amounts 64 n ↔ m = n := by
      rw [← constant_eq_ok_iff, hsize, Except.ok.injEq]
    simp only [bind, Except.bind, hamount]
    split
    · simp [throw, throwThe, MonadExceptOf.throw]
      omega
    · simp only [pure, Except.pure, Except.ok.injEq]
      omega

end Grammar

end Primer
