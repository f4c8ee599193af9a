import Primer.ParseError

/-!
# Primer.Grammar.Size — the sizes of array dimensions.

A size is known while the program is read, so it may be computed from integer literals by the four
arithmetic operations and by negation, but from nothing else.  Intermediate results may be wider
than the integers of the language: up to sixty-four bits.
-/

namespace Primer.Grammar

/-- A result that fits into sixty-four bits. -/
def wide (n : Int) (line : Nat) : Except ParseError Int :=
  if -9223372036854775808 ≤ n ∧ n ≤ 9223372036854775807 then .ok n
  else .error ⟨.invalidArraySize .overflow, line⟩

/-- The arithmetic of sizes. -/
def sizeOperation (op : BinaryOp) (a b : Int) (line : Nat) : Except ParseError Int :=
  match op with
  | .add => wide (a + b) line
  | .subtract => wide (a - b) line
  | .multiply => wide (a * b) line
  | .divide =>
    if b = 0 then .error ⟨.invalidArraySize .divisionByZero, line⟩ else wide (a.tdiv b) line
  | other => .error ⟨.invalidArraySize (.operator other), line⟩

/-- The value of a constant expression. -/
def constant : Expr → Except ParseError Int
  | .literal _ (.integer n) => .ok n.val
  | .literal line v => .error ⟨.invalidArraySize (.notInteger v), line⟩
  | .unary line .negate operand => do wide (-(← constant operand)) line
  | .binary line op left right => do
    let a ← constant left
    let b ← constant right
    sizeOperation op a b line
  | other => .error ⟨.invalidArraySize (.notConstant other), other.line⟩

/-- The size that an expression gives: at least one. -/
def arraySize (e : Expr) : Except ParseError Nat := do
  let size ← constant e
  if size < 1 then throw ⟨.invalidArraySize (.notPositive size), e.line⟩
  else return size.toNat

end Primer.Grammar
