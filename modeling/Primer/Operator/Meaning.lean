import Primer.Value.Convert

/-!
# Primer.Operator.Meaning — what the operators compute.

Integers are exact or fail; a real operand makes the operation one on reals, whose result must be
finite.  Both operands of a logical operator are looked at, whatever the first one is.
-/

namespace Primer

/-! ## Arithmetic -/

/-- An integer result, or the overflow that its absence means. -/
def Integer.orOverflow (result : Option Integer) : Except Fault Value :=
  match result with
  | some n => .ok (.integer n)
  | none => .error .overflow

/-- A real result, which has to be finite. -/
def Real.orOverflow (x : Float) : Except Fault Value :=
  if Real.isFinite x then .ok (.real x) else .error .overflow

namespace BinaryOp

/-- Arithmetic on two integers; `none` for the other operators. -/
def onIntegers? (op : BinaryOp) (a b : Integer) : Option (Except Fault Value) :=
  match op with
  | add => some (Integer.orOverflow (a.add? b))
  | subtract => some (Integer.orOverflow (a.sub? b))
  | multiply => some (Integer.orOverflow (a.mul? b))
  | divide =>
    some (if b.val = 0 then .error .divisionByZero else Integer.orOverflow (a.div? b))
  | _ => none

/-- Arithmetic on two reals; `none` for the other operators. -/
def onReals? (op : BinaryOp) (x y : Float) : Option (Except Fault Value) :=
  match op with
  | add => some (Real.orOverflow (x + y))
  | subtract => some (Real.orOverflow (x - y))
  | multiply => some (Real.orOverflow (x * y))
  | divide => some (if y == 0.0 then .error .divisionByZero else Real.orOverflow (x / y))
  | _ => none

/-- Joins two texts, which only addition does; `none` for the other operators. -/
def onTexts? (op : BinaryOp) (s t : String) : Option (Except Fault Value) :=
  match op with
  | add => some (.ok (.string (s ++ t)))
  | _ => none

/-- The operation on the first of the three kinds that both operands belong to. -/
def arithmetic? (op : BinaryOp) (left right : Value) : Option (Except Fault Value) :=
  match left, right with
  | .integer a, .integer b => op.onIntegers? a b
  | _, _ =>
    match left.number?, right.number? with
    | some x, some y => op.onReals? x y
    | _, _ =>
      match left.characters?, right.characters? with
      | some s, some t => op.onTexts? s t
      | _, _ => none

/-- Sum, difference, product and quotient; the sum of two texts joins them. -/
def arithmetic (op : BinaryOp) (left right : Value) : Except Fault Value :=
  (op.arithmetic? left right).getD (.error (.typeError (.cannotApply op left right)))

end BinaryOp

/-! ## Comparison -/

/-- The order of two values that have one: numbers among themselves and texts among themselves, by
code points; two characters need no text.  There is none between a number and the value that is no
number. -/
def Value.order? (left right : Value) : Option Ordering :=
  match left, right with
  | .integer a, .integer b => some (a.order b)
  | _, _ =>
    match left.number?, right.number? with
    | some x, some y => Real.order? x y
    | _, _ =>
      match left, right with
      | .char c, .char d => some (compare c d)
      | _, _ =>
        match left.characters?, right.characters? with
        | some s, some t => some (compare s t)
        | _, _ => none

namespace BinaryOp

/-- Whether the comparison holds of two values in this order; an operator that is no comparison
counts as equality. -/
def holds (op : BinaryOp) (o : Ordering) : Bool :=
  match op with
  | less => o.isLT
  | greater => o.isGT
  | lessEqual => o.isLE
  | greaterEqual => o.isGE
  | notEqual => o.isNe
  | _ => o.isEq

/-- The kinds of values that can be equal or not but have no order. -/
def equalityOnly : Value → Value → Bool
  | .boolean _, .boolean _ => true
  | .array .., .array .. => true
  | _, _ => false

/-- Comparison of two values. -/
def comparison (op : BinaryOp) (left right : Value) : Except Fault Value :=
  match left.order? right with
  | some o => .ok (.boolean (op.holds o))
  | none =>
    if equalityOnly left right && op == equal then .ok (.boolean (left.equal right))
    else if equalityOnly left right && op == notEqual then .ok (.boolean (!left.equal right))
    else .error (.typeError (.cannotCompare op left right))

/-! ## Logic -/

/-- Conjunction and disjunction of two booleans. -/
def logic (op : BinaryOp) (left right : Value) : Except Fault Value := do
  let a ← left.expectBoolean
  let b ← right.expectBoolean
  match op with
  | and => return .boolean (a && b)
  | or => return .boolean (a || b)
  | _ => throw (.typeError (.notLogical op))

/-- The meaning of a binary operator on two computed operands. -/
def apply (op : BinaryOp) (left right : Value) : Except Fault Value :=
  match op with
  | add | subtract | multiply | divide => op.arithmetic left right
  | less | greater | lessEqual | greaterEqual | equal | notEqual => op.comparison left right
  | and | or => op.logic left right

end BinaryOp

/-- The meaning of a unary operator on a computed operand. -/
def UnaryOp.apply (op : UnaryOp) (v : Value) : Except Fault Value :=
  match op with
  | negate =>
    match v with
    | .integer n => Integer.orOverflow n.neg?
    | .real x => .ok (.real (-x))
    | _ => .error .expectedNumber
  | not => v.expectBoolean.map fun b => .boolean (!b)

end Primer
