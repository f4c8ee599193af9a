import Primer.Expr
import Primer.Machine
import Primer.Operator.Meaning

/-!
# Primer.Evaluation — the value of an expression.

Operands are evaluated from left to right, all of them, before the operator is applied.  What a call
does is left open here: `evaluate` takes it as an argument, so that evaluation itself goes by the
structure of the expression.
-/

namespace Primer

/-- What a call with these arguments at this line does. -/
abbrev Calls := String → List Argument → Nat → Run Value

namespace Run

mutual

/-- The value of an expression. -/
def evaluate (calls : Calls) : Expr → Run Value
  | .literal _ v => do
    tick
    return v
  | .ident line id => do
    tick
    load id line
  | .element line id indices => do
    tick
    let path ← evaluateIndices calls indices
    let v ← load id line
    atLine line (do (← v.asGrid).elementAt path)
  | .call line name arguments => do
    tick
    calls name arguments line
  | .unary line op operand => do
    tick
    let v ← evaluate calls operand
    atLine line (op.apply v)
  | .binary line op left right => do
    tick
    let v ← evaluate calls left
    let w ← evaluate calls right
    atLine line (op.apply v w)

/-- The values of indices, each converted to an integer before the next is evaluated. -/
def evaluateIndices (calls : Calls) : List Expr → Run (List Integer)
  | [] => return []
  | e :: rest => do
    let v ← evaluate calls e
    let index ← atLine e.line v.asInteger
    return index :: (← evaluateIndices calls rest)

end

/-- The value of a condition, which has to be a boolean. -/
def truth (calls : Calls) (condition : Expr) (line : Nat) : Run Bool := do
  let v ← evaluate calls condition
  atLine line v.expectBoolean

end Run

end Primer
