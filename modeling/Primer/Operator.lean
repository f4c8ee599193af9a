/-!
# Primer.Operator — the operators of expressions.

Their spelling and how tightly the binary ones bind.
-/

namespace Primer

/-- The operators with one operand. -/
inductive UnaryOp where
  | negate
  | not
deriving DecidableEq, Repr

/-- The operators with two operands. -/
inductive BinaryOp where
  | add
  | subtract
  | multiply
  | divide
  | less
  | greater
  | lessEqual
  | greaterEqual
  | equal
  | notEqual
  | and
  | or
deriving DecidableEq, Repr

/-- How a unary operator is written before its operand. -/
def UnaryOp.lead : UnaryOp → String
  | .negate => "-"
  | .not => "not "

/-- How a binary operator is written between its operands. -/
def BinaryOp.symbol : BinaryOp → String
  | .add => "+"
  | .subtract => "-"
  | .multiply => "*"
  | .divide => "/"
  | .less => "<"
  | .greater => ">"
  | .lessEqual => "<="
  | .greaterEqual => ">="
  | .equal => "="
  | .notEqual => "<>"
  | .and => "and"
  | .or => "or"

/-- The layers of binary operators, loosest first. -/
inductive Layer where
  | disjunction
  | conjunction
  | equality
  | relation
  | sum
  | product
deriving DecidableEq, Repr

/-- Every layer, loosest first. -/
def Layer.all : List Layer :=
  [.disjunction, .conjunction, .equality, .relation, .sum, .product]

/-- The layer an operator belongs to. -/
def BinaryOp.layer : BinaryOp → Layer
  | .or => .disjunction
  | .and => .conjunction
  | .equal | .notEqual => .equality
  | .less | .greater | .lessEqual | .greaterEqual => .relation
  | .add | .subtract => .sum
  | .multiply | .divide => .product

end Primer
