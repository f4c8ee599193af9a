import Primer.Grammar.Scope

/-!
# Primer.Grammar.Expression — how expressions are read.

Binary operators come in layers, from `or`, which binds loosest, to `*` and `/`.  In every layer the
operators group to the left.  Unary operators bind tighter than all of them, and a minus directly in
front of an integer literal belongs to the literal, so that the least integer can be written.
-/

namespace Primer.Grammar

/-- The binary operator that a token spells. -/
def binaryOp? : Token → Option BinaryOp
  | .mark .plus => some .add
  | .mark .minus => some .subtract
  | .mark .star => some .multiply
  | .mark .slash => some .divide
  | .mark .less => some .less
  | .mark .greater => some .greater
  | .mark .lessEqual => some .lessEqual
  | .mark .greaterEqual => some .greaterEqual
  | .mark .equals => some .equal
  | .mark .notEqual => some .notEqual
  | .word .and => some .and
  | .word .or => some .or
  | _ => none

/-- The operator of this layer that comes next, if one does. -/
def operator? (layer : Layer) : Parse (Option BinaryOp) := do
  return ((← peek).bind binaryOp?).filter (·.layer = layer)

/-- Operators of one layer and their right operands, as long as they come. -/
def operations (operand : Parse Expr) (layer : Layer) : Nat → Expr → Parse Expr
  | 0, left => pure left
  | bound + 1, left => do
    match ← operator? layer with
    | none => return left
    | some op =>
      let l ← advance
      let right ← operand
      operations operand layer bound (.binary l.line op left right)

/-- An expression of these layers, loosest first, over operands that bind tighter. -/
def layered (operand : Parse Expr) (bound : Nat) : List Layer → Parse Expr
  | [] => operand
  | layer :: tighter => do
    let left ← layered operand bound tighter
    operations (layered operand bound tighter) layer bound left

/-- Indices in brackets, as long as they come. -/
def indices (expression : Parse Expr) : Nat → Parse (List Expr)
  | 0 => pure []
  | bound + 1 => do
    if ← eat (.mark .openBracket) then
      let index ← expression
      let _ ← expect (.mark .closeBracket)
      return index :: (← indices expression bound)
    else return []

/-- An argument that names a variable: nothing but an identifier, and one that may be written. -/
def referenceArgument (routine parameter : String) : Parse Argument := do
  let line ← peekLine
  match (← get).tokens with
  | ⟨.identifier name, _⟩ :: ⟨.mark follow, _⟩ :: _ =>
    if follow = .comma ∨ follow = .closeParen then
      let _ ← advance
      let id ← resolve name line
      if (← get).isReadOnly id then refuse (.readOnlyParameter name) line
      else return .reference line id
    else refuse (.expectedVariableArgument routine parameter) line
  | _ => refuse (.expectedVariableArgument routine parameter) line

/-- The argument for the parameter at a position; beyond the last parameter it is a value. -/
def argument (expression : Parse Expr) (heading : Heading) (position : Nat) : Parse Argument := do
  match heading.parameters[position]? with
  | some ⟨.byReference, _, name⟩ => referenceArgument heading.name name
  | _ => return .value (← expression)

/-- The arguments of a call in parentheses, as many as the routine has parameters. -/
def arguments (expression : Parse Expr) (bound : Nat) (name : String) (line : Nat) :
    Parse (List Argument) := do
  let heading ← callable name line
  let _ ← expect (.mark .openParen)
  let found ← commaSeparated (argument expression heading) .closeParen bound
  let expected := heading.parameters.length
  if found.length = expected then return found
  else
    let missing := (heading.parameters.drop found.length).map (·.name)
    refuse (.argumentCountMismatch name expected found.length missing) line

/-- An integer literal with this value, whose digits stand at `digitsLine`. -/
def integerLiteral (n : Int) (line digitsLine : Nat) : Parse Expr :=
  match Integer.ofInt? n with
  | some value => pure (.literal line (.integer value))
  | none => refuse .literalTooLarge digitsLine

/-- A variable, an element or a call, from behind its name. -/
def named (expression : Parse Expr) (bound : Nat) (name : String) (line : Nat) : Parse Expr := do
  if (← peek) = some (.mark .openParen) then
    return .call line name (← arguments expression bound name line)
  else
    let id ← resolve name line
    match ← indices expression bound with
    | [] => return .ident line id
    | first :: more => return .element line id (first :: more)

/-- A literal, a name or an expression in parentheses. -/
def primary (expression : Parse Expr) (bound : Nat) : Parse Expr := do
  let l ← advance
  match l.token with
  | .integer n => integerLiteral n l.line l.line
  | .real x =>
    if Real.isFinite x then return .literal l.line (.real x)
    else refuse .literalTooLarge l.line
  | .boolean b => return .literal l.line (.boolean b)
  | .char c => return .literal l.line (.char c)
  | .string s => return .literal l.line (.string s)
  | .identifier name => named expression bound name l.line
  | .mark .openParen =>
    let e ← expression
    let _ ← expect (.mark .closeParen)
    return e
  | other => refuse (.unexpectedToken other) l.line

/-- An operand of the tightest layer: unary operators, then a primary. -/
def operand : Nat → Parse Expr
  | 0 => endOfText
  | bound + 1 => do
    match ← peek with
    | some (.mark .minus) =>
      let sign ← advance
      match ← peek with
      | some (.integer n) =>
        let digits ← advance
        integerLiteral (-n) sign.line digits.line
      | _ => return .unary sign.line .negate (← operand bound)
    | some (.word .not) =>
      let sign ← advance
      return .unary sign.line .not (← operand bound)
    | _ => primary (layered (operand bound) bound Layer.all) bound

/-- An expression. -/
def expression (bound : Nat) : Parse Expr :=
  layered (operand bound) bound Layer.all

end Primer.Grammar
