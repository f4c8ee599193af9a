import Primer.Name
import Primer.Operator
import Primer.Text.Quoted
import Primer.Value

/-!
# Primer.Expr — expressions.

Every node knows its line.  Variables are already resolved: they are stored under the id of the
declaration they mean.  The text of an expression uses bare names and puts every binary operation
in parentheses.
-/

namespace Primer

mutual

/-- An expression. -/
inductive Expr where
  | literal (line : Nat) (value : Value)
  | ident (line : Nat) (id : String)
  | element (line : Nat) (id : String) (indices : List Expr)
  | call (line : Nat) (name : String) (arguments : List Argument)
  | unary (line : Nat) (op : UnaryOp) (operand : Expr)
  | binary (line : Nat) (op : BinaryOp) (left right : Expr)

/-- What is passed to one parameter: a value, or a variable of the caller. -/
inductive Argument where
  | value (e : Expr)
  | reference (line : Nat) (id : String)

end

instance : Inhabited Expr := ⟨.literal 1 (.integer .zero)⟩

namespace Expr

/-- The line at which faults of this node are reported. -/
def line : Expr → Nat
  | literal line _ | ident line _ | element line .. | call line .. | unary line ..
  | binary line .. => line

/-- A literal as it is written in a program; the values that have no literals use their text. -/
def literalText : Value → String
  | .string s => String.ofList (Text.Quoted.literal '"' s.toList)
  | .char c => String.ofList (Text.Quoted.literal '\'' [c])
  | v => v.text

mutual

/-- The expression in source form. -/
def text : Expr → String
  | literal _ v => literalText v
  | ident _ id => Name.bare id
  | element _ id indices => Name.bare id ++ indexTexts indices
  | call _ name arguments => name ++ "(" ++ ", ".intercalate (argumentTexts arguments) ++ ")"
  | unary _ op operand => op.lead ++ text operand
  | binary _ op left right => "(" ++ text left ++ " " ++ op.symbol ++ " " ++ text right ++ ")"

/-- Indices one after another, each in brackets. -/
def indexTexts : List Expr → String
  | [] => ""
  | e :: rest => "[" ++ text e ++ "]" ++ indexTexts rest

/-- The texts of the arguments of a call. -/
def argumentTexts : List Argument → List String
  | [] => []
  | a :: rest => argumentText a :: argumentTexts rest

/-- An argument in source form. -/
def argumentText : Argument → String
  | .value e => text e
  | .reference _ id => Name.bare id

end

mutual

/-- Equality of expressions, lines and ids included; literals by the equality of values. -/
def equal : Expr → Expr → Bool
  | literal l v, literal m w => l == m && v.equal w
  | ident l i, ident m j => l == m && i == j
  | element l i xs, element m j ys => l == m && i == j && equalList xs ys
  | call l f xs, call m g ys => l == m && f == g && equalArguments xs ys
  | unary l o x, unary m p y => l == m && o == p && equal x y
  | binary l o x x', binary m p y y' => l == m && o == p && equal x y && equal x' y'
  | _, _ => false

/-- Equality of lists of expressions, position by position. -/
def equalList : List Expr → List Expr → Bool
  | [], [] => true
  | x :: xs, y :: ys => equal x y && equalList xs ys
  | _, _ => false

/-- Equality of lists of arguments, position by position. -/
def equalArguments : List Argument → List Argument → Bool
  | [], [] => true
  | x :: xs, y :: ys => equalArgument x y && equalArguments xs ys
  | _, _ => false

/-- Equality of arguments. -/
def equalArgument : Argument → Argument → Bool
  | .value x, .value y => equal x y
  | .reference l i, .reference m j => l == m && i == j
  | _, _ => false

end

end Expr

end Primer
