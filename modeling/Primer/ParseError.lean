import Primer.Expr
import Primer.Token
import Primer.Tree

/-!
# Primer.ParseError — why a text is no program.

A `ParseFault` is a cause and a `ParseError` a cause at a line.  The wording of every cause is here
and nowhere else.
-/

namespace Primer

/-- What the grammar needs where another token stands. -/
inductive Expectation where
  | token (t : Token)
  | identifier
  | type
  | visibility
  | passMode
  | separator (closing : Mark)
  | unitItem
deriving DecidableEq

def Expectation.text : Expectation → String
  | token t => t.text
  | identifier => "identifier"
  | type => "a type"
  | visibility => "'public' or 'private'"
  | passMode => "'in' or 'var'"
  | separator closing => "',' or '" ++ closing.text ++ "'"
  | unitItem => "'variable', 'function', 'procedure' or 'beginning'"

/-- Why an expression is no array size. -/
inductive SizeFault where
  | notPositive (size : Int)
  | notInteger (value : Value)
  | overflow
  | divisionByZero
  | operator (op : BinaryOp)
  | notConstant (e : Expr)

def SizeFault.details : SizeFault → String
  | notPositive size => toString size ++ " is not a positive size"
  | notInteger value => value.kind ++ " '" ++ value.text ++ "' is not an integer"
  | overflow => "overflow"
  | divisionByZero => "division by zero"
  | operator op => "operator '" ++ op.symbol ++ "' is not allowed"
  | notConstant e => "'" ++ e.text ++ "' is not a constant"

/-- The causes for which a text is refused. -/
inductive ParseFault where
  | unreadable (piece : String)
  | unexpectedToken (found : Token)
  | expectedToken (expected : Expectation) (found : Option Token)
  | unexpectedEnd
  | trailingTokens (found : Token)
  | unknownIdentifier (name : String)
  | unknownFunction (name : String)
  | functionAlreadyDefined (name : String)
  | duplicateParameter (name : String)
  | argumentCountMismatch (name : String) (expected found : Nat) (missing : List String)
  | expectedVariableArgument (name parameter : String)
  | readOnlyParameter (name : String)
  | mismatchedEnd (expected found : String)
  | invalidArraySize (cause : SizeFault)
  | returnOutsideRoutine
  | missingReturnValue (name : String)
  | unexpectedReturnValue (name : String)
  | nestedRoutine (name : String)
  | variableAlreadyDeclared (name : String)
  | literalTooLarge
  | tree (cause : TreeFault)

/-- The list of parameters that got no argument, after a sentence on the count. -/
def missingText : List String → String
  | [] => ""
  | missing => " Missing: " ++ ", ".intercalate (missing.map fun name => "'" ++ name ++ "'") ++ "."

/-- The cause in a full sentence. -/
def ParseFault.text : ParseFault → String
  | unreadable piece => "Unexpected token: " ++ piece ++ "."
  | unexpectedToken found => "Unexpected token: " ++ found.text ++ "."
  | expectedToken expected found =>
    "Expected " ++ expected.text ++ ", found " ++ (found.map Token.text).getD "" ++ "."
  | unexpectedEnd => "Unexpected end of input."
  | trailingTokens found => "Extra tokens after the end of the module: " ++ found.text ++ "."
  | unknownIdentifier name => "Identifier '" ++ name ++ "' is not declared."
  | unknownFunction name => "Function or procedure '" ++ name ++ "' is not declared."
  | functionAlreadyDefined name =>
    "Function or procedure '" ++ name ++ "' is already defined."
  | duplicateParameter name => "Parameter '" ++ name ++ "' is declared more than once."
  | argumentCountMismatch name expected found missing =>
    "'" ++ name ++ "' expects " ++ toString expected ++ " argument(s), but " ++ toString found
      ++ " were given." ++ missingText missing
  | expectedVariableArgument name parameter =>
    "Argument for var parameter '" ++ parameter ++ "' of '" ++ name ++ "' must be a variable."
  | readOnlyParameter name => "Parameter '" ++ name ++ "' is read-only."
  | mismatchedEnd expected found =>
    "Expected 'end " ++ expected ++ "', found 'end " ++ found ++ "'."
  | invalidArraySize cause => "Invalid array size: " ++ cause.details ++ "."
  | returnOutsideRoutine => "'return' is only allowed inside a function or procedure."
  | missingReturnValue name => "Function '" ++ name ++ "' must return a value."
  | unexpectedReturnValue name => "Procedure '" ++ name ++ "' cannot return a value."
  | nestedRoutine name => "'" ++ name ++ "' must be declared at module level."
  | variableAlreadyDeclared name => "Variable '" ++ name ++ "' is already declared in this block."
  | literalTooLarge => "Literal is too large."
  | tree cause => cause.message ++ "."

/-- A cause and the line it is reported at. -/
structure ParseError where
  fault : ParseFault
  line : Nat

/-- The whole message of a refused text. -/
def ParseError.message (e : ParseError) : String :=
  "Error on line " ++ toString e.line ++ ": " ++ e.fault.text

end Primer
