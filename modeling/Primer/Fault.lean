import Primer.Operator
import Primer.Value

/-!
# Primer.Fault — what can go wrong while a program runs.

A fault is a cause; a `RuntimeError` is a fault at a line.  The wording of every cause is here and
nowhere else.
-/

namespace Primer

/-- Why the console could not serve a request. -/
inductive ConsoleFault where
  | noMoreInput
  | closed
deriving DecidableEq, Repr

def ConsoleFault.message : ConsoleFault → String
  | noMoreInput => "no more input"
  | closed => "console closed"

/-- The ways in which values and types fail to fit each other. -/
inductive TypeFault where
  | notFinite (x : Float)
  | notInteger (text : String)
  | notNumber (text : String)
  | cannotStore (value : Value) (slot : SlotType)
  | cannotApply (op : BinaryOp) (left right : Value)
  | cannotCompare (op : BinaryOp) (left right : Value)
  | notLogical (op : BinaryOp)
  | notScalarTarget
  | wrongVariable (parameter routine : String) (needed : Scalar) (found : SlotType)

/-- The details that a type error reports. -/
def TypeFault.details : TypeFault → String
  | notFinite x => "Cannot convert non-finite value " ++ Real.text x ++ " to integer"
  | notInteger text => "'" ++ text ++ "' is not an integer"
  | notNumber text => "'" ++ text ++ "' is not a number"
  | cannotStore value slot =>
    let article := match slot with
      | .scalar _ => "a "
      | .array .. => "an "
    "cannot store " ++ value.kind ++ " value '" ++ value.text ++ "' in " ++ article ++ slot.text
      ++ " slot"
  | cannotApply op left right =>
    "cannot apply '" ++ op.symbol ++ "' to " ++ left.kind ++ " and " ++ right.kind
  | cannotCompare op left right =>
    "cannot compare " ++ left.kind ++ " and " ++ right.kind ++ " with '" ++ op.symbol ++ "'"
  | notLogical op => "'" ++ op.symbol ++ "' is not a logical operator"
  | notScalarTarget => "input needs a scalar target"
  | wrongVariable parameter routine needed found =>
    "var parameter '" ++ parameter ++ "' of '" ++ routine ++ "' needs a " ++ needed.text
      ++ " variable, found " ++ found.text

/-- The causes of a failing run. -/
inductive Fault where
  | unknownVariable (name : String)
  | unknownFunction (name : String)
  | typeError (cause : TypeFault)
  | expectedBoolean
  | expectedNumber
  | expectedArray
  | indexOutOfBounds (length : Nat) (found : Integer)
  | argumentCountMismatch (name : String) (expected found : Nat)
  | overflow
  | divisionByZero
  | invalidInput (text : String) (expected : Scalar)
  | io (cause : ConsoleFault)

/-- The cause in words. -/
def Fault.text : Fault → String
  | unknownVariable name => "Unknown variable '" ++ name ++ "'"
  | unknownFunction name => "Unknown function '" ++ name ++ "'"
  | typeError cause => "Type error: " ++ cause.details
  | expectedBoolean => "Expected boolean"
  | expectedNumber => "Expected number"
  | expectedArray => "Expected array"
  | indexOutOfBounds length found =>
    "Index out of bounds. Array length is " ++ toString length ++ ", but found index " ++ found.text
  | argumentCountMismatch name expected found =>
    "'" ++ name ++ "' expects " ++ toString expected ++ " argument(s), but " ++ toString found
      ++ " were given"
  | overflow => "Integer overflow while trying to compute result"
  | divisionByZero => "Division by zero"
  | invalidInput text expected => "Cannot read '" ++ text ++ "' as " ++ expected.text
  | io cause => "I/O failure: " ++ cause.message

/-- A fault and the line at which it arose. -/
structure RuntimeError where
  fault : Fault
  line : Nat

/-- The whole message of a failing run. -/
def RuntimeError.message (e : RuntimeError) : String :=
  "Error on line " ++ toString e.line ++ ": " ++ e.fault.text ++ "."

end Primer
