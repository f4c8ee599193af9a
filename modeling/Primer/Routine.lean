import Primer.Types

/-!
# Primer.Routine — the headings of functions and procedures.

A routine is a function or a procedure.  Its heading says how it is called; its body belongs to the
program tree.
-/

namespace Primer

/-- How an argument reaches its parameter: as a value that the body may read only, or as another
name for the caller's variable. -/
inductive PassMode where
  | byValue
  | byReference
deriving DecidableEq, Repr

def PassMode.text : PassMode → String
  | byValue => "in"
  | byReference => "var"

/-- Whether a routine is meant for use from outside its module. -/
inductive Visibility where
  | exported
  | hidden
deriving DecidableEq, Repr

def Visibility.text : Visibility → String
  | exported => "public"
  | hidden => "private"

/-- A parameter.  Inside the body its bare name is its id. -/
structure Parameter where
  mode : PassMode
  type : Scalar
  name : String
deriving DecidableEq, Repr

def Parameter.text (p : Parameter) : String :=
  p.mode.text ++ " " ++ p.type.text ++ " " ++ p.name

/-- The heading of a routine.  A function has a result type and a procedure has none; `scope` is
the scope that the body's declarations live in. -/
structure Heading where
  result : Option Scalar
  visibility : Visibility
  name : String
  parameters : List Parameter
  scope : String
deriving DecidableEq, Repr

namespace Heading

/-- The first parameter of this name. -/
def parameter? (h : Heading) (name : String) : Option Parameter :=
  h.parameters.find? (·.name == name)

/-- The heading as it is written. -/
def text (h : Heading) : String :=
  let keyword := if h.result.isSome then "function" else "procedure"
  let result := match h.result with
    | some type => " : " ++ type.text
    | none => ""
  keyword ++ " " ++ h.visibility.text ++ " " ++ h.name
    ++ "(" ++ ", ".intercalate (h.parameters.map Parameter.text) ++ ")" ++ result

end Heading

end Primer
