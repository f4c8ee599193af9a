import Primer.Expr
import Primer.Routine

/-!
# Primer.Construct — the constructs a program is made of.

A construct is what one node of the program tree does.  The body of a block is not part of the
construct: it is the chain of the node's children.  A conditional keeps its further branches, and
the program unit its entry block, in slots of their own.
-/

namespace Primer

/-- Names a node of a tree by the order in which the nodes were made. -/
abbrev NodeId := Nat

/-- What a declaration stores when it runs: the value of an expression, or a value that is ready
made. -/
inductive Initializer where
  | computed (e : Expr)
  | fixed (v : Value)

/-- A variable declaration. -/
structure Declaration where
  type : SlotType
  name : String
  id : String
  initializer : Initializer

/-- One construct of a program.  `scope` is the scope of the declarations in the body. -/
inductive Construct where
  | unit (name scope : String) (entry : Option NodeId)
  | entry (scope : String)
  | routine (heading : Heading)
  | declaration (d : Declaration)
  | assignment (target : String) (indices : List Expr) (value : Expr)
  | loop (scope : String) (condition : Expr)
  | conditional (scope : String) (condition : Expr) (elseIfs : List NodeId)
      (otherwise : Option NodeId)
  | elseIf (scope : String) (condition : Expr)
  | otherwise (scope : String)
  | call (name : String) (arguments : List Argument)
  | input (target : String) (indices : List Expr)
  | output (value : Expr)
  | result (value : Option Expr)

instance : Inhabited Construct := ⟨.result none⟩

namespace Construct

/-- The scope that a block gives to the declarations in it; the other constructs have no body. -/
def scope? : Construct → Option String
  | unit _ scope _ | entry scope | loop scope _ | conditional scope .. | elseIf scope _
  | otherwise scope => some scope
  | routine heading => some heading.scope
  | declaration _ | assignment .. | call .. | input .. | output _ | result _ => none

/-- The id that a declaration declares. -/
def declared? : Construct → Option String
  | declaration d => some d.id
  | _ => none

/-- The program unit as a whole. -/
def isUnit : Construct → Bool
  | unit .. => true
  | _ => false

/-- The nodes that hang in the slots of a construct, in source order. -/
def slots : Construct → List NodeId
  | unit _ _ block => block.toList
  | conditional _ _ elseIfs last => elseIfs ++ last.toList
  | _ => []

/-! ## Text -/

/-- A variable, with the indices of an element, as it is written. -/
def targetText (target : String) (indices : List Expr) : String :=
  Name.bare target ++ Expr.indexTexts indices

/-- The line that opens a construct. -/
def header : Construct → String
  | unit name _ _ => "module " ++ name
  | entry _ => "beginning"
  | routine heading => heading.text
  | declaration d =>
    let start := "variable " ++ d.type.text ++ " " ++ d.name
    match d.initializer with
    | .computed e => start ++ " := " ++ e.text
    | .fixed _ => start
  | assignment target indices value =>
    "let " ++ targetText target indices ++ " := " ++ value.text
  | loop _ condition => "while " ++ condition.text ++ " repeat"
  | conditional _ condition _ _ => "if " ++ condition.text ++ " then"
  | elseIf _ condition => "elseif " ++ condition.text ++ " then"
  | otherwise _ => "else"
  | call name arguments =>
    "call " ++ name ++ "(" ++ ", ".intercalate (Expr.argumentTexts arguments) ++ ")"
  | input target indices => "input " ++ targetText target indices
  | output value => "output " ++ value.text
  | result (some value) => "return " ++ value.text
  | result none => "return"

/-- The line that closes a construct, for those that have one. -/
def closing? : Construct → Option String
  | unit name _ _ => some ("end " ++ name ++ ".")
  | routine heading => some ("end " ++ heading.name)
  | loop .. => some "end while"
  | conditional .. => some "end if"
  | _ => none

end Construct

end Primer
