import Primer.Grammar.Expression
import Primer.Grammar.Size

/-!
# Primer.Grammar.Statement — how statements and blocks are read.

A statement answers its node, and the block it stands in places that node behind its last statement.
The readers of nested blocks take the reader of a body as an argument: `block` closes the circle.
-/

namespace Primer.Grammar

/-- The text between quotes that a message shows of a token that closes the wrong thing. -/
def bareText (t : Token) : String :=
  match t with
  | .identifier name => name
  | other => String.ofList (Text.strip (· == '\'') other.text.toList)

/-- The end of a block that a keyword closes. -/
def blockEnd (k : Keyword) : Parse Unit := do
  let _ ← expect (.word .end)
  let l ← advance
  if l.token = .word k then
    let _ ← expect (.mark .semicolon)
  else refuse (.mismatchedEnd k.text (bareText l.token)) l.line

/-- The end of a block that the name of its routine or unit closes. -/
def namedEnd (name : String) : Parse Unit := do
  let line ← expect (.word .end)
  let found ← identifier
  if found = name then return ()
  else refuse (.mismatchedEnd name found) line

/-! ## Declarations -/

/-- The sizes of an array, as long as brackets come. -/
def dimensions (bound : Nat) : Nat → Parse (List Nat)
  | 0 => pure []
  | more + 1 => do
    if ← eat (.mark .openBracket) then
      let e ← expression bound
      match arraySize e with
      | .error fault => throw fault
      | .ok size =>
        let _ ← expect (.mark .closeBracket)
        return size :: (← dimensions bound more)
    else return []

/-- The type, the name and the initial value of a declaration. -/
def declarator (bound : Nat) (line : Nat) : Parse (SlotType × String × Initializer) := do
  if ← eat (.word .array) then
    let sizes ← dimensions bound bound
    if sizes.isEmpty then
      refuse (.expectedToken (.token (.mark .openBracket)) (← peek)) line
    let _ ← expect (.word .of)
    let element ← scalarType
    let name ← identifier
    let type := SlotType.array element sizes
    return (type, name, .fixed type.initial)
  else
    let type ← scalarType
    let name ← identifier
    if ← eat (.mark .assign) then
      return (.scalar type, name, .computed (← expression bound))
    else return (.scalar type, name, .fixed (.initial type))

/-- A variable declaration.  The variable is registered before its node is made, so that whatever
follows can see it. -/
def declaration (bound : Nat) : Parse NodeId := do
  let line ← expect (.word .variable)
  let (type, name, initializer) ← declarator bound line
  let _ ← expect (.mark .semicolon)
  let d ← get
  let id := Name.qualify d.scope name
  if d.declared.contains id then refuse (.variableAlreadyDeclared name) line
  set { d with declared := d.declared.declare { type, name, id, value := type.initial } }
  allocate (.declaration { type, name, id, initializer }) line

/-! ## Simple statements -/

/-- A variable or an element that is written. -/
def target (bound : Nat) (line : Nat) : Parse (String × List Expr) := do
  let name ← identifier
  let id ← resolveWritable name line
  return (id, ← indices (expression bound) bound)

def assignment (bound : Nat) : Parse NodeId := do
  let line ← expect (.word .let)
  let (id, path) ← target bound line
  let _ ← expect (.mark .assign)
  let value ← expression bound
  let _ ← expect (.mark .semicolon)
  allocate (.assignment id path value) line

def callStatement (bound : Nat) : Parse NodeId := do
  let line ← expect (.word .call)
  let name ← identifier
  let found ← arguments (expression bound) bound name line
  let _ ← expect (.mark .semicolon)
  allocate (.call name found) line

def inputStatement (bound : Nat) : Parse NodeId := do
  let line ← expect (.word .input)
  let (id, path) ← target bound line
  let _ ← expect (.mark .semicolon)
  allocate (.input id path) line

def outputStatement (bound : Nat) : Parse NodeId := do
  let line ← expect (.word .output)
  let value ← expression bound
  let _ ← expect (.mark .semicolon)
  allocate (.output value) line

/-- A return, which carries a value in functions and none in procedures. -/
def returnStatement (bound : Nat) : Parse NodeId := do
  let line ← expect (.word .return)
  match (← get).enclosing? with
  | none => refuse .returnOutsideRoutine line
  | some heading =>
    let bare := decide ((← peek) = some (.mark .semicolon))
    let value ← match heading.result, bare with
      | some _, false => some <$> expression bound
      | some _, true => refuse (.missingReturnValue heading.name) line
      | none, true => pure none
      | none, false => refuse (.unexpectedReturnValue heading.name) line
    let _ ← expect (.mark .semicolon)
    allocate (.result value) line

/-! ## Statements with bodies -/

/-- Reads the statements of a body up to one of these keywords, which it leaves. -/
abbrev Body := List Keyword → Parse Unit

def loop (body : Body) (bound : Nat) : Parse NodeId := do
  let line ← expect (.word .while)
  let condition ← expression bound
  let _ ← expect (.word .repeat)
  let scope ← blockScope "while"
  let node ← allocate (.loop scope condition) line
  inBlock node scope (body [.end])
  blockEnd .while
  return node

/-- The branches of a conditional that have conditions, as long as they come. -/
def elseIfs (body : Body) (bound : Nat) (conditional : NodeId) : Nat → Parse Unit
  | 0 => pure ()
  | more + 1 => do
    if (← peek) = some (.word .elseif) then
      let line ← expect (.word .elseif)
      let condition ← expression bound
      let _ ← expect (.word .then)
      let scope ← blockScope "elseif"
      let branch ← allocate (.elseIf scope condition) line
      place (·.attachBranch conditional branch) line
      inBlock branch scope (body [.elseif, .else, .end])
      elseIfs body bound conditional more

/-- The last branch of a conditional, if it comes. -/
def otherwise (body : Body) (conditional : NodeId) : Parse Unit := do
  if (← peek) = some (.word .else) then
    let line ← expect (.word .else)
    let scope ← blockScope "else"
    let branch ← allocate (.otherwise scope) line
    place (·.attachBranch conditional branch) line
    inBlock branch scope (body [.end])

def conditional (body : Body) (bound : Nat) : Parse NodeId := do
  let line ← expect (.word .if)
  let condition ← expression bound
  let _ ← expect (.word .then)
  let scope ← blockScope "if"
  let node ← allocate (.conditional scope condition [] none) line
  inBlock node scope (body [.elseif, .else, .end])
  elseIfs body bound node bound
  otherwise body node
  blockEnd .if
  return node

/-! ## Routines -/

/-- A parameter of a heading. -/
def parameter : Parse Parameter := do
  let l ← advance
  let mode ← match l.token with
    | .word .in => pure PassMode.byValue
    | .word .var => pure PassMode.byReference
    | other => refuse (.expectedToken .passMode (some other)) l.line
  let type ← scalarType
  let name ← identifier
  return { mode, type, name }

def visibility : Parse Visibility := do
  let l ← advance
  match l.token with
  | .word .public => return .exported
  | .word .private => return .hidden
  | other => refuse (.expectedToken .visibility (some other)) l.line

/-- The first name of a list that stands in it before. -/
def firstRepeated? : List String → List String → Option String
  | _, [] => none
  | seen, name :: rest => if name ∈ seen then some name else firstRepeated? (name :: seen) rest

/-- A function or a procedure.  Its own name can be called in its body; from its end on it can be
called everywhere. -/
def routine (body : Body) (bound : Nat) : Parse Unit := do
  let keyword ← advance
  let line := keyword.line
  let visibility ← visibility
  let name ← identifier
  if (← get).blocks.length ≠ 1 then refuse (.nestedRoutine name) line
  let _ ← expect (.mark .openParen)
  let parameters ← commaSeparated (fun _ => parameter) .closeParen bound
  if let some repeated := firstRepeated? [] (parameters.map (·.name)) then
    refuse (.duplicateParameter repeated) line
  let result ←
    if keyword.token = .word .function then do
      let _ ← expect (.mark .colon)
      some <$> scalarType
    else pure none
  let scope := Name.qualify (← get).scope name
  let heading : Heading := { result, visibility, name, parameters, scope }
  let node ← allocate (.routine heading) line
  inBlock node scope (body [.end])
  namedEnd name
  let _ ← expect (.mark .semicolon)
  let d ← get
  match d.routines.define ⟨node, heading⟩ with
  | .error fault => refuse fault line
  | .ok routines => set { d with routines }
  attach node

/-! ## Blocks -/

/-- The statement that starts with this keyword; none for the other keywords. -/
def statement? (body : Body) (bound : Nat) : Keyword → Option (Parse NodeId)
  | .variable => some (declaration bound)
  | .let => some (assignment bound)
  | .if => some (conditional body bound)
  | .while => some (loop body bound)
  | .call => some (callStatement bound)
  | .input => some (inputStatement bound)
  | .output => some (outputStatement bound)
  | .return => some (returnStatement bound)
  | _ => none

/-- A statement or a routine, placed in the innermost block. -/
def item (body : Body) (bound : Nat) (next : Token) : Parse Unit :=
  match next with
  | .word .function | .word .procedure => routine body bound
  | .word k =>
    match statement? body bound k with
    | some statement => do attach (← statement)
    | none => unexpected
  | _ => unexpected
where
  /-- Refuses the token to come. -/
  unexpected : Parse Unit := do refuse (.unexpectedToken next) (← peekLine)

/-- The token is one of these keywords. -/
def isOneOf (t : Token) (keywords : List Keyword) : Bool :=
  match t with
  | .word k => keywords.contains k
  | _ => false

/-- The statements of a block up to one of the keywords that may end it, which is left. -/
def block : Nat → Body
  | 0, _ => endOfText
  | bound + 1, terminators => do
    match ← peek with
    | none => endOfText
    | some next =>
      if isOneOf next terminators then return ()
      else
        item (block bound) bound next
        block bound terminators

end Primer.Grammar
