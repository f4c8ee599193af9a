import Primer.Program

/-!
# Primer.Grammar.Draft — a program while it is being read.

Reading goes through the tokens once and builds the program on the way, because what a name means
depends on what was declared before it.  A `Draft` is the tokens that are left and the program so
far; a `Parse` is a step that changes the draft and either answers or refuses.  A step that refuses
leaves the draft as it was when the fault was found.

The number that many steps take first bounds the tokens that are left.  It shrinks with every
recursive call, and a step that has used it up is at the end of the text.
-/

namespace Primer.Grammar

/-- A block that is being read: its node, its scope and its statements so far, latest first. -/
structure OpenBlock where
  node : NodeId
  scope : String
  statements : List NodeId

/-- The tokens that are left and the program so far.  `blocks` lists the innermost block first. -/
structure Draft where
  tokens : List Lexeme
  lastLine : Nat
  tree : Tree
  routines : Routines
  declared : Variables
  blocks : List OpenBlock
  blockCount : Nat

/-- The draft before the first token. -/
def Draft.start (tokens : List Lexeme) : Draft :=
  { tokens
    lastLine := 1
    tree := .empty
    routines := .empty
    declared := .empty
    blocks := []
    blockCount := 0 }

/-- A step of reading. -/
abbrev Parse := EStateM ParseError Draft

/-- Refuses the text. -/
def refuse {α : Type} (fault : ParseFault) (line : Nat) : Parse α :=
  throw ⟨fault, line⟩

/-- Refuses the text because it stops too early; the line is that of the last token read. -/
def endOfText {α : Type} : Parse α := do
  refuse .unexpectedEnd (← get).lastLine

/-! ## Tokens -/

/-- The token to come. -/
def peek : Parse (Option Token) := do
  return (← get).tokens.head?.map (·.token)

/-- The line of the token to come, or of the last one. -/
def peekLine : Parse Nat := do
  let d ← get
  return (d.tokens.head?.map (·.line)).getD d.lastLine

/-- Takes the token to come. -/
def advance : Parse Lexeme := do
  let d ← get
  match d.tokens with
  | [] => endOfText
  | l :: rest =>
    set { d with tokens := rest, lastLine := l.line }
    return l

/-- Takes the token to come, which has to be this one, and answers its line. -/
def expect (t : Token) : Parse Nat := do
  let l ← advance
  if l.token = t then return l.line
  else refuse (.expectedToken (.token t) (some l.token)) l.line

/-- Takes the token to come if it is this one. -/
def eat (t : Token) : Parse Bool := do
  if (← peek) = some t then
    let _ ← advance
    return true
  else return false

/-- Takes an identifier. -/
def identifier : Parse String := do
  let l ← advance
  match l.token with
  | .identifier name => return name
  | other => refuse (.expectedToken .identifier (some other)) l.line

/-- Takes the name of a scalar type. -/
def scalarType : Parse Scalar := do
  let l ← advance
  match l.token with
  | .word (.scalar type) => return type
  | other => refuse (.expectedToken .type (some other)) l.line

/-! ## Lists -/

/-- Items with commas between them, up to and with the closing mark; there is one at least.  An
item is told its position. -/
def items {α : Type} (item : Nat → Parse α) (closing : Mark) : Nat → Nat → Parse (List α)
  | 0, _ => endOfText
  | bound + 1, position => do
    let first ← item position
    let l ← advance
    if l.token = .mark closing then return [first]
    else if l.token = .mark .comma then
      return first :: (← items item closing bound (position + 1))
    else refuse (.expectedToken (.separator closing) (some l.token)) l.line

/-- Items with commas between them, up to and with the closing mark. -/
def commaSeparated {α : Type} (item : Nat → Parse α) (closing : Mark) (bound : Nat) :
    Parse (List α) := do
  if ← eat (.mark closing) then return []
  else items item closing bound 0

/-! ## The tree -/

/-- Makes a node that is placed later. -/
def allocate (c : Construct) (line : Nat) : Parse NodeId :=
  modifyGet fun d =>
    let (id, tree) := d.tree.allocate c line
    (id, { d with tree })

/-- Replaces the tree by one in which a node has been placed. -/
def place (f : Tree → Except TreeFault Tree) (line : Nat) : Parse Unit := do
  let d ← get
  match f d.tree with
  | .ok tree => set { d with tree }
  | .error cause => refuse (.tree cause) line

end Primer.Grammar
