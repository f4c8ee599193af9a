import Primer.Value

/-!
# Primer.Token — the words and signs of a program text.

A token is a literal, an identifier, a keyword or a mark.  Keywords and marks have one spelling
each, given here by `Keyword.text` and `Mark.text`.
-/

namespace Primer

/-- The reserved words, the two truth values apart. -/
inductive Keyword where
  | module
  | beginning
  | «end»
  | «variable»
  | «let»
  | function
  | procedure
  | «public»
  | «private»
  | «in»
  | var
  | scalar (type : Scalar)
  | array
  | of
  | «if»
  | «then»
  | elseif
  | «else»
  | «while»
  | «repeat»
  | call
  | input
  | output
  | «return»
  | and
  | or
  | not
deriving DecidableEq, Repr

namespace Keyword

/-- The spelling of a keyword. -/
def text : Keyword → String
  | module => "module"
  | beginning => "beginning"
  | .end => "end"
  | .variable => "variable"
  | .let => "let"
  | function => "function"
  | procedure => "procedure"
  | .public => "public"
  | .private => "private"
  | .in => "in"
  | var => "var"
  | scalar type => type.text
  | array => "array"
  | of => "of"
  | .if => "if"
  | .then => "then"
  | elseif => "elseif"
  | .else => "else"
  | .while => "while"
  | .repeat => "repeat"
  | call => "call"
  | input => "input"
  | output => "output"
  | .return => "return"
  | and => "and"
  | or => "or"
  | not => "not"

/-- Every keyword once. -/
def all : List Keyword :=
  [module, beginning, .end, .variable, .let, function, procedure, .public, .private, .in, var,
    scalar .integer, scalar .real, scalar .boolean, scalar .char, scalar .string, array, of, .if,
    .then, elseif, .else, .while, .repeat, call, input, output, .return, and, or, not]

/-- The keyword with this spelling. -/
def ofText? (text : String) : Option Keyword :=
  all.find? (·.text == text)

theorem ofText?_text (k : Keyword) : ofText? k.text = some k := by
  rcases k with _ | _ | _ | _ | _ | _ | _ | _ | _ | _ | _ | (_ | _ | _ | _ | _) <;> rfl

end Keyword

/-- The signs. -/
inductive Mark where
  | assign
  | plus
  | minus
  | star
  | slash
  | openParen
  | closeParen
  | openBracket
  | closeBracket
  | comma
  | semicolon
  | colon
  | dot
  | equals
  | notEqual
  | lessEqual
  | greaterEqual
  | less
  | greater
deriving DecidableEq, Repr

/-- The spelling of a mark. -/
def Mark.text : Mark → String
  | assign => ":="
  | plus => "+"
  | minus => "-"
  | star => "*"
  | slash => "/"
  | openParen => "("
  | closeParen => ")"
  | openBracket => "["
  | closeBracket => "]"
  | comma => ","
  | semicolon => ";"
  | colon => ":"
  | dot => "."
  | equals => "="
  | notEqual => "<>"
  | lessEqual => "<="
  | greaterEqual => ">="
  | less => "<"
  | greater => ">"

/-- A token.  Integer literals are wider here than the integers of the language, so that one that
is too large can be told apart from one that is malformed. -/
inductive Token where
  | real (x : Float)
  | integer (n : Nat)
  | boolean (b : Bool)
  | char (c : Char)
  | string (s : String)
  | identifier (name : String)
  | word (k : Keyword)
  | mark (m : Mark)
deriving DecidableEq

/-- The text by which messages show a token. -/
def Token.text : Token → String
  | real x => Real.text x
  | integer n => toString n
  | boolean b => Value.booleanText b
  | char c => "'" ++ c.toString ++ "'"
  | string s => "\"" ++ s ++ "\""
  | identifier name => "'" ++ name ++ "'"
  | word k => "'" ++ k.text ++ "'"
  | mark m => "'" ++ m.text ++ "'"

/-- A token and the line it starts on. -/
structure Lexeme where
  token : Token
  line : Nat
deriving DecidableEq

end Primer
