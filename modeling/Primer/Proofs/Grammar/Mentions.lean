import Primer.Construct
import Primer.Proofs.Token.Words

/-!
# Primer.Proofs.Grammar.Mentions — the names of a program, in the order of its text.

A tree keeps ids where the text has names.  `Construct.mentions` lists what a construct names, in
the order in which it is written, and a use of a variable counts with the bare name of its id.
`Token.names` lists the names of a text.  That both lists are the same is proved while the readers
are followed; `Token.Spells` is the part of it that one step of reading has to show.

Two tokens of a text are names without being mentioned in the tree: the name of a routine behind its
`end`, and that of the unit.  `Token.names` leaves out what stands behind `end`, so the reader of a
closing name has to show that it takes such a pair (`names_closing`).
-/

namespace Primer

/-- Something that a program names: a variable that is used, which is kept as its id, or what is
kept under the name itself. -/
inductive Mention where
  | use (id : String)
  | plain (name : String)
deriving DecidableEq

/-- The name as it is written. -/
def Mention.name : Mention → String
  | use id => Name.bare id
  | plain name => name

/-! ## Names in a tree -/

namespace Expr

mutual

/-- What an expression names. -/
def mentions : Expr → List Mention
  | literal .. => []
  | ident _ id => [.use id]
  | element _ id indices => .use id :: mentionsList indices
  | call _ name arguments => .plain name :: mentionsArguments arguments
  | unary _ _ operand => mentions operand
  | binary _ _ left right => mentions left ++ mentions right

/-- What a list of expressions names. -/
def mentionsList : List Expr → List Mention
  | [] => []
  | e :: rest => mentions e ++ mentionsList rest

/-- What a list of arguments names. -/
def mentionsArguments : List Argument → List Mention
  | [] => []
  | argument :: rest => mentionsArgument argument ++ mentionsArguments rest

/-- What an argument names: a variable that is passed by reference, or all that is in its value. -/
def mentionsArgument : Argument → List Mention
  | .value e => mentions e
  | .reference _ id => [.use id]

end

/-- The names in an expression, as they are written. -/
def spelling (e : Expr) : List String := e.mentions.map Mention.name

end Expr

/-- What is named in the initial value of a declaration. -/
def Initializer.mentions : Initializer → List Mention
  | computed e => e.mentions
  | fixed _ => []

namespace Construct

/-- What a construct names, apart from its body and its slots. -/
def mentions : Construct → List Mention
  | unit name _ _ => [.plain name]
  | routine heading => .plain heading.name :: heading.parameters.map (.plain ·.name)
  | declaration d => .plain d.name :: d.initializer.mentions
  | assignment target indices value =>
    .use target :: (Expr.mentionsList indices ++ value.mentions)
  | loop _ condition | conditional _ condition _ _ | elseIf _ condition => condition.mentions
  | call name arguments => .plain name :: Expr.mentionsArguments arguments
  | input target indices => .use target :: Expr.mentionsList indices
  | output value | result (some value) => value.mentions
  | entry _ | otherwise _ | result none => []

/-- The names in a construct, as they are written. -/
def spelling (c : Construct) : List String := c.mentions.map Mention.name

/-- A routine is spelled with its name and those of its parameters. -/
theorem spelling_routine (heading : Heading) :
    (routine heading).spelling = heading.name :: heading.parameters.flatMap fun p => [p.name] := by
  rw [spelling, mentions, List.map_cons, List.map_map, ← List.map_eq_flatMap]
  rfl

end Construct

/-! ## Names in a text -/

namespace Token

/-- The name that an identifier is. -/
def name? : Token → Option String
  | identifier name => some name
  | _ => none

/-- Names among tokens in front of which a closing keyword may stand. -/
def namesBehind (closing : Bool) : List Lexeme → List String
  | [] => []
  | l :: rest =>
    (if closing then [] else l.token.name?.toList)
      ++ namesBehind (decide (l.token = .word .end)) rest

/-- The names of a text, in their order.  A name right behind `end` only says what is closed, and
is left out. -/
def names (tokens : List Lexeme) : List String := namesBehind false tokens

/-- The token is no name and closes nothing. -/
def isSilent : Token → Bool
  | identifier _ | word .end => false
  | _ => true

variable {l l' : Lexeme} {tokens : List Lexeme} {name : String}

theorem names_silent (h : l.token.isSilent = true) : names (l :: tokens) = names tokens := by
  have hname : l.token.name? = none := by
    cases ht : l.token <;> first | rfl | (rw [ht] at h; cases h)
  have hopen : decide (l.token = .word .end) = false := by
    rw [decide_eq_false_iff_not]
    intro ht
    rw [ht] at h
    cases h
  rw [names, namesBehind, hname, hopen]
  rfl

theorem names_identifier (h : l.token = .identifier name) :
    names (l :: tokens) = name :: names tokens := by
  rw [names, namesBehind, h]
  rfl

/-- What closes a block is not among the names. -/
theorem names_closing (h : l.token = .word .end) (h' : l'.token ≠ .word .end) :
    names (l :: l' :: tokens) = names tokens := by
  rw [names, namesBehind, namesBehind, h, decide_eq_true rfl, decide_eq_false h']
  rfl

/-! ## Steps through a text -/

/-- Reading went from these tokens to those that are left, and named this.  An id tells its name
only if the name is plain, which all names of a text are. -/
structure Spells (tokens : List Lexeme) (spelling : List String) (left : List Lexeme) : Prop where
  suffix : left <:+ tokens
  names_eq : AllPlain tokens → names tokens = spelling ++ names left

namespace Spells

variable {ts us vs : List Lexeme} {ns ms : List String}

theorem refl (ts : List Lexeme) : Spells ts [] ts := ⟨List.suffix_rfl, fun _ => rfl⟩

/-- The names of two stretches of a text. -/
theorem trans (h : Spells ts ns us) (h' : Spells us ms vs) : Spells ts (ns ++ ms) vs := by
  refine ⟨h'.suffix.trans h.suffix, fun hplain => ?_⟩
  have hleft : AllPlain us := fun l hl => hplain l (h.suffix.mem hl)
  rw [h.names_eq hplain, h'.names_eq hleft, List.append_assoc]

/-- Nothing more was named. -/
theorem skips (h : Spells ts ns us) (h' : Spells us [] vs) : Spells ts ns vs := by
  have hall := h.trans h'
  rwa [List.append_nil] at hall

/-- A stretch of one token that names nothing. -/
theorem silent (h : l.token.isSilent = true) : Spells (l :: tokens) [] tokens :=
  ⟨List.suffix_cons _ _, fun _ => names_silent h⟩

theorem identifier (h : l.token = .identifier name) : Spells (l :: tokens) [name] tokens :=
  ⟨List.suffix_cons _ _, fun _ => names_identifier h⟩

theorem closing (h : l.token = .word .end) (h' : l'.token ≠ .word .end) :
    Spells (l :: l' :: tokens) [] tokens :=
  ⟨(List.suffix_cons _ _).trans (List.suffix_cons _ _), fun _ => names_closing h h'⟩

end Spells

end Token

end Primer
