import Primer.Proofs.Language.Unparse
import Primer.Proofs.Token.Lexing

/-!
# Primer.Proofs.Language.Printing — the tokens of the text of an expression.

The text of an expression is scanned as the tokens of its literals, names and operators, whatever
stands behind it, unless that continues its last word or number.  Two things are asked of the
expression.  Its names have to be words and its reals without a sign, which what is read from a text
is always (`Expr.Spelled`).  And no real in it may be whole (`Expr.hasFractions`), because the text
of a whole real is that of an integer.

Whatever stands behind an expression in a header does not continue a word or a number, and inside of
an expression what stands behind a part is a blank, a mark or the end (`Stops`).  The tokens of the
text are defined on the tree, beside the text (`Expr.textTokens`); both have parentheses around
binary operations and nowhere else.

Main statement: `Expr.lexes_text`.
-/

namespace Primer

open Token (Lexes Stops)

/-! ## What the text keeps -/

/-- The literal is one that a text can contain: no array, and no real with a sign. -/
def Value.Spelled : Value → Prop
  | .real x => Real.Unsigned x
  | .array .. => False
  | .integer _ | .boolean _ | .char _ | .string _ => True

/-- The literal is no whole real. -/
def Value.hasFraction : Value → Bool
  | .real x => Real.hasFraction x
  | .integer _ | .boolean _ | .char _ | .string _ | .array .. => true

namespace Expr

mutual

/-- The names and literals of the expression can be written. -/
def Spelled : Expr → Prop
  | literal _ value => value.Spelled
  | ident _ id => Token.IsWord (Name.bare id)
  | element _ id indices => Token.IsWord (Name.bare id) ∧ SpelledList indices
  | call _ name arguments => Token.IsWord name ∧ SpelledArguments arguments
  | unary _ _ operand => Spelled operand
  | binary _ _ left right => Spelled left ∧ Spelled right

/-- The same of indices. -/
def SpelledList : List Expr → Prop
  | [] => True
  | e :: rest => Spelled e ∧ SpelledList rest

/-- The same of arguments. -/
def SpelledArguments : List Argument → Prop
  | [] => True
  | a :: rest => SpelledArgument a ∧ SpelledArguments rest

/-- The same of an argument. -/
def SpelledArgument : Argument → Prop
  | .value e => Spelled e
  | .reference _ id => Token.IsWord (Name.bare id)

end

mutual

/-- No real in the expression is whole. -/
def hasFractions : Expr → Bool
  | literal _ value => value.hasFraction
  | ident .. => true
  | element _ _ indices => hasFractionsList indices
  | call _ _ arguments => hasFractionsArguments arguments
  | unary _ _ operand => hasFractions operand
  | binary _ _ left right => hasFractions left && hasFractions right

/-- The same of indices. -/
def hasFractionsList : List Expr → Bool
  | [] => true
  | e :: rest => hasFractions e && hasFractionsList rest

/-- The same of arguments. -/
def hasFractionsArguments : List Argument → Bool
  | [] => true
  | a :: rest => hasFractionsArgument a && hasFractionsArguments rest

/-- The same of an argument. -/
def hasFractionsArgument : Argument → Bool
  | .value e => hasFractions e
  | .reference .. => true

end

/-! ## The tokens of the text -/

mutual

/-- The tokens of the text of an expression.  Only binary operations have parentheses. -/
def textTokens : Expr → List Token
  | literal _ value => value.tokens
  | ident _ id => [.identifier (Name.bare id)]
  | element _ id indices => .identifier (Name.bare id) :: indexTextTokens indices
  | call _ name arguments =>
    .identifier name :: .mark .openParen :: Token.listed (argumentTextTokens arguments)
  | unary _ op operand => op.token :: textTokens operand
  | binary _ op left right =>
    Token.parenthesized (textTokens left ++ op.token :: textTokens right)

/-- Indices one after another, each in brackets. -/
def indexTextTokens : List Expr → List Token
  | [] => []
  | e :: rest =>
    .mark .openBracket :: (textTokens e ++ .mark .closeBracket :: indexTextTokens rest)

/-- The tokens of the texts of arguments. -/
def argumentTextTokens : List Argument → List (List Token)
  | [] => []
  | a :: rest => argumentTextToken a :: argumentTextTokens rest

/-- The tokens of the text of an argument. -/
def argumentTextToken : Argument → List Token
  | .value e => textTokens e
  | .reference _ id => [.identifier (Name.bare id)]

end

end Expr

/-! ## Literals and operators -/

section

variable {rest : List Char} {ts : List Token}

/-- The text of an integer is its digits, perhaps behind a minus sign. -/
theorem Integer.toList_text (n : Integer) :
    n.text.toList = if n.val < 0 then '-' :: Nat.toDigits 10 n.val.natAbs
      else Nat.toDigits 10 n.val.natAbs := by
  rw [Integer.text, Int.toString_eq_repr, Int.repr_eq_if]
  split
  · rw [if_neg (by omega), Nat.toList_repr, show n.val.toNat = n.val.natAbs by omega]
  · rw [if_pos (by omega), String.toList_append, Nat.toList_repr,
      show (-n.val).toNat = n.val.natAbs by omega]
    rfl

theorem lexes_integer (n : Integer) (hrest : Stops rest) (h : Lexes rest ts) :
    Lexes (n.text.toList ++ rest) ((Value.integer n).tokens ++ ts) := by
  have hlower := n.lower
  have hupper := n.upper
  have hdigits : Lexes (Nat.toDigits 10 n.val.natAbs ++ rest) (.integer n.val.natAbs :: ts) :=
    .front (Token.front_toDigits (by unfold Token.integerLimit; omega) hrest) h
  rw [n.toList_text, Value.tokens]
  split
  · exact .token rfl hdigits
  · exact hdigits

theorem lexes_literal {value : Value} (hspelled : value.Spelled)
    (hfraction : value.hasFraction = true) (hrest : Stops rest) (h : Lexes rest ts) :
    Lexes ((Expr.literalText value).toList ++ rest) (value.tokens ++ ts) := by
  cases value with
  | integer n => exact lexes_integer n hrest h
  | real x => exact .front (Token.front_real hfraction hspelled hrest) h
  | boolean b => exact .front (Token.front_boolean b hrest) h
  | char c =>
    rw [Expr.literalText, String.toList_ofList]
    exact .front (Token.front_char c rest) h
  | string s =>
    rw [Expr.literalText, String.toList_ofList]
    exact .front (Token.front_string s rest) h
  | array => exact hspelled.elim

/-- A binary operator stands between blanks. -/
theorem lexes_symbol (op : BinaryOp) (h : Lexes rest ts) :
    Lexes (op.symbol.toList ++ ' ' :: rest) (op.token :: ts) := by
  cases op <;> exact .token rfl h.blank

theorem lexes_lead (op : UnaryOp) (h : Lexes rest ts) :
    Lexes (op.lead.toList ++ rest) (op.token :: ts) := by
  cases op with
  | negate => exact .token rfl h
  | not => exact .token rfl h.blank

end

/-! ## Expressions -/

namespace Expr

theorem stops_indexTexts (indices : List Expr) {rest : List Char} (h : Stops rest) :
    Stops ((indexTexts indices).toList ++ rest) := by
  cases indices with
  | nil => exact h
  | cons e more =>
    rw [indexTexts, String.toList_append, String.toList_append, String.toList_append]
    exact .cons (by decide) _

mutual

/-- The text of an expression is scanned as its tokens, if nothing continues its end. -/
theorem lexes_text : ∀ (e : Expr) {rest : List Char} {ts : List Token}, e.Spelled →
    e.hasFractions = true → Stops rest → Lexes rest ts →
    Lexes (e.text.toList ++ rest) (e.textTokens ++ ts)
  | literal _ value, _, _, hspelled, hfractions, hrest, h =>
    lexes_literal hspelled hfractions hrest h
  | ident .., _, _, hspelled, _, hrest, h =>
    .front (Token.front_identifier hspelled hrest) h
  | element _ id indices, rest, ts, hspelled, hfractions, hrest, h => by
    rw [text, String.toList_append, List.append_assoc]
    exact .front (Token.front_identifier hspelled.1 (stops_indexTexts indices hrest))
      (lexes_indexTexts indices hspelled.2 hfractions hrest h)
  | call _ name arguments, rest, ts, hspelled, hfractions, hrest, h => by
    have harguments := lexes_argumentTexts arguments hspelled.2 hfractions h
    simp only [text, String.toList_append, List.append_assoc]
    exact .front (Token.front_identifier hspelled.1 (.cons (by decide) _)) (.token rfl harguments)
  | unary _ op operand, rest, ts, hspelled, hfractions, hrest, h => by
    have hoperand := lexes_text operand hspelled hfractions hrest h
    rw [text, String.toList_append, List.append_assoc]
    exact lexes_lead op hoperand
  | binary _ op left right, rest, ts, hspelled, hfractions, hrest, h => by
    rw [hasFractions, Bool.and_eq_true] at hfractions
    have hclosing : Lexes (')' :: rest) (.mark .closeParen :: ts) := .token rfl h
    have hright := lexes_text right hspelled.2 hfractions.2 (.cons (by decide) _) hclosing
    have hleft := lexes_text left hspelled.1 hfractions.1 (.cons (by decide) _)
      (lexes_symbol op hright).blank
    simp only [text, textTokens, Token.parenthesized, String.toList_append, List.append_assoc,
      List.cons_append]
    exact .token rfl hleft

theorem lexes_indexTexts : ∀ (indices : List Expr) {rest : List Char} {ts : List Token},
    SpelledList indices → hasFractionsList indices = true → Stops rest → Lexes rest ts →
    Lexes ((indexTexts indices).toList ++ rest) (indexTextTokens indices ++ ts)
  | [], _, _, _, _, _, h => h
  | e :: more, rest, ts, hspelled, hfractions, hrest, h => by
    rw [hasFractionsList, Bool.and_eq_true] at hfractions
    have hmore := lexes_indexTexts more hspelled.2 hfractions.2 hrest h
    have hclosing : Lexes (']' :: _) (.mark .closeBracket :: _) := .token rfl hmore
    have hfirst := lexes_text e hspelled.1 hfractions.1 (.cons (by decide) _) hclosing
    simp only [indexTexts, indexTextTokens, String.toList_append, List.append_assoc,
      List.cons_append]
    exact .token rfl hfirst

/-- Arguments with commas between them, up to and with the closing parenthesis. -/
theorem lexes_argumentTexts : ∀ (arguments : List Argument) {rest : List Char} {ts : List Token},
    SpelledArguments arguments → hasFractionsArguments arguments = true → Lexes rest ts →
    Lexes ((", ".intercalate (argumentTexts arguments)).toList ++ ')' :: rest)
      (Token.listed (argumentTextTokens arguments) ++ ts)
  | [], _, _, _, _, h => .token rfl h
  | [a], rest, ts, hspelled, hfractions, h => by
    rw [hasFractionsArguments, Bool.and_eq_true] at hfractions
    have hclosing : Lexes (')' :: rest) (.mark .closeParen :: ts) := .token rfl h
    have hlast := lexes_argumentText a hspelled.1 hfractions.1 (.cons (by decide) _) hclosing
    simp only [argumentTexts, argumentTextTokens, Token.listed, String.intercalate_singleton,
      List.append_assoc]
    exact hlast
  | a :: b :: more, rest, ts, hspelled, hfractions, h => by
    rw [hasFractionsArguments, Bool.and_eq_true] at hfractions
    have hmore := lexes_argumentTexts (b :: more) hspelled.2 hfractions.2 h
    have hcomma : Lexes (',' :: ' ' :: _) (.mark .comma :: _) := .token rfl hmore.blank
    have hfirst := lexes_argumentText a hspelled.1 hfractions.1 (.cons (by decide) _) hcomma
    simp only [argumentTexts, argumentTextTokens, Token.listed, String.intercalate_cons_cons,
      String.toList_append, List.append_assoc, List.cons_append]
    exact hfirst

theorem lexes_argumentText : ∀ (a : Argument) {rest : List Char} {ts : List Token},
    SpelledArgument a → hasFractionsArgument a = true → Stops rest → Lexes rest ts →
    Lexes ((argumentText a).toList ++ rest) (argumentTextToken a ++ ts)
  | .value e, _, _, hspelled, hfractions, hrest, h => lexes_text e hspelled hfractions hrest h
  | .reference .., _, _, hspelled, _, hrest, h =>
    .front (Token.front_identifier hspelled hrest) h

end

end Expr

end Primer
