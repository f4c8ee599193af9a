import Primer.Grammar.Unit

/-!
# Primer.Proofs.Language.Phrases — the language of programs, as a grammar.

The rules are those of the language description, one constructor for each alternative.  They are
about lists of tokens and know neither names nor types: a list of tokens that follows them may still
be refused because of what it says.

Expressions are written layer by layer, as `A := B (op B)*`: an expression of some layers is one of
the tighter layers, followed by operators of the loosest layer with their right operands.

Both judgements, `Phrase.Derives` for expressions and `Form.Derives` for the rest, are inductive
predicates on lists of tokens, so a derivation is a syntax tree without names.  Nothing in them
refers to the readers; that the two agree is the subject of `Language.Sentences`, where what was
read is derived, and of `Language.Completeness`, where what is derived is read.
-/

namespace Primer.Grammar

/-! ## Expressions -/

/-- The token spells a value. -/
def IsValue : Token → Prop
  | .real _ | .integer _ | .boolean _ | .char _ | .string _ => True
  | .identifier _ | .word _ | .mark _ => False

/-- The parts of an expression. -/
inductive Phrase where
  /-- An expression whose binary operators are of these layers. -/
  | layered (layers : List Layer)
  /-- Operators of a layer with their right operands, as many as there are. -/
  | operations (layer : Layer) (tighter : List Layer)
  | operand
  | primary
  /-- Indices in brackets, as many as there are. -/
  | indices
  /-- At least one argument. -/
  | values
  /-- Arguments in parentheses. -/
  | arguments

/-- A whole expression. -/
abbrev Phrase.expression : Phrase := .layered Layer.all

/-- The tokens follow the rules for a part of an expression. -/
inductive Phrase.Derives : Phrase → List Token → Prop
  | tightest {w : List Token} (h : Derives .operand w) : Derives (.layered []) w
  | layer {layer : Layer} {tighter : List Layer} {w v : List Token}
      (first : Derives (.layered tighter) w) (more : Derives (.operations layer tighter) v) :
      Derives (.layered (layer :: tighter)) (w ++ v)
  | noOperation {layer : Layer} {tighter : List Layer} : Derives (.operations layer tighter) []
  | operation {layer : Layer} {tighter : List Layer} {t : Token} {op : BinaryOp} {w v : List Token}
      (spelled : binaryOp? t = some op) (of_layer : op.layer = layer)
      (right : Derives (.layered tighter) w) (more : Derives (.operations layer tighter) v) :
      Derives (.operations layer tighter) (t :: (w ++ v))
  | negation {w : List Token} (h : Derives .operand w) : Derives .operand (.mark .minus :: w)
  | complement {w : List Token} (h : Derives .operand w) : Derives .operand (.word .not :: w)
  | primary {w : List Token} (h : Derives .primary w) : Derives .operand w
  | value {t : Token} (h : IsValue t) : Derives .primary [t]
  | slot {name : String} {w : List Token} (path : Derives .indices w) :
      Derives .primary (.identifier name :: w)
  | call {name : String} {w : List Token} (given : Derives .arguments w) :
      Derives .primary (.identifier name :: w)
  | parenthesized {w : List Token} (inner : Derives .expression w) :
      Derives .primary (.mark .openParen :: (w ++ [.mark .closeParen]))
  | noIndex : Derives .indices []
  | index {w v : List Token} (first : Derives .expression w) (more : Derives .indices v) :
      Derives .indices (.mark .openBracket :: (w ++ .mark .closeBracket :: v))
  | lastValue {w : List Token} (last : Derives .expression w) : Derives .values w
  | moreValues {w v : List Token} (first : Derives .expression w) (more : Derives .values v) :
      Derives .values (w ++ .mark .comma :: v)
  | noArguments : Derives .arguments [.mark .openParen, .mark .closeParen]
  | arguments {w : List Token} (given : Derives .values w) :
      Derives .arguments (.mark .openParen :: (w ++ [.mark .closeParen]))

/-! ## Programs -/

/-- The parts of a program. -/
inductive Form where
  | declaration
  | statement
  /-- Statements, as many as there are. -/
  | statements
  /-- Branches of a conditional that have conditions, as many as there are. -/
  | elseIfs
  /-- The last branch of a conditional, if there is one. -/
  | otherwise
  | parameter
  /-- At least one parameter. -/
  | parameters
  /-- Parameters in parentheses. -/
  | parameterList
  | routine
  /-- Declarations and routines, as many as there are. -/
  | items
  | program

/-- The tokens follow the rules for a part of a program. -/
inductive Form.Derives : Form → List Token → Prop
  | scalar {type : Scalar} {name : String} :
      Derives .declaration
        [.word .variable, .word (.scalar type), .identifier name, .mark .semicolon]
  | initialized {type : Scalar} {name : String} {w : List Token}
      (initial : Phrase.expression.Derives w) :
      Derives .declaration (.word .variable :: .word (.scalar type) :: .identifier name ::
        .mark .assign :: (w ++ [.mark .semicolon]))
  | array {type : Scalar} {name : String} {w v : List Token} (size : Phrase.expression.Derives w)
      (more : Phrase.indices.Derives v) :
      Derives .declaration (.word .variable :: .word .array :: .mark .openBracket ::
        (w ++ .mark .closeBracket :: (v ++ [.word .of, .word (.scalar type), .identifier name,
          .mark .semicolon])))
  | variable {w : List Token} (h : Derives .declaration w) : Derives .statement w
  | assignment {name : String} {path w : List Token} (indices : Phrase.indices.Derives path)
      (value : Phrase.expression.Derives w) :
      Derives .statement (.word .let :: .identifier name ::
        (path ++ .mark .assign :: (w ++ [.mark .semicolon])))
  | conditional {w body branches last : List Token} (condition : Phrase.expression.Derives w)
      (inside : Derives .statements body) (elseIfs : Derives .elseIfs branches)
      (otherwise : Derives .otherwise last) :
      Derives .statement (.word .if :: (w ++ .word .then :: (body ++ (branches ++ (last ++
        [.word .end, .word .if, .mark .semicolon])))))
  | loop {w body : List Token} (condition : Phrase.expression.Derives w)
      (inside : Derives .statements body) :
      Derives .statement (.word .while :: (w ++ .word .repeat :: (body ++
        [.word .end, .word .while, .mark .semicolon])))
  | call {name : String} {w : List Token} (given : Phrase.arguments.Derives w) :
      Derives .statement (.word .call :: .identifier name :: (w ++ [.mark .semicolon]))
  | input {name : String} {path : List Token} (indices : Phrase.indices.Derives path) :
      Derives .statement (.word .input :: .identifier name :: (path ++ [.mark .semicolon]))
  | output {w : List Token} (value : Phrase.expression.Derives w) :
      Derives .statement (.word .output :: (w ++ [.mark .semicolon]))
  | bareReturn : Derives .statement [.word .return, .mark .semicolon]
  | return {w : List Token} (value : Phrase.expression.Derives w) :
      Derives .statement (.word .return :: (w ++ [.mark .semicolon]))
  | noStatement : Derives .statements []
  | statements {w v : List Token} (first : Derives .statement w) (more : Derives .statements v) :
      Derives .statements (w ++ v)
  | noElseIf : Derives .elseIfs []
  | elseIf {w body v : List Token} (condition : Phrase.expression.Derives w)
      (inside : Derives .statements body) (more : Derives .elseIfs v) :
      Derives .elseIfs (.word .elseif :: (w ++ .word .then :: (body ++ v)))
  | noElse : Derives .otherwise []
  | else {body : List Token} (inside : Derives .statements body) :
      Derives .otherwise (.word .else :: body)
  | parameter {mode : Keyword} {type : Scalar} {name : String} (passed : mode = .in ∨ mode = .var) :
      Derives .parameter [.word mode, .word (.scalar type), .identifier name]
  | lastParameter {w : List Token} (last : Derives .parameter w) : Derives .parameters w
  | moreParameters {w v : List Token} (first : Derives .parameter w)
      (more : Derives .parameters v) : Derives .parameters (w ++ .mark .comma :: v)
  | noParameters : Derives .parameterList [.mark .openParen, .mark .closeParen]
  | parameterList {w : List Token} (given : Derives .parameters w) :
      Derives .parameterList (.mark .openParen :: (w ++ [.mark .closeParen]))
  | function {visibility : Keyword} {name closing : String} {type : Scalar}
      {w body : List Token} (visible : visibility = .public ∨ visibility = .private)
      (parameters : Derives .parameterList w) (inside : Derives .statements body) :
      Derives .routine (.word .function :: .word visibility :: .identifier name :: (w ++
        .mark .colon :: .word (.scalar type) :: (body ++
          [.word .end, .identifier closing, .mark .semicolon])))
  | procedure {visibility : Keyword} {name closing : String} {w body : List Token}
      (visible : visibility = .public ∨ visibility = .private)
      (parameters : Derives .parameterList w) (inside : Derives .statements body) :
      Derives .routine (.word .procedure :: .word visibility :: .identifier name :: (w ++
        (body ++ [.word .end, .identifier closing, .mark .semicolon])))
  | noItem : Derives .items []
  | declarationItem {w v : List Token} (first : Derives .declaration w)
      (more : Derives .items v) : Derives .items (w ++ v)
  | routineItem {w v : List Token} (first : Derives .routine w) (more : Derives .items v) :
      Derives .items (w ++ v)
  | program {name closing : String} {items body : List Token} (declared : Derives .items items)
      (entry : Derives .statements body) :
      Derives .program (.word .module :: .identifier name :: .mark .semicolon ::
        (items ++ .word .beginning :: (body ++
          [.word .end, .identifier closing, .mark .dot])))

end Primer.Grammar
