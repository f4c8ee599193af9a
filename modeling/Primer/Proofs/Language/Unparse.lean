import Primer.Proofs.Tree.Order

/-!
# Primer.Proofs.Language.Unparse — a program written as tokens again.

Every construct is written by the rule of the grammar that it was read by, with the names of the
text instead of ids.  Operands of operators stand in parentheses, so that no rule about layers is
needed to read them, and the sizes of an array are written as literals.  The tokens of a program are
found by a walk through its tree (`Tree.write`); on a layout they are those of the forest.

Nothing is lost in writing but lines, comments and the parentheses that were there at first.  An
array size that was written as an expression is written as its value.  The tokens of a program are
used where it is read again, and as the text of which another text must be a spelling to mean the
same program.
-/

namespace Primer

/-! ## Expressions -/

/-- The literal of a value.  A negative integer has its sign in front, and arrays have no
literals. -/
def Value.tokens : Value → List Token
  | .integer n =>
    if n.val < 0 then [.mark .minus, .integer n.val.natAbs] else [.integer n.val.natAbs]
  | .real x => [.real x]
  | .boolean b => [.boolean b]
  | .char c => [.char c]
  | .string s => [.string s]
  | .array .. => []

/-- The token of the operator. -/
def UnaryOp.token : UnaryOp → Token
  | .negate => .mark .minus
  | .not => .word .not

/-- The token of the operator. -/
def BinaryOp.token : BinaryOp → Token
  | .add => .mark .plus
  | .subtract => .mark .minus
  | .multiply => .mark .star
  | .divide => .mark .slash
  | .less => .mark .less
  | .greater => .mark .greater
  | .lessEqual => .mark .lessEqual
  | .greaterEqual => .mark .greaterEqual
  | .equal => .mark .equals
  | .notEqual => .mark .notEqual
  | .and => .word .and
  | .or => .word .or

namespace Token

/-- Tokens in parentheses. -/
def parenthesized (w : List Token) : List Token :=
  .mark .openParen :: (w ++ [.mark .closeParen])

/-- Items with commas between them, up to and with a closing parenthesis. -/
def listed : List (List Token) → List Token
  | [] => [.mark .closeParen]
  | [w] => w ++ [.mark .closeParen]
  | w :: v :: more => w ++ .mark .comma :: listed (v :: more)

/-- Items one after another, each in brackets. -/
def bracketed : List (List Token) → List Token
  | [] => []
  | w :: more => .mark .openBracket :: (w ++ .mark .closeBracket :: bracketed more)

end Token

namespace Expr

mutual

/-- The tokens of an expression. -/
def tokens : Expr → List Token
  | literal _ value => value.tokens
  | ident _ id => [.identifier (Name.bare id)]
  | element _ id indices => .identifier (Name.bare id) :: indexTokens indices
  | call _ name arguments =>
    .identifier name :: .mark .openParen :: Token.listed (argumentTokens arguments)
  | unary _ op operand => op.token :: Token.parenthesized (tokens operand)
  | binary _ op left right =>
    Token.parenthesized (tokens left) ++ op.token :: Token.parenthesized (tokens right)

/-- Indices one after another, each in brackets. -/
def indexTokens : List Expr → List Token
  | [] => []
  | e :: rest => .mark .openBracket :: (tokens e ++ .mark .closeBracket :: indexTokens rest)

/-- The tokens of the arguments of a call. -/
def argumentTokens : List Argument → List (List Token)
  | [] => []
  | a :: rest => argumentToken a :: argumentTokens rest

/-- The tokens of an argument. -/
def argumentToken : Argument → List Token
  | .value e => tokens e
  | .reference _ id => [.identifier (Name.bare id)]

end

theorem indexTokens_eq_bracketed (es : List Expr) :
    indexTokens es = Token.bracketed (es.map tokens) := by
  induction es with
  | nil => rfl
  | cons e rest ih => rw [indexTokens, ih, List.map_cons, Token.bracketed]

theorem argumentTokens_eq_map (as : List Argument) : argumentTokens as = as.map argumentToken := by
  induction as with
  | nil => rfl
  | cons a rest ih => rw [argumentTokens, ih, List.map_cons]

end Expr

/-! ## Constructs -/

namespace SlotType

/-- The sizes of an array, each in brackets. -/
def sizeTokens : List Nat → List Token
  | [] => []
  | size :: more => .mark .openBracket :: .integer size :: .mark .closeBracket :: sizeTokens more

/-- The type of a declaration. -/
def tokens : SlotType → List Token
  | .scalar type => [.word (.scalar type)]
  | .array element sizes =>
    .word .array :: (sizeTokens sizes ++ [.word .of, .word (.scalar element)])

end SlotType

/-- What is written behind the name of a declaration. -/
def Initializer.tokens : Initializer → List Token
  | .computed e => .mark .assign :: e.tokens
  | .fixed _ => []

/-- The keyword of the mode. -/
def PassMode.token : PassMode → Token
  | .byValue => .word .in
  | .byReference => .word .var

/-- The keyword of the visibility. -/
def Visibility.token : Visibility → Token
  | .exported => .word .public
  | .hidden => .word .private

/-- A parameter, as it is written in a heading. -/
def Parameter.tokens (p : Parameter) : List Token :=
  [p.mode.token, .word (.scalar p.type), .identifier p.name]

namespace Heading

/-- The keyword that a routine starts with. -/
def keyword (h : Heading) : Keyword := if h.result.isSome then .function else .procedure

/-- The type of the result, if there is one. -/
def resultTokens (h : Heading) : List Token :=
  match h.result with
  | some type => [.mark .colon, .word (.scalar type)]
  | none => []

/-- A heading, from its visibility to its result. -/
def tokens (h : Heading) : List Token :=
  .word h.keyword :: h.visibility.token :: .identifier h.name :: .mark .openParen ::
    (Token.listed (h.parameters.map Parameter.tokens) ++ h.resultTokens)

end Heading

namespace Construct

/-- A variable, with the indices of an element. -/
def targetTokens (target : String) (indices : List Expr) : List Token :=
  .identifier (Name.bare target) :: Expr.indexTokens indices

/-- The tokens of a construct in front of its body. -/
def opening : Construct → List Token
  | unit name _ _ => [.word .module, .identifier name, .mark .semicolon]
  | entry _ => [.word .beginning]
  | routine heading => heading.tokens
  | declaration d => .word .variable ::
    (d.type.tokens ++ .identifier d.name :: (d.initializer.tokens ++ [.mark .semicolon]))
  | assignment target indices value => .word .let ::
    (targetTokens target indices ++ .mark .assign :: (value.tokens ++ [.mark .semicolon]))
  | loop _ condition => .word .while :: (condition.tokens ++ [.word .repeat])
  | conditional _ condition _ _ => .word .if :: (condition.tokens ++ [.word .then])
  | elseIf _ condition => .word .elseif :: (condition.tokens ++ [.word .then])
  | otherwise _ => [.word .else]
  | call name arguments => .word .call :: .identifier name :: .mark .openParen ::
    (Token.listed (Expr.argumentTokens arguments) ++ [.mark .semicolon])
  | input target indices => .word .input :: (targetTokens target indices ++ [.mark .semicolon])
  | output value => .word .output :: (value.tokens ++ [.mark .semicolon])
  | result (some value) => .word .return :: (value.tokens ++ [.mark .semicolon])
  | result none => [.word .return, .mark .semicolon]

/-- The tokens of a construct behind its body and what is in its slots. -/
def closing : Construct → List Token
  | unit name _ _ => [.word .end, .identifier name, .mark .dot]
  | routine heading => [.word .end, .identifier heading.name, .mark .semicolon]
  | loop .. => [.word .end, .word .while, .mark .semicolon]
  | conditional .. => [.word .end, .word .if, .mark .semicolon]
  | _ => []

/-- The sizes of the array that a construct declares. -/
def sizes : Construct → List Nat
  | declaration ⟨.array _ sizes, _, _, _⟩ => sizes
  | _ => []

end Construct

/-! ## Programs -/

/-- The tokens of a node and of all that is under it, at most `bound` levels deep: its children in
the order of their chain, and then what is in its slots. -/
def Tree.write (t : Tree) : Nat → NodeId → List Token
  | 0, _ => []
  | bound + 1, id =>
    match t.construct? id with
    | none => []
    | some c => c.opening ++ ((t.children id).flatMap (t.write bound) ++
      (c.slots.flatMap (t.write bound) ++ c.closing))

namespace Program

/-- The tokens that spell a program. -/
def tokens (p : Program) : List Token := p.tree.write p.tree.size p.root

/-- The sizes of all arrays that a program declares. -/
def arraySizes (p : Program) : List Nat := p.tree.nodes.toList.flatMap (·.construct.sizes)

end Program

/-! ## The walk through a layout -/

namespace Forest

/-- The tokens of constructs in order, each with its body and its slots. -/
def tokens : Forest → List Token
  | nil => []
  | cons c _ body slots rest =>
    c.opening ++ (body.tokens ++ (slots.tokens ++ (c.closing ++ rest.tokens)))

/-- The tokens of two forests in a row. -/
theorem tokens_append (f g : Forest) : (f.append g).tokens = f.tokens ++ g.tokens := by
  induction f with
  | nil => rfl
  | cons c line body slots rest _ _ ih => simp only [append, tokens, ih, List.append_assoc]

end Forest

/-- A walk that may go deep enough writes a forest that is laid out in the tree. -/
theorem Tree.Lays.write_eq {t : Tree} {owner : Option NodeId} {linkage : Forest.Linkage}
    {start : Nat} {f : Forest} (h : t.Lays owner linkage start f) {bound : Nat}
    (hbound : f.size ≤ bound) : (f.roots start).flatMap (t.write bound) = f.tokens := by
  induction f generalizing owner linkage start bound with
  | nil => rfl
  | cons c line body slots rest ihb ihs ihr =>
    obtain ⟨hstands, hrest⟩ := h.parts
    rw [Forest.size] at hbound
    obtain ⟨more, rfl⟩ : ∃ more, bound = more + 1 := ⟨bound - 1, by omega⟩
    have hfirst : t.write (more + 1) start
        = c.opening ++ (body.tokens ++ (slots.tokens ++ c.closing)) := by
      rw [write, hstands.construct?_eq]
      dsimp only
      rw [hstands.children_eq, hstands.slots_eq, ihb hstands.inBody (by omega),
        ihs hstands.inSlots (by omega)]
    rw [Forest.roots, List.flatMap_cons, hfirst, ihr hrest (by omega), Forest.tokens]
    simp only [List.append_assoc]

namespace Grammar

/-- The tokens of a program that was read are those of its forest. -/
theorem ReadsProgram.tokens_eq {tokens : List Lexeme} {f : Forest} {p : Program}
    (h : ReadsProgram tokens f p) : p.tokens = f.tokens := by
  obtain ⟨hnodes, hlinked, hroot, -⟩ := h.nodes_eq
  have hlays := Tree.lays_of_toList hnodes hlinked
  have hsize : f.size ≤ p.tree.size := hlays.size_le
  have hwritten := hlays.write_eq hsize
  cases h
  rw [Program.tokens, hroot, ← hwritten]
  exact (List.flatMap_singleton _ _).symm

/-- What holds of all sizes in a program holds of those of its constructs. -/
theorem ReadsProgram.all_sizes {tokens : List Lexeme} {f : Forest} {p : Program} {P : Nat → Prop}
    (h : ReadsProgram tokens f p) (hall : ∀ size ∈ p.arraySizes, P size) :
    f.All fun c => ∀ size ∈ c.sizes, P size := by
  obtain ⟨hnodes, -⟩ := h.nodes_eq
  refine (Forest.all_iff_nodes none (.chain none none) 0 f).2 fun n hn size hsize => ?_
  refine hall size (List.mem_flatMap.2 ⟨n, ?_, hsize⟩)
  rw [hnodes]
  exact hn

end Grammar

end Primer
