import Primer.Proofs.History.Quiet
import Primer.Proofs.Language.Printing

/-!
# Primer.Proofs.Language.Spelled — what is read from a text can be written.

The names and literals of an expression that was read come from the tokens of a text.  So its names
are spelled as words, also where they became ids, and its reals have no sign: a minus in front of a
number is a token of its own.

`Finds x P` says of a reader that what it answers, from tokens of a text, has a property.  As most
readers only take tokens, a sequence of them is followed by the properties of its answers alone.

Main statement: `expression_finds`.
-/

namespace Primer

/-! ## The tokens of a text -/

/-- A name is a word, and a real has no sign. -/
def Token.Written : Token → Prop
  | identifier name => IsWord name
  | real x => Real.Unsigned x
  | integer _ | boolean _ | char _ | string _ | word _ | mark _ => True

/-- The tokens of a text are written so. -/
theorem Token.scan_written {source : String} {tokens : List Lexeme}
    (h : scan source = .ok tokens) : ∀ l ∈ tokens, l.token.Written := by
  refine scanFrom_forall (fun c cs t hnext => ?_) h
  cases t with
  | identifier name => exact next_isWord hnext
  | real x => exact next_unsigned hnext
  | integer | boolean | char | string | word | mark => trivial

theorem Token.IsWord.isSegment {name : String} (h : Token.IsWord name) : Name.IsSegment name := by
  obtain ⟨c, cs, hcons, hc, hcs⟩ := h.exists_cons
  intro hmem
  rw [hcons] at hmem
  have hpart : Token.isWordPart Name.separator = true := by
    rcases List.mem_cons.1 hmem with heq | hmem
    · exact Token.isWordPart_of_isWordStart (heq ▸ hc)
    · exact hcs _ hmem
  rw [Token.not_isWordPart_separator] at hpart
  cases hpart

/-- Arguments are spelled if each of them is. -/
theorem Expr.spelledArguments_iff (as : List Argument) :
    SpelledArguments as ↔ ∀ a ∈ as, SpelledArgument a := by
  induction as with
  | nil => simp [SpelledArguments]
  | cons a rest ih => rw [SpelledArguments, ih, List.forall_mem_cons]

namespace Grammar

variable {α β : Type}

/-- The tokens that are left are tokens of a text. -/
def Draft.Written (d : Draft) : Prop := ∀ l ∈ d.tokens, l.token.Written

theorem Draft.Skips.written {d d' : Draft} (h : d.Skips d') (hd : d.Written) : d'.Written :=
  fun l hl => hd l (h.suffix.mem hl)

/-- What the reader answers, where the tokens are those of a text, has the property. -/
def Finds (x : Parse α) (P : α → Prop) : Prop :=
  ∀ d, d.Written → Ends x d (fun a d' => d'.Written ∧ P a) fun _ _ => True

namespace Finds

variable {x : Parse α} {f : α → Parse β} {P : α → Prop} {Q : β → Prop}

theorem pure {a : α} (h : P a) : Finds (Pure.pure a) P := fun _ hd => ⟨hd, h⟩

theorem bind (hx : Finds x P) (hf : ∀ a, P a → Finds (f a) Q) : Finds (x >>= f) Q :=
  fun d hd => (hx d hd).bind fun a d' h => hf a h.2 d' h.1

theorem get {f : Draft → Parse β} (h : ∀ d, d.Written → Finds (f d) Q) :
    Finds (MonadState.get >>= f) Q :=
  fun d hd => h d hd d hd

theorem refuse (fault : ParseFault) (line : Nat) : Finds (Grammar.refuse fault line) P :=
  fun _ _ => trivial

theorem quiet (hx : Quiet x) : Finds x fun _ => True :=
  fun d hd => (hx d).imp (fun _ _ hs => ⟨hs.written hd, trivial⟩) fun _ _ _ => trivial

/-- A reader whose answers do not matter, in front of another one. -/
theorem after (hx : Quiet x) (hf : ∀ a, Finds (f a) Q) : Finds (x >>= f) Q :=
  (quiet hx).bind fun a _ => hf a

theorem endOfText : Finds (Grammar.endOfText : Parse α) P := get fun _ _ => refuse _ _

theorem advance : Finds advance fun l => l.token.Written := by
  intro d hd
  have hrun := advance_run d
  unfold Ends
  rw [hrun]
  cases htokens : d.tokens with
  | nil => trivial
  | cons l rest =>
    have hall : ∀ l' ∈ l :: rest, l'.token.Written := htokens ▸ hd
    exact ⟨fun l' hl' => hall l' (List.mem_cons_of_mem _ hl'), hall l List.mem_cons_self⟩

/-- A name keeps its spelling in the id that it is resolved to. -/
theorem resolve {name : String} (hname : Token.IsWord name) (line : Nat) :
    Finds (resolve name line) fun id => Token.IsWord (Name.bare id) := by
  refine get fun d _ => ?_
  split
  · rename_i id hid
    refine pure ?_
    rwa [Draft.bare_of_resolve? hname.isSegment hid]
  · exact refuse _ _

/-! ### Lists -/

theorem items {item : Nat → Parse α} (hitem : ∀ i, Finds (item i) P) (closing : Mark) :
    ∀ bound position, Finds (items item closing bound position) fun as => ∀ a ∈ as, P a := by
  intro bound
  induction bound with
  | zero => exact fun _ => endOfText
  | succ bound ih =>
    intro position
    refine (hitem position).bind fun first hfirst => after .advance fun l => ?_
    split
    · exact pure (List.forall_mem_singleton.2 hfirst)
    · split
      · exact (ih (position + 1)).bind fun more hmore =>
          pure (List.forall_mem_cons.2 ⟨hfirst, hmore⟩)
      · exact refuse _ _

theorem commaSeparated {item : Nat → Parse α} (hitem : ∀ i, Finds (item i) P) (closing : Mark)
    (bound : Nat) : Finds (commaSeparated item closing bound) fun as => ∀ a ∈ as, P a := by
  refine after (.eat _) fun done => ?_
  split
  · exact pure fun _ h => by cases h
  · exact items hitem closing bound 0

/-! ### Parts of expressions -/

section

variable {expression : Parse Expr} (he : Finds expression Expr.Spelled)
include he

theorem indices : ∀ bound, Finds (indices expression bound) Expr.SpelledList := by
  intro bound
  induction bound with
  | zero => exact pure trivial
  | succ bound ih =>
    refine after (.eat _) fun found => ?_
    split
    · exact he.bind fun index hindex => after (.expect _) fun _ =>
        ih.bind fun more hmore => pure ⟨hindex, hmore⟩
    · exact pure trivial

omit he in
theorem referenceArgument (routine parameter : String) :
    Finds (referenceArgument routine parameter) Expr.SpelledArgument := by
  refine after .peekLine fun line => get fun d hd => ?_
  split
  · rename_i name nameLine follow followLine rest htokens
    have hname : Token.IsWord name :=
      hd ⟨.identifier name, nameLine⟩ (htokens ▸ List.mem_cons_self)
    split
    · refine after .advance fun _ => (resolve hname line).bind fun id hid => get fun d' _ => ?_
      split
      · exact refuse _ _
      · exact pure hid
    · exact refuse _ _
  · exact refuse _ _

theorem argument (heading : Heading) (position : Nat) :
    Finds (argument expression heading position) Expr.SpelledArgument := by
  unfold Grammar.argument
  split
  · exact referenceArgument _ _
  · exact he.bind fun e hspelled => pure hspelled

theorem arguments (bound : Nat) (name : String) (line : Nat) :
    Finds (arguments expression bound name line) Expr.SpelledArguments := by
  refine after (.callable name line) fun heading => after (.expect _) fun _ =>
    (commaSeparated (argument he heading) _ bound).bind fun found hfound => ?_
  dsimp only
  split
  · exact pure ((Expr.spelledArguments_iff found).2 hfound)
  · exact refuse _ _

omit he in
theorem integerLiteral (n : Int) (line digitsLine : Nat) :
    Finds (integerLiteral n line digitsLine) Expr.Spelled := by
  unfold Grammar.integerLiteral
  split
  · exact pure trivial
  · exact refuse _ _

theorem named (bound : Nat) {name : String} (hname : Token.IsWord name) (line : Nat) :
    Finds (named expression bound name line) Expr.Spelled := by
  refine after .peek fun next => ?_
  split
  · exact (arguments he bound name line).bind fun found hfound => pure ⟨hname, hfound⟩
  · refine (resolve hname line).bind fun id hid => (indices he bound).bind fun path hpath => ?_
    split
    · exact pure hid
    · exact pure ⟨hid, hpath⟩

/-- A literal, a name, a call, or an expression in parentheses. -/
theorem primary (bound : Nat) : Finds (primary expression bound) Expr.Spelled := by
  refine advance.bind fun l hl => ?_
  obtain ⟨token, line⟩ := l
  rcases token with x | n | b | c | s | name | w | m
  case real =>
    dsimp only
    split
    · exact pure hl
    · exact refuse _ _
  case integer => exact integerLiteral _ _ _
  case identifier => exact named he bound hl _
  case mark =>
    cases m with
    | openParen =>
      exact he.bind fun e hspelled => after (.expect _) fun _ => pure hspelled
    | _ => exact refuse _ _
  case word => exact refuse _ _
  all_goals exact pure trivial

end

/-! ### Expressions -/

theorem operations {operand : Parse Expr} (h : Finds operand Expr.Spelled) (layer : Layer) :
    ∀ bound left, left.Spelled → Finds (operations operand layer bound left) Expr.Spelled := by
  intro bound
  induction bound with
  | zero => exact fun left hleft => pure hleft
  | succ bound ih =>
    intro left hleft
    refine after (.bind .peek fun _ => .pure _ : Quiet (operator? layer)) fun op => ?_
    split
    · exact pure hleft
    · exact after .advance fun l => h.bind fun right hright => ih _ ⟨hleft, hright⟩

theorem layered {operand : Parse Expr} (h : Finds operand Expr.Spelled) (bound : Nat) :
    ∀ layers, Finds (layered operand bound layers) Expr.Spelled := by
  intro layers
  induction layers with
  | nil => exact h
  | cons layer tighter ih => exact ih.bind fun left hleft => operations ih layer bound left hleft

theorem operand : ∀ bound, Finds (operand bound) Expr.Spelled := by
  intro bound
  induction bound with
  | zero => exact endOfText
  | succ bound ih =>
    refine after .peek fun next => ?_
    split
    · refine after .advance fun sign => after .peek fun digits => ?_
      split
      · exact after .advance fun _ => integerLiteral _ _ _
      · exact ih.bind fun e hspelled => pure hspelled
    · exact after .advance fun sign => ih.bind fun e hspelled => pure hspelled
    · exact primary (layered ih bound Layer.all) bound

end Finds

/-- An expression that is read from a text can be written. -/
theorem expression_finds (bound : Nat) : Finds (expression bound) Expr.Spelled :=
  .layered (.operand bound) bound Layer.all

end Grammar

end Primer
