import Primer.Proofs.Language.Expected
import Primer.Proofs.Language.Taken
import Primer.Proofs.Scope.Agreement

/-!
# Primer.Proofs.Language.Cutting — expressions that stop in the middle.

A text is read twice: as a whole, and cut off at some place.  Up to the cut both runs do the same.
What the shorter run does there depends on the reader: most readers need another token and refuse
the text because it stops, but a few take the end of the text for the end of what they read, or look
ahead and miss what they look for (`Mistaken`).

`Cutting.Cuts` relates the two runs of one reader.  The shorter run has fewer steps as well, because
the steps are counted by the tokens.

A fault that the end of a text brings about is tied to the place where the cut is.  A size or a bare
name may only be refused where an operand was begun, and an argument only where a routine of the
program was called and asks for a variable in this position (`VariableDue`).  So a cutting keeps the
routines of the whole program, and every reader that may be in front of a call knows that what can
be called there is one of them: a routine that is complete, or one that is being read and whose
heading is in the tree (`Cutting.Knows`).

Depth counts the blocks that were open when the reader was started.  A heading in the tree belongs
to a routine of the program only if its block will be closed again, and this is known of blocks
further in.
-/

namespace Primer.Grammar

variable {α β : Type}

/-! ## Where the end of a text is taken for something else -/

/-- What stands in front of operands: a name behind such a token is read as part of an expression,
or as an argument. -/
def LeadsOperand : Token → Prop
  | .mark .openParen | .mark .openBracket | .mark .comma | .mark .assign => True
  | .word .output | .word .return | .word .if | .word .elseif | .word .while | .word .not => True
  | t => ∃ op, binaryOp? t = some op

theorem leadsOperand_of_binaryOp? {t : Token} {op : BinaryOp} (h : binaryOp? t = some op) :
    LeadsOperand t := by
  unfold LeadsOperand
  split
  iterate 10 trivial
  exact ⟨op, h⟩

/-- The kept tokens end in front of an argument, and the parameter it is for is passed by
reference: the call they end with names this routine, and it has as many arguments so far as there
are parameters in front of this one. -/
inductive VariableDue (routines : Routines) : List Token → ParseFault → Prop
  | intro {before : List Token} {args : List (List Token)} {routine : String} {r : Routine}
      {type : Scalar} {parameter : String} (defined : routines.get? routine = some r)
      (given : ∀ w ∈ args, Phrase.expression.Derives w)
      (passed : r.heading.parameters[args.length]? = some ⟨.byReference, type, parameter⟩) :
      VariableDue routines
        (before ++ .identifier routine :: .mark .openParen :: args.flatMap (· ++ [.mark .comma]))
        (.expectedVariableArgument routine parameter)

/-- The kept and the lost tokens of a text that is refused for another fault than its end.  Behind
the two keywords the fault is left open. -/
inductive Mistaken (routines : Routines) : List Token → List Token → ParseFault → Prop
  /-- What is there of an array size is an expression, and its value is no size. -/
  | size {before path w more : List Token} {t : Token} {op : BinaryOp} {cause : SizeFault}
      (sizes : Phrase.indices.Derives path) (expression : Phrase.expression.Derives w)
      (continued : binaryOp? t = some op) :
      Mistaken routines (before ++ .word .array :: (path ++ .mark .openBracket :: w)) (t :: more)
        (.invalidArraySize cause)
  /-- An argument that is passed by reference is recognized by the mark behind its name. -/
  | beforeVariable {kept more : List Token} {name : String} {follow : Mark} {fault : ParseFault}
      (due : VariableDue routines kept fault) (closes : follow = .comma ∨ follow = .closeParen) :
      Mistaken routines kept (.identifier name :: .mark follow :: more) fault
  | behindVariable {kept more : List Token} {name : String} {follow : Mark} {fault : ParseFault}
      (due : VariableDue routines kept fault) (closes : follow = .comma ∨ follow = .closeParen) :
      Mistaken routines (kept ++ [.identifier name]) (.mark follow :: more) fault
  /-- The name of a routine that is called in an expression is a variable without its arguments. -/
  | called {before args more : List Token} {t : Token} {name : String} {r : Routine}
      (leads : LeadsOperand t) (given : Phrase.arguments.Derives args)
      (defined : routines.get? name = some r) :
      Mistaken routines (before ++ [t, .identifier name]) (args ++ more) (.unknownIdentifier name)
  | behindArray {before lost : List Token} {fault : ParseFault} :
      Mistaken routines (before ++ [.word .array]) lost fault
  | behindReturn {before more : List Token} {fault : ParseFault} :
      Mistaken routines (before ++ [.word .return]) (.mark .semicolon :: more) fault

/-! ## Two runs -/

/-- A text and a place in it, in front of its end, with the routines that the whole text defines.
Where expressions and statements are read, `depth` blocks at least are open. -/
structure Cutting where
  kept : List Lexeme
  lost : List Lexeme
  lost_ne : lost ≠ []
  routines : Routines
  depth : Nat

namespace Cutting

variable {k : Cutting}

/-- The same place, inside of one more block. -/
def deeper (k : Cutting) : Cutting := { k with depth := k.depth + 1 }

/-- The faults that the shorter text may be refused for. -/
def Excuses (k : Cutting) (fault : ParseFault) : Prop :=
  fault = .unexpectedEnd ∨
    Mistaken k.routines (k.kept.map (·.token)) (k.lost.map (·.token)) fault

/-- The text as a whole defines a routine with this name and heading. -/
def Names (k : Cutting) (name : String) (heading : Heading) : Prop :=
  heading.name = name ∧ ∃ r, k.routines.get? name = some r ∧ r.heading = heading

/-- A block may be opened for this node: where it is the body of a routine, the text defines that
routine. -/
def MayOpen (k : Cutting) (d : Draft) (node : NodeId) : Prop :=
  (node : Nat) < d.tree.size ∧
    ∀ heading, (d.tree.construct? node).bind Construct.heading? = some heading →
      k.Names heading.name heading

/-- Whatever can be called at this point is a routine of the whole text. -/
structure Knows (k : Cutting) (d : Draft) : Prop where
  deep : k.depth ≤ d.blocks.length
  opened : ∀ b ∈ d.blocks, k.MayOpen d b.node
  defined : ∀ name r, d.routines.get? name = some r → k.Names name r.heading

/-- Both runs stand at the same place, one in front of the whole rest of the text. -/
structure Cut (k : Cutting) (d c : Draft) : Prop where
  tokens : d.tokens = c.tokens ++ k.lost
  suffix : c.tokens <:+ k.kept
  rest : c = { d with tokens := c.tokens, lastLine := c.lastLine }
  knows : k.Knows d

/-- The second answer is the first one and both runs stand at the same place again, or the second
run has come to the end of its text with some answer.  It has at most `n` tokens left. -/
def Agrees (k : Cutting) (n : Nat) (B : α → α → Prop) (a : α) (d : Draft) (b : α) (c : Draft) :
    Prop :=
  (b = a ∧ k.Cut d c ∧ c.tokens.length ≤ n) ∨ (c.tokens = [] ∧ B a b)

/-- When the first reader answers in front of the whole text, the answer of the second one in front
of the shorter text agrees with it, or the shorter text is refused for such a fault. -/
def Cuts (k : Cutting) (E : ParseFault → Prop) (B : α → α → Prop) (x y : Parse α) (d c : Draft) :
    Prop :=
  ∀ a d', x.run d = .ok a d' → Comes y c (k.Agrees c.tokens.length B a d') E

/-- No answer in front of the end of a shorter text. -/
def Never (_ _ : α) : Prop := False

/-- Any answer. -/
def Always (_ _ : α) : Prop := True

/-- The token stands directly in front of this place. -/
def After (k : Cutting) (t : Token) (c : Draft) : Prop :=
  ∃ before, k.kept.map (·.token) = before ++ t :: c.words

/-- An operand may stand at this place. -/
def Leads (k : Cutting) (c : Draft) : Prop :=
  ∃ t, LeadsOperand t ∧ k.After t c

/-! ## What can be called -/

/-- A block that may be opened may be opened later. -/
theorem MayOpen.mono {d d' : Draft} {node : NodeId} (h : k.MayOpen d node)
    (hkeeps : d.tree.Keeps d'.tree) : k.MayOpen d' node := by
  refine ⟨Nat.lt_of_lt_of_le h.1 hkeeps.size, fun heading hheading => h.2 heading ?_⟩
  rw [← hkeeps.heading node h.1]
  exact hheading

namespace Knows

variable {d d' : Draft}

/-- What can be called is a routine of the program. -/
theorem callable (h : k.Knows d) {name : String} {heading : Heading}
    (hc : d.callable? name = some heading) : k.Names name heading := by
  unfold Draft.callable? at hc
  cases hr : d.routines.get? name with
  | some r =>
    rw [hr] at hc
    cases hc
    exact h.defined name r hr
  | none =>
    rw [hr] at hc
    -- the routine that is being read is the body of an open block
    obtain ⟨henclosing, hname⟩ := Option.filter_eq_some_iff.1 hc
    obtain ⟨b, hb, hheading⟩ := List.exists_of_findSome?_eq_some henclosing
    rw [Draft.heading?_eq] at hheading
    obtain rfl : heading.name = name := by simpa using hname
    exact (h.opened b hb).2 heading hheading

/-- A step that keeps the nodes, the open blocks and the routines. -/
theorem change (h : k.Knows d) (hkeeps : d.tree.Keeps d'.tree)
    (hnodes : d'.blocks.map (·.node) = d.blocks.map (·.node))
    (hroutines : d'.routines = d.routines) : k.Knows d' := by
  refine ⟨?_, fun b hb => ?_, hroutines ▸ h.defined⟩
  · have hlength := congrArg List.length hnodes
    rw [List.length_map, List.length_map] at hlength
    exact hlength ▸ h.deep
  · have hnode : b.node ∈ d.blocks.map (·.node) := hnodes ▸ List.mem_map_of_mem hb
    obtain ⟨b', hb', hsame⟩ := List.mem_map.1 hnode
    exact hsame ▸ (h.opened b' hb').mono hkeeps

/-- Taking tokens changes nothing that can be called. -/
theorem skips (h : k.Knows d) (hs : d.Skips d') : k.Knows d' :=
  h.change hs.keeps (by rw [hs.blocks]) hs.routines

end Knows

namespace Cut

variable {d c d' c' : Draft}

theorem resolve? (h : k.Cut d c) : c.resolve? = d.resolve? := by
  rw [h.rest]
  rfl

theorem isReadOnly (h : k.Cut d c) : c.isReadOnly = d.isReadOnly := by
  rw [h.rest]
  rfl

theorem callable? (h : k.Cut d c) : c.callable? = d.callable? := by
  rw [h.rest]
  rfl

theorem enclosing? (h : k.Cut d c) : c.enclosing? = d.enclosing? := by
  rw [h.rest]
  rfl

theorem tree (h : k.Cut d c) : c.tree = d.tree := by rw [h.rest]

theorem blocks (h : k.Cut d c) : c.blocks = d.blocks := by rw [h.rest]

theorem scope (h : k.Cut d c) : c.scope = d.scope := by
  rw [h.rest]
  rfl

/-- Nothing is left but what was cut off. -/
theorem lost_of_nil (h : k.Cut d c) (hc : c.tokens = []) : d.tokens = k.lost := by
  rw [h.tokens, hc, List.nil_append]

/-- Where both take a token, it is the same one. -/
theorem drops {l l' : Lexeme} (h : k.Cut d c) (hd : d.Drops l d') (hc : c.Drops l' c') :
    l' = l ∧ k.Cut d' c' ∧ c'.tokens.length < c.tokens.length := by
  have htokens := h.tokens
  rw [hd.tokens, hc.tokens, List.cons_append] at htokens
  injection htokens with hl htokens
  subst hl
  refine ⟨rfl, ⟨htokens, ?_, ?_, h.knows.skips hd.toSkips⟩, ?_⟩
  · exact (List.suffix_cons l c'.tokens).trans (hc.tokens ▸ h.suffix)
  · rw [hc.rest, h.rest, hd.rest]
  · rw [hc.tokens]
    exact Nat.lt_succ_self _

/-- The kept tokens are those behind this place, with this token in front of them. -/
theorem after {l : Lexeme} (h : k.Cut d c) (hc : c.Drops l c') : k.After l.token c' := by
  obtain ⟨before, hkept⟩ := h.suffix
  refine ⟨before.map (·.token), ?_⟩
  rw [← hkept, List.map_append, ← Draft.Drops.words hc]
  rfl

/-- Behind a token that begins an operand, an operand is begun. -/
theorem leads {l : Lexeme} (h : k.Cut d c) (hc : c.Drops l c') (hl : LeadsOperand l.token) :
    k.Leads c' :=
  ⟨l.token, hl, h.after hc⟩

end Cut

theorem Agrees.mono {n m : Nat} {B : α → α → Prop} {a b : α} {d c : Draft}
    (h : k.Agrees n B a d b c) (hle : n ≤ m) : k.Agrees m B a d b c :=
  h.imp_left fun ⟨heq, hcut, hlength⟩ => ⟨heq, hcut, Nat.le_trans hlength hle⟩

/-! ## Sequences -/

namespace Cuts

variable {d c : Draft} {x y : Parse α} {f g : α → Parse β} {E F : ParseFault → Prop}
  {A : α → α → Prop} {B C : β → β → Prop}

/-- Two steps, where something is known of the first step of the second run. -/
theorem bindKnown {Q : α → Draft → Prop} (hx : k.Cuts E A x y d c)
    (hy : Comes y c Q fun _ => True)
    (hsame : ∀ a d' c', k.Cut d' c' → c'.tokens.length ≤ c.tokens.length → Q a c' →
      k.Cuts E B (f a) (g a) d' c')
    (hend : ∀ a b d' c', c'.tokens = [] → A a b → k.Cuts E B (f a) (g b) d' c') :
    k.Cuts E B (x >>= f) (y >>= g) d c := by
  intro b d' hrun
  obtain ⟨a, d₁, hfirst, hrun⟩ := bind_ok hrun
  refine Comes.bind (((hx a d₁ hfirst).and hy).imp (fun _ _ h => h) fun _ h => h.1) ?_
  rintro a' c₁ ⟨⟨rfl, hcut, hlength⟩ | ⟨hnil, hother⟩, hknown⟩
  · exact (hsame a' d₁ c₁ hcut hlength hknown b d' hrun).imp (fun _ _ h => h.mono hlength)
      fun _ h => h
  · refine (hend a a' d₁ c₁ hnil hother b d' hrun).imp (fun _ _ h => h.mono ?_) fun _ h => h
    rw [hnil]
    exact Nat.zero_le _

/-- Two readers in a row, in both runs. -/
theorem bind (hx : k.Cuts E A x y d c)
    (hsame : ∀ a d' c', k.Cut d' c' → c'.tokens.length ≤ c.tokens.length →
      k.Cuts E B (f a) (g a) d' c')
    (hend : ∀ a b d' c', c'.tokens = [] → A a b → k.Cuts E B (f a) (g b) d' c') :
    k.Cuts E B (x >>= f) (y >>= g) d c :=
  hx.bindKnown (Comes.always fun _ _ => trivial)
    (fun a d' c' hcut hlength _ => hsame a d' c' hcut hlength) hend

/-- A reader that never answers at the end of the text. -/
theorem firm (hx : k.Cuts E Never x y d c)
    (hsame : ∀ a d' c', k.Cut d' c' → c'.tokens.length ≤ c.tokens.length →
      k.Cuts E B (f a) (g a) d' c') : k.Cuts E B (x >>= f) (y >>= g) d c :=
  hx.bind hsame fun _ _ _ _ _ h => h.elim

/-- A weaker relation of the answers, and more faults. -/
theorem imp {x y : Parse β} (hx : k.Cuts E B x y d c) (hB : ∀ a b, B a b → C a b)
    (hE : ∀ fault, E fault → F fault) : k.Cuts F C x y d c := by
  intro a d' hrun
  exact (hx a d' hrun).imp (fun b c' h => h.imp_right fun h => ⟨h.1, hB a b h.2⟩) hE

theorem pure {b : β} (hcut : k.Cut d c) : k.Cuts E B (Pure.pure b) (Pure.pure b) d c := by
  intro a d' hrun
  obtain ⟨rfl, rfl⟩ := pure_ok hrun
  exact Comes.pure (Or.inl ⟨rfl, hcut, Nat.le_refl _⟩)

/-- At the end of the text, with some answer. -/
theorem pureEnd {a b : β} (hnil : c.tokens = []) (h : B a b) :
    k.Cuts E B (Pure.pure a) (Pure.pure b) d c := by
  intro a' d' hrun
  obtain ⟨rfl, rfl⟩ := pure_ok hrun
  exact Comes.pure (Or.inr ⟨hnil, h⟩)

/-- The whole text is refused. -/
theorem refused {fault : ParseFault} {line : Nat} {y : Parse β} :
    k.Cuts E B (refuse fault line) y d c :=
  fun _ _ hrun => (refuse_ok hrun).elim

theorem refusedBind {fault : ParseFault} {line : Nat} {y : Parse β} :
    k.Cuts E B (refuse fault line >>= f) y d c := by
  intro b d' hrun
  obtain ⟨_, _, hr, _⟩ := bind_ok hrun
  exact (refuse_ok hr).elim

theorem get {f g : Draft → Parse β} (h : k.Cuts E B (f d) (g c) d c) :
    k.Cuts E B (MonadState.get >>= f) (MonadState.get >>= g) d c := h

theorem peekLine {f g : Nat → Parse β} (hcut : k.Cut d c) (hne : c.tokens ≠ [])
    (h : ∀ line, k.Cuts E B (f line) (g line) d c) :
    k.Cuts E B (Grammar.peekLine >>= f) (Grammar.peekLine >>= g) d c := by
  have hline : (d.tokens.head?.map (·.line)).getD d.lastLine
      = (c.tokens.head?.map (·.line)).getD c.lastLine := by
    rw [hcut.tokens]
    cases hc : c.tokens with
    | nil => exact absurd hc hne
    | cons l rest => rfl
  have hat := h ((d.tokens.head?.map (·.line)).getD d.lastLine)
  intro b d' hrun
  have hcomes := hat b d' hrun
  rw [hline] at hcomes
  exact hcomes

/-- To look ahead is to see the same, or the end of the text in one run. -/
theorem peek {f g : Option Token → Parse β}
    (h : k.Cuts E B (f d.words.head?) (g c.words.head?) d c) :
    k.Cuts E B (Grammar.peek >>= f) (Grammar.peek >>= g) d c := by
  intro b d' hrun
  obtain ⟨t, d₁, hpeek, hrun⟩ := bind_ok hrun
  obtain ⟨rfl, rfl⟩ := peek_ok hpeek
  refine Comes.peek ?_
  rw [Draft.words, List.head?_map] at h
  exact h b d' hrun

end Cuts

/-- What comes next is the same where something is left. -/
theorem Cut.head {d c : Draft} (h : k.Cut d c) (hne : c.tokens ≠ []) :
    d.words.head? = c.words.head? := by
  rw [Draft.words, Draft.words, h.tokens]
  cases hc : c.tokens with
  | nil => exact absurd hc hne
  | cons l rest => rfl

/-- At the cut the longer run sees the first lost token. -/
theorem Cut.head_of_nil {d c : Draft} (h : k.Cut d c) (hnil : c.tokens = []) :
    d.words.head? = (k.lost.map (·.token)).head? ∧ c.words.head? = none := by
  rw [Draft.words, Draft.words, h.lost_of_nil hnil, hnil]
  exact ⟨rfl, rfl⟩

/-! ## Single tokens -/

section

variable {d c : Draft} {f g : α → Parse β} {E : ParseFault → Prop} {B : β → β → Prop}

/-- A reader that needs a token, at the end of the text. -/
theorem ended_advance {f : Lexeme → Parse β} {Q : β → Draft → Prop} (hnil : c.tokens = [])
    (hE : E .unexpectedEnd) : Comes (advance >>= f) c Q E := by
  refine Comes.advance (fun _ => hE) fun l c' hdrops => ?_
  rw [hdrops.tokens] at hnil
  cases hnil

/-- At the end of a text nothing that is expected is there. -/
theorem ended_expect {t : Token} {f : Nat → Parse β} {Q : β → Draft → Prop}
    (hnil : c.tokens = []) (hE : E .unexpectedEnd) : Comes (expect t >>= f) c Q E :=
  Comes.bind (P := fun _ _ => False) (ended_advance hnil hE) fun _ _ h => h.elim

theorem ended_scalarType {f : Scalar → Parse β} {Q : β → Draft → Prop} (hnil : c.tokens = [])
    (hE : E .unexpectedEnd) : Comes (scalarType >>= f) c Q E :=
  Comes.bind (P := fun _ _ => False) (ended_advance hnil hE) fun _ _ h => h.elim

/-- A token that both runs take, or the cut. -/
theorem cuts_advance {f g : Lexeme → Parse β} (hcut : k.Cut d c) (hE : E .unexpectedEnd)
    (h : ∀ l d' c', d.Drops l d' → c.Drops l c' → k.Cut d' c' →
      c'.tokens.length < c.tokens.length → k.Cuts E B (f l) (g l) d' c') :
    k.Cuts E B (advance >>= f) (advance >>= g) d c := by
  intro b d' hrun
  obtain ⟨l, d₁, ha, hrun⟩ := bind_ok hrun
  have hd := advance_ok ha
  refine Comes.advance (fun _ => hE) fun l' c₁ hc => ?_
  obtain ⟨rfl, hcut₁, hlt⟩ := hcut.drops hd hc
  exact (h l' d₁ c₁ hd hc hcut₁ hlt b d' hrun).imp (fun _ _ h => h.mono (Nat.le_of_lt hlt))
    fun _ h => h

theorem cuts_expect {t : Token} {f g : Nat → Parse β} (hcut : k.Cut d c) (hE : E .unexpectedEnd)
    (h : ∀ line d' c', c.Drops ⟨t, line⟩ c' → k.Cut d' c' →
      c'.tokens.length < c.tokens.length → k.Cuts E B (f line) (g line) d' c') :
    k.Cuts E B (expect t >>= f) (expect t >>= g) d c := by
  unfold expect
  simp only [bind_assoc]
  refine cuts_advance hcut hE fun l d' c' _ hc hcut' hlt => ?_
  by_cases hl : l.token = t
  · subst hl
    rw [if_pos rfl, pure_bind, pure_bind]
    exact h l.line d' c' hc hcut' hlt
  · rw [if_neg hl]
    exact Cuts.refusedBind

theorem cuts_identifier {f g : String → Parse β} (hcut : k.Cut d c) (hE : E .unexpectedEnd)
    (h : ∀ name line d' c', c.Drops ⟨.identifier name, line⟩ c' → k.Cut d' c' →
      c'.tokens.length < c.tokens.length → k.Cuts E B (f name) (g name) d' c') :
    k.Cuts E B (identifier >>= f) (identifier >>= g) d c := by
  unfold identifier
  simp only [bind_assoc]
  refine cuts_advance hcut hE fun l d' c' _ hc hcut' hlt => ?_
  obtain ⟨token, line⟩ := l
  cases token with
  | identifier name =>
    rw [pure_bind, pure_bind]
    exact h name line d' c' hc hcut' hlt
  | _ => exact Cuts.refusedBind

theorem cuts_scalarType {f g : Scalar → Parse β} (hcut : k.Cut d c) (hE : E .unexpectedEnd)
    (h : ∀ type d' c', k.Cut d' c' → c'.tokens.length < c.tokens.length →
      k.Cuts E B (f type) (g type) d' c') :
    k.Cuts E B (scalarType >>= f) (scalarType >>= g) d c := by
  unfold scalarType
  simp only [bind_assoc]
  refine cuts_advance hcut hE fun l d' c' _ hc hcut' hlt => ?_
  split
  · rw [pure_bind, pure_bind]
    exact h _ d' c' hcut' hlt
  · exact Cuts.refusedBind

/-- A token that may come: at the end of the text, it does not. -/
theorem cuts_eat {t : Token} {f g : Bool → Parse β} (hcut : k.Cut d c)
    (hyes : ∀ line d' c', c.Drops ⟨t, line⟩ c' → k.Cut d' c' →
      c'.tokens.length < c.tokens.length → k.Cuts E B (f true) (g true) d' c')
    (hno : k.Cuts E B (f false) (g false) d c)
    (hend : c.tokens = [] → (k.lost.map (·.token)).head? = some t → ∀ d',
      k.Cuts E B (f true) (g false) d' c) :
    k.Cuts E B (eat t >>= f) (eat t >>= g) d c := by
  unfold eat
  simp only [bind_assoc]
  refine Cuts.peek ?_
  by_cases hnil : c.tokens = []
  · obtain ⟨hd, hc⟩ := hcut.head_of_nil hnil
    -- At the cut the long text may go on with `t` where the short one has nothing.
    have hnone : ¬ (none : Option Token) = some t := fun h => by cases h
    rw [hd, hc, if_neg hnone]
    by_cases hnext : (k.lost.map (·.token)).head? = some t
    · rw [if_pos hnext]
      simp only [bind_assoc, pure_bind]
      intro b d' hrun
      obtain ⟨l, d₁, -, hrun⟩ := bind_ok hrun
      exact hend hnil hnext d₁ b d' hrun
    · rw [if_neg hnext, pure_bind, pure_bind]
      exact hno
  · rw [hcut.head hnil]
    by_cases hnext : c.words.head? = some t
    · rw [if_pos hnext]
      simp only [bind_assoc, pure_bind]
      intro b d' hrun
      obtain ⟨l, d₁, ha, hrun⟩ := bind_ok hrun
      have hd := advance_ok ha
      refine Comes.advance (fun hnil' => absurd hnil' hnil) fun l' c₁ hc => ?_
      obtain ⟨rfl, hcut₁, hlt⟩ := hcut.drops hd hc
      rw [hc.words] at hnext
      obtain ⟨token, line⟩ := l'
      obtain rfl : token = t := Option.some.inj hnext
      exact (hyes line d₁ c₁ hc hcut₁ hlt b d' hrun).imp
        (fun _ _ h => h.mono (Nat.le_of_lt hlt)) fun _ h => h
    · rw [if_neg hnext, pure_bind, pure_bind]
      exact hno

end

/-! ## Names -/

section

variable {d c : Draft} {E : ParseFault → Prop} {B : β → β → Prop} {name : String} {line : Nat}

/-- A name means the same in both runs. -/
theorem cuts_resolve {f g : String → Parse β} (hcut : k.Cut d c)
    (h : ∀ id, k.Cuts E B (f id) (g id) d c) :
    k.Cuts E B (resolve name line >>= f) (resolve name line >>= g) d c := by
  unfold resolve
  simp only [bind_assoc]
  refine Cuts.get ?_
  rw [hcut.resolve?]
  cases d.resolve? name with
  | some id => exact h id
  | none => exact Cuts.refusedBind

theorem cuts_resolveWritable {f g : String → Parse β} (hcut : k.Cut d c)
    (h : ∀ id, k.Cuts E B (f id) (g id) d c) :
    k.Cuts E B (resolveWritable name line >>= f) (resolveWritable name line >>= g) d c := by
  unfold resolveWritable
  simp only [bind_assoc]
  refine cuts_resolve hcut fun id => Cuts.get ?_
  rw [hcut.isReadOnly]
  by_cases hro : d.isReadOnly id = true
  · rw [if_pos hro]
    exact Cuts.refusedBind
  · rw [if_neg hro, pure_bind, pure_bind]
    exact h id

theorem cuts_callable {f g : Heading → Parse β} (hcut : k.Cut d c)
    (h : ∀ heading, k.Names name heading → k.Cuts E B (f heading) (g heading) d c) :
    k.Cuts E B (callable name line >>= f) (callable name line >>= g) d c := by
  unfold callable
  simp only [bind_assoc]
  refine Cuts.get ?_
  rw [hcut.callable?]
  cases hc : d.callable? name with
  | some heading => exact h heading (hcut.knows.callable hc)
  | none => exact Cuts.refusedBind

end

/-! ## Lists -/

/-- The items of a list, which ends with a mark of its own.  What is known in front of the first
item (`P`) is known in front of every one, when an item and a comma behind it lead to the next. -/
theorem items_cuts {item item' : Nat → Parse α} {closing : Mark} {m : Nat}
    {P : Nat → Draft → Prop}
    (hitem : ∀ position d c, k.Cut d c → P position c → c.tokens.length ≤ m →
      k.Cuts k.Excuses Always (item position) (item' position) d c)
    (hnext : ∀ position c, P position c → Comes (item' position) c
      (fun _ c' => ∀ line c'', c'.Drops ⟨.mark .comma, line⟩ c'' → P (position + 1) c'')
      fun _ => True) :
    ∀ {i j : Nat} (position : Nat) {d c : Draft}, i < j → k.Cut d c → P position c →
      c.tokens.length ≤ m → c.tokens.length ≤ i →
      k.Cuts k.Excuses Never (items item closing j position) (items item' closing i position)
        d c := by
  intro i
  induction i with
  | zero => exact fun _ _ _ _ _ _ _ _ _ _ _ => Comes.endOfText (Or.inl rfl)
  | succ i ih =>
    intro j position d c hij hcut hp hm hi
    cases j with
    | zero => omega
    | succ j =>
      rw [items, items]
      -- At the end of the cut text the comma is missing, which is the end of the text again.
      refine (hitem position d c hcut hp hm).bindKnown (hnext position c hp)
        (fun a d₁ c₁ hcut₁ hle₁ hp₁ => ?_) fun a b d₁ c₁ hnil _ _ _ _ =>
          ended_advance hnil (Or.inl rfl)
      refine cuts_advance hcut₁ (Or.inl rfl) fun l d₂ c₂ _ hc₂ hcut₂ hlt₂ => ?_
      obtain ⟨token, line⟩ := l
      dsimp only
      by_cases hclosing : token = .mark closing
      · rw [if_pos hclosing, if_pos hclosing]
        exact Cuts.pure hcut₂
      · rw [if_neg hclosing, if_neg hclosing]
        by_cases hcomma : token = .mark .comma
        · subst hcomma
          rw [if_pos rfl, if_pos rfl]
          refine (ih (position + 1) (Nat.lt_of_succ_lt_succ hij) hcut₂ (hp₁ line c₂ hc₂)
            (by omega) (by omega)).firm fun more d₃ c₃ hcut₃ _ => Cuts.pure hcut₃
        · rw [if_neg hcomma]
          exact Cuts.refused

/-- A token was there and was taken, or was not there. -/
theorem eat_cases {t : Token} {d d' : Draft} {b : Bool} (h : (eat t).run d = .ok b d') :
    (b = true ∧ ∃ line, d.Drops ⟨t, line⟩ d') ∨
      (b = false ∧ d = d' ∧ d.words.head? ≠ some t) := by
  obtain ⟨_, _, hp, h⟩ := bind_ok h
  obtain ⟨rfl, hpeek⟩ := peek_ok hp
  split at h
  · rename_i hnext
    obtain ⟨l, d₁, ha, h⟩ := bind_ok h
    obtain ⟨rfl, rfl⟩ := pure_ok h
    have hdrops := advance_ok ha
    rw [hnext] at hpeek
    have hl := hdrops.token_eq hpeek
    exact Or.inl ⟨rfl, l.line, hl ▸ hdrops⟩
  · rename_i hnext
    obtain ⟨rfl, rfl⟩ := pure_ok h
    refine Or.inr ⟨rfl, rfl, ?_⟩
    rw [Draft.words, List.head?_map, hpeek]
    exact hnext

/-- A list in front of its first item.  Where only the closing mark is lost, the shorter run tries
to read an item. -/
theorem commaSeparated_cuts {item item' : Nat → Parse α} {closing : Mark} {m i j : Nat}
    {P : Nat → Draft → Prop} {d c d' : Draft} {as : List α}
    (hitem : ∀ position d c, k.Cut d c → P position c → c.tokens.length ≤ m →
      k.Cuts k.Excuses Always (item position) (item' position) d c)
    (hstep : ∀ position c, P position c → Comes (item' position) c
      (fun _ c' => ∀ line c'', c'.Drops ⟨.mark .comma, line⟩ c'' → P (position + 1) c'')
      fun _ => True)
    (hfirst : as = [] → ∀ c Q, c.tokens = [] → Comes (item' 0) c Q (· = .unexpectedEnd))
    (hij : i < j) (hcut : k.Cut d c) (hp : P 0 c) (hm : c.tokens.length ≤ m)
    (hi : c.tokens.length ≤ i) (hrun : (commaSeparated item closing j).run d = .ok as d') :
    Comes (commaSeparated item' closing i) c (k.Agrees c.tokens.length Never as d') k.Excuses := by
  obtain ⟨b, d₁, heat, hrun⟩ := bind_ok hrun
  rcases eat_cases heat with ⟨rfl, line, hd⟩ | ⟨rfl, rfl, hnext⟩
  · obtain ⟨rfl, rfl⟩ := pure_ok hrun
    by_cases hnil : c.tokens = []
    · refine eat_not (by rw [(hcut.head_of_nil hnil).2]; exact fun h => by cases h) ?_
      -- Nothing is left behind the parenthesis: the first item finds the end of the text.
      cases i with
      | zero => exact Comes.endOfText (Or.inl rfl)
      | succ i =>
        have hends : Comes (item' 0) c (fun _ _ => False) k.Excuses :=
          (hfirst rfl c _ hnil).imp (fun _ _ h => h) fun _ => Or.inl
        exact Comes.bind hends fun _ _ h => h.elim
    · have hhead : c.words.head? = some (.mark closing) := by
        rw [← hcut.head hnil, hd.words]
        rfl
      refine Comes.bind (P := fun b c' => b = true ∧ k.Cut d₁ c' ∧
        c'.tokens.length < c.tokens.length) (Comes.peek ?_) ?_
      · rw [if_pos hhead]
        refine Comes.advance (fun h => absurd h hnil) fun l c' hc => ?_
        obtain ⟨-, hcut', hlt⟩ := hcut.drops hd hc
        exact Comes.pure ⟨rfl, hcut', hlt⟩
      · rintro b c' ⟨rfl, hcut', hlt⟩
        exact Comes.pure (Or.inl ⟨rfl, hcut', Nat.le_of_lt hlt⟩)
  · refine eat_not ?_ (items_cuts hitem hstep 0 hij hcut hp hm hi as d' hrun)
    by_cases hnil : c.tokens = []
    · rw [(hcut.head_of_nil hnil).2]
      exact fun h => by cases h
    · rwa [← hcut.head hnil]

/-! ## Expressions -/

/-- The first token that is lost goes on with an operator. -/
def GoesOn (k : Cutting) : Prop :=
  ∃ t more op, k.lost.map (·.token) = t :: more ∧ binaryOp? t = some op

/-- How an expression that was cut off may have gone on: with an operator, or by naming
something. -/
def Grows (k : Cutting) (a _ : Expr) : Prop := k.GoesOn ∨ a.mentions ≠ []

/-- Two readers of expressions, the second with steps for a text of `m` tokens. -/
structure CutsExpression (k : Cutting) (m : Nat) (x y : Parse Expr) : Prop where
  cuts : ∀ d c, k.Cut d c → k.Leads c → c.tokens.length ≤ m → k.Cuts k.Excuses k.Grows x y d c
  ended : ∀ c Q, c.tokens = [] → Comes y c Q (· = .unexpectedEnd)
  whole : Takes x Phrase.expression.Derives
  short : Takes y Phrase.expression.Derives

/-- A call of this routine has been read up to the argument at this position. -/
def Given (k : Cutting) (routine : String) (position : Nat) (c : Draft) : Prop :=
  ∃ (before : List Token) (args : List (List Token)), k.kept.map (·.token)
      = before ++ .identifier routine :: .mark .openParen ::
          (args.flatMap (· ++ [.mark .comma]) ++ c.words)
    ∧ (∀ w ∈ args, Phrase.expression.Derives w) ∧ args.length = position

/-- Where an argument is due, an operand is begun. -/
theorem Given.leads {routine : String} {position : Nat} {c : Draft}
    (h : k.Given routine position c) : k.Leads c := by
  obtain ⟨before, args, hkept, -, -⟩ := h
  rcases List.eq_nil_or_concat args with rfl | ⟨args, last, rfl⟩
  · exact ⟨.mark .openParen, trivial, before ++ [.identifier routine], by rw [hkept]; simp⟩
  · refine ⟨.mark .comma, trivial, before ++ .identifier routine :: .mark .openParen ::
      (args.flatMap (· ++ [.mark .comma]) ++ last), ?_⟩
    rw [hkept]
    simp

/-- Behind a parenthesis that was just opened. -/
theorem Given.first {routine : String} {line : Nat} {c c' : Draft}
    (h : k.After (.identifier routine) c) (hc : c.Drops ⟨.mark .openParen, line⟩ c') :
    k.Given routine 0 c' := by
  obtain ⟨before, hkept⟩ := h
  refine ⟨before, [], ?_, nofun, rfl⟩
  rw [hkept, hc.words]
  rfl

/-- Behind an argument and a comma. -/
theorem Given.next {routine : String} {position line : Nat} {c c' c'' : Draft}
    (h : k.Given routine position c) (hw : c.Took Phrase.expression.Derives c')
    (hc : c'.Drops ⟨.mark .comma, line⟩ c'') : k.Given routine (position + 1) c'' := by
  obtain ⟨before, args, hkept, hargs, rfl⟩ := h
  obtain ⟨w, hwords, hw⟩ := hw
  refine ⟨before, args ++ [w], ?_, fun v hv => ?_, by simp⟩
  · rw [hkept, hwords, hc.words]
    simp
  · rcases List.mem_append.1 hv with hv | hv
    · exact hargs v hv
    · rw [List.mem_singleton.1 hv]
      exact hw

/-- The argument to come is passed by reference. -/
theorem Given.due {routine parameter : String} {position : Nat} {type : Scalar} {c : Draft}
    {heading : Heading} (h : k.Given routine position c) (hnames : k.Names routine heading)
    (hpassed : heading.parameters[position]? = some ⟨.byReference, type, parameter⟩) :
    ∃ kept, k.kept.map (·.token) = kept ++ c.words ∧
      VariableDue k.routines kept (.expectedVariableArgument heading.name parameter) := by
  obtain ⟨before, args, hkept, hargs, rfl⟩ := h
  obtain ⟨rfl, r, hr, rfl⟩ := hnames
  refine ⟨before ++ .identifier _ :: .mark .openParen :: args.flatMap (· ++ [.mark .comma]), ?_,
    .intro hr hargs hpassed⟩
  rw [hkept]
  simp

section

variable {m : Nat} {x y : Parse Expr} {d c : Draft}

/-- An argument that is passed by reference is a name in front of one of two marks. -/
theorem referenceArgument_shape {routine parameter : String} {d d' : Draft} {a : Argument}
    (h : (referenceArgument routine parameter).run d = .ok a d') :
    ∃ name line follow line' rest,
      d.tokens = ⟨.identifier name, line⟩ :: ⟨.mark follow, line'⟩ :: rest
      ∧ (follow = .comma ∨ follow = .closeParen) := by
  obtain ⟨line, d₁, hp, h⟩ := bind_ok h
  obtain ⟨rfl, -⟩ := peekLine_ok hp
  obtain ⟨_, _, hg, h⟩ := bind_ok h
  obtain ⟨rfl, rfl⟩ := get_ok hg
  split at h
  · rename_i htokens
    split at h
    · exact ⟨_, _, _, _, _, htokens, ‹_›⟩
    · exact (refuse_ok h).elim
  · exact (refuse_ok h).elim

/-- A variable as an argument, which a cut may turn into a bare name. -/
theorem referenceArgument_cuts {routine parameter : String} {kept : List Token}
    (hkept : k.kept.map (·.token) = kept ++ c.words)
    (hdue : VariableDue k.routines kept (.expectedVariableArgument routine parameter))
    (hcut : k.Cut d c) :
    k.Cuts k.Excuses Never (referenceArgument routine parameter)
      (referenceArgument routine parameter) d c := by
  cases hc : c.tokens with
  | nil =>
    -- the cut is in front of the name
    intro a d' hrun
    obtain ⟨name, line, follow, line', rest, htokens, hfollow⟩ := referenceArgument_shape hrun
    rw [hcut.lost_of_nil hc] at htokens
    refine Comes.peekLine fun _ => Comes.get ?_
    rw [hc]
    refine Comes.refuse (Or.inr ?_)
    rw [htokens, hkept, Draft.words, hc, List.map_nil, List.append_nil]
    exact .beforeVariable hdue hfollow
  | cons l₁ rest =>
    cases rest with
    | nil =>
      -- the cut is between the name and the mark behind it
      intro a d' hrun
      obtain ⟨name, line, follow, line', rest, htokens, hfollow⟩ := referenceArgument_shape hrun
      rw [hcut.tokens, hc] at htokens
      obtain ⟨rfl, hlost⟩ := List.cons.inj htokens
      refine Comes.peekLine fun _ => Comes.get ?_
      rw [hc]
      refine Comes.refuse (Or.inr ?_)
      rw [hkept, Draft.words, hc, show k.lost = _ from hlost]
      exact .behindVariable hdue hfollow
    | cons l₂ rest =>
      -- both runs see the same two tokens
      unfold referenceArgument
      refine Cuts.peekLine hcut (by rw [hc]; exact List.cons_ne_nil _ _) fun line => Cuts.get ?_
      rw [hcut.tokens, hc]
      obtain ⟨t₁, line₁⟩ := l₁
      obtain ⟨t₂, line₂⟩ := l₂
      rcases t₁ with _ | _ | _ | _ | _ | name | _ | _
      case identifier =>
        rcases t₂ with _ | _ | _ | _ | _ | _ | _ | follow
        case mark =>
          dsimp only [List.cons_append]
          by_cases hfollow : follow = .comma ∨ follow = .closeParen
          · rw [if_pos hfollow]
            refine cuts_advance hcut (Or.inl rfl) fun _ d₁ c₁ _ _ hcut₁ _ => ?_
            refine cuts_resolve hcut₁ fun id => Cuts.get ?_
            rw [hcut₁.isReadOnly]
            by_cases hro : d₁.isReadOnly id = true
            · rw [if_pos hro]
              exact Cuts.refused
            · rw [if_neg hro]
              exact Cuts.pure hcut₁
          · rw [if_neg hfollow]
            exact Cuts.refused
        all_goals exact Cuts.refused
      all_goals exact Cuts.refused

theorem argument_cuts (he : k.CutsExpression m x y) {name : String} {heading : Heading}
    (hnames : k.Names name heading) (position : Nat) (d c : Draft) (hcut : k.Cut d c)
    (hgiven : k.Given name position c) (hm : c.tokens.length ≤ m) :
    k.Cuts k.Excuses Always (argument x heading position) (argument y heading position) d c := by
  unfold argument
  split
  · rename_i hpassed
    obtain ⟨kept, hkept, hdue⟩ := hgiven.due hnames hpassed
    exact (referenceArgument_cuts hkept hdue hcut).imp (fun _ _ h => h.elim) fun _ h => h
  · exact (he.cuts d c hcut hgiven.leads hm).bind (fun _ _ _ hcut' _ => Cuts.pure hcut')
      fun _ _ _ _ hnil _ => Cuts.pureEnd hnil trivial

theorem indices_cuts (he : k.CutsExpression m x y) : ∀ {i j : Nat} {d c : Draft}, i < j →
    k.Cut d c → c.tokens.length ≤ m → c.tokens.length ≤ i →
    k.Cuts k.Excuses Always (indices x j) (indices y i) d c := by
  intro i
  induction i with
  | zero =>
    intro j d c _ _ _ hi _ _ _
    exact Comes.pure (Or.inr ⟨List.length_eq_zero_iff.1 (Nat.le_zero.1 hi), trivial⟩)
  | succ i ih =>
    intro j d c hij hcut hm hi
    cases j with
    | zero => omega
    | succ j =>
      rw [indices, indices]
      refine cuts_eat hcut (fun _ d₁ c₁ hc hcut₁ hlt₁ => ?_) (Cuts.pure hcut)
        fun hnil _ d' _ _ _ => Comes.pure (Or.inr ⟨hnil, trivial⟩)
      have hread := he.cuts d₁ c₁ hcut₁ (hcut.leads hc trivial) (by omega)
      refine hread.bind (fun e d₂ c₂ hcut₂ hle₂ => ?_)
        fun _ _ _ _ hnil _ _ _ _ => ended_expect hnil (Or.inl rfl)
      refine cuts_expect hcut₂ (Or.inl rfl) fun _ d₃ c₃ _ hcut₃ hlt₃ => ?_
      refine (ih (Nat.lt_of_succ_lt_succ hij) hcut₃ (by omega) (by omega)).bind
        (fun more d₄ c₄ hcut₄ _ => Cuts.pure hcut₄) fun _ _ _ _ hnil _ => Cuts.pureEnd hnil trivial

/-- Arguments in parentheses, behind the name of a routine. -/
theorem arguments_cuts (he : k.CutsExpression m x y) {j : Nat} (hj : m < j) {name : String}
    {line : Nat} (hcut : k.Cut d c) (hname : k.After (.identifier name) c)
    (hm : c.tokens.length ≤ m) :
    k.Cuts k.Excuses Never (arguments x j name line) (arguments y m name line) d c := by
  refine cuts_callable hcut fun heading hnames => ?_
  refine cuts_expect hcut (Or.inl rfl) fun _ d₁ c₁ hc hcut₁ hlt₁ => ?_
  intro found d' hrun
  obtain ⟨found', d₂, hlist, hrun⟩ := bind_ok hrun
  dsimp only at hrun
  split at hrun
  · rename_i hlength
    obtain ⟨rfl, rfl⟩ := pure_ok hrun
    -- without arguments there are no parameters, so an argument would be an expression
    have hfirst : found' = [] → ∀ c Q, c.tokens = [] →
        Comes (argument y heading 0) c Q (· = .unexpectedEnd) := by
      rintro rfl c Q hnil
      have hnone : heading.parameters = [] := List.length_eq_zero_iff.1 hlength.symm
      unfold argument
      rw [hnone]
      exact Comes.bind (he.ended c (fun _ _ => False) hnil) fun _ _ h => h.elim
    have hnext : ∀ position c, k.Given name position c → Comes (argument y heading position) c
        (fun _ c' => ∀ line c'', c'.Drops ⟨.mark .comma, line⟩ c'' →
          k.Given name (position + 1) c'') fun _ => True := fun position c hgiven =>
      (argument_takes he.short heading position c).imp
        (fun _ _ h _ _ hcomma => hgiven.next h.2 hcomma) fun _ _ => trivial
    refine Comes.bind (commaSeparated_cuts (argument_cuts he hnames) hnext hfirst hj hcut₁
      (.first hname hc) (by omega) (by omega) hlist) ?_
    rintro _ c₂ (⟨rfl, hcut₂, hle⟩ | ⟨-, h⟩)
    · dsimp only
      rw [if_pos hlength]
      exact Comes.pure (Or.inl ⟨rfl, hcut₂, hle⟩)
    · exact h.elim
  · exact (refuse_ok hrun).elim

/-- Indices are over at the end of the text. -/
theorem ended_indices {i : Nat} {E : ParseFault → Prop} (hnil : c.tokens = []) :
    Comes (indices y i) c (fun path c' => path = [] ∧ c' = c) E := by
  cases i with
  | zero => exact Comes.pure ⟨rfl, rfl⟩
  | succ i =>
    rw [indices]
    refine eat_not ?_ (Comes.pure ⟨rfl, rfl⟩)
    rw [Draft.words, hnil]
    exact fun h => by cases h

/-- A name that is no routine's, which was just taken. -/
theorem slot_cuts (he : k.CutsExpression m x y) {j : Nat} (hj : m < j) {name : String}
    {line : Nat} (hcut : k.Cut d c) (hm : c.tokens.length ≤ m) :
    k.Cuts k.Excuses k.Grows
      (do
        let id ← resolve name line
        match ← indices x j with
        | [] => return .ident line id
        | first :: more => return .element line id (first :: more))
      (do
        let id ← resolve name line
        match ← indices y m with
        | [] => return .ident line id
        | first :: more => return .element line id (first :: more)) d c := by
  refine cuts_resolve hcut fun id => (indices_cuts he hj hcut hm hm).bind
    (fun path d' c' hcut' _ => ?_) fun path path' d' c' hnil _ => ?_
  · cases path <;> exact Cuts.pure hcut'
  · cases path <;> cases path' <;> exact Cuts.pureEnd hnil (Or.inr (List.cons_ne_nil _ _))

/-- The name of a routine whose arguments are lost is looked up as a variable. -/
theorem lostCall_cuts (he : k.CutsExpression m x y) {i j : Nat} {name : String} {line : Nat}
    {t : Token} {before : List Token} (ht : LeadsOperand t) (hcut : k.Cut d c)
    (hnil : c.tokens = []) (hkept : k.kept.map (·.token) = before ++ [t, .identifier name]) :
    k.Cuts k.Excuses k.Grows (do return .call line name (← arguments x j name line))
      (do
        let id ← resolve name line
        match ← indices y i with
        | [] => return .ident line id
        | first :: more => return .element line id (first :: more)) d c := by
  intro e d' hrun
  obtain ⟨found, d₁, hfound, hrun⟩ := bind_ok hrun
  obtain ⟨rfl, rfl⟩ := pure_ok hrun
  -- the whole text has called the routine and read its arguments
  obtain ⟨heading, d₀, hcallable, -⟩ := bind_ok hfound
  obtain ⟨-, r, hdefined, -⟩ := hcut.knows.callable (callable_ok hcallable).2
  obtain ⟨-, args, hwords, hargs⟩ := (arguments_takes he.whole j name line d).run_ok hfound
  have hlost : k.lost.map (·.token) = args ++ d₁.words := by
    rw [← hcut.lost_of_nil hnil]
    exact hwords
  refine Comes.bind (P := fun _ c' => c' = c) (Comes.get ?_) ?_
  · split
    · exact Comes.pure rfl
    · refine Comes.refuse (Or.inr ?_)
      rw [hkept, hlost]
      exact .called ht hargs hdefined
  · rintro id c' rfl
    refine Comes.bind (ended_indices hnil) ?_
    rintro path c'' ⟨rfl, rfl⟩
    exact Comes.pure (Or.inr ⟨hnil, Or.inr (List.cons_ne_nil _ _)⟩)

/-- What stands behind a name that was just taken. -/
theorem named_cuts (he : k.CutsExpression m x y) {j : Nat} (hj : m < j) {name : String}
    {line : Nat} {t : Token} (ht : LeadsOperand t) (hcut : k.Cut d c)
    (hbehind : ∃ before, k.kept.map (·.token) = before ++ t :: .identifier name :: c.words)
    (hm : c.tokens.length ≤ m) :
    k.Cuts k.Excuses k.Grows (named x j name line) (named y m name line) d c := by
  obtain ⟨before, hbehind⟩ := hbehind
  refine Cuts.peek ?_
  by_cases hnil : c.tokens = []
  · obtain ⟨hd, hc⟩ := hcut.head_of_nil hnil
    have hnone : ¬ (none : Option Token) = some (.mark .openParen) := fun h => by cases h
    rw [hd, hc, if_neg hnone]
    by_cases hparen : (k.lost.map (·.token)).head? = some (.mark .openParen)
    · -- the parentheses of a call are lost
      rw [if_pos hparen]
      have hkept : k.kept.map (·.token) = before ++ [t, .identifier name] := by
        rw [hbehind, Draft.words, hnil]
        rfl
      exact lostCall_cuts he ht hcut hnil hkept
    · rw [if_neg hparen]
      exact slot_cuts he hj hcut hm
  · rw [hcut.head hnil]
    by_cases hparen : c.words.head? = some (.mark .openParen)
    · rw [if_pos hparen, if_pos hparen]
      have hafter : k.After (.identifier name) c := ⟨before ++ [t], by rw [hbehind]; simp⟩
      exact (arguments_cuts he hj hcut hafter hm).firm fun found d' c' hcut' _ => Cuts.pure hcut'
    · rw [if_neg hparen, if_neg hparen]
      exact slot_cuts he hj hcut hm

/-- A literal is refused in both runs or in none. -/
theorem integerLiteral_cuts {n : Int} {line digitsLine : Nat} (hcut : k.Cut d c) :
    k.Cuts k.Excuses k.Grows (integerLiteral n line digitsLine) (integerLiteral n line digitsLine)
      d c := by
  unfold integerLiteral
  cases Integer.ofInt? n with
  | some value => exact Cuts.pure hcut
  | none => exact Cuts.refused

/-- A literal, a name, a call, or an expression in parentheses. -/
theorem primary_cuts (he : k.CutsExpression m x y) {j : Nat} (hj : m < j) (hcut : k.Cut d c)
    (hleads : k.Leads c) (hm : c.tokens.length ≤ m + 1) :
    k.Cuts k.Excuses k.Grows (primary x j) (primary y m) d c := by
  refine cuts_advance hcut (Or.inl rfl) fun l d₁ c₁ _ hc hcut₁ hlt₁ => ?_
  obtain ⟨token, line⟩ := l
  rcases token with r | n | b | ch | s | name | w | mk
  case integer => exact integerLiteral_cuts hcut₁
  case real =>
    dsimp only
    by_cases hfinite : Real.isFinite r = true
    · rw [if_pos hfinite]
      exact Cuts.pure hcut₁
    · rw [if_neg hfinite]
      exact Cuts.refused
  case identifier =>
    obtain ⟨t, ht, before, hkept⟩ := hleads
    exact named_cuts he hj ht hcut₁ ⟨before, by rw [hkept, hc.words]⟩ (by omega)
  case mark =>
    cases mk with
    | openParen =>
      refine (he.cuts d₁ c₁ hcut₁ (hcut.leads hc trivial) (by omega)).bind
        (fun e d₂ c₂ hcut₂ _ => ?_)
        fun _ _ _ _ hnil _ _ _ _ => ended_expect hnil (Or.inl rfl)
      exact cuts_expect hcut₂ (Or.inl rfl) fun _ d₃ c₃ _ hcut₃ _ => Cuts.pure hcut₃
    | _ => exact Cuts.refused
  case word => exact Cuts.refused
  all_goals exact Cuts.pure hcut₁

/-! ## Operators -/

/-- What was named on the left stays named. -/
theorem operations_mentions {operand : Parse Expr} {layer : Layer} : ∀ {bound : Nat} {left e : Expr}
    {d d' : Draft}, (operations operand layer bound left).run d = .ok e d' → left.mentions ≠ [] →
      e.mentions ≠ [] := by
  intro bound
  induction bound with
  | zero =>
    intro left e d d' h hleft
    obtain ⟨rfl, -⟩ := pure_ok h
    exact hleft
  | succ bound ih =>
    intro left e d d' h hleft
    rw [operations] at h
    obtain ⟨op, d₁, -, h⟩ := bind_ok h
    cases op with
    | none =>
      obtain ⟨rfl, -⟩ := pure_ok h
      exact hleft
    | some op =>
      obtain ⟨l, d₂, -, h⟩ := bind_ok h
      obtain ⟨right, d₃, -, h⟩ := bind_ok h
      refine ih h fun hnone => hleft ?_
      exact (List.append_eq_nil_iff.1 hnone).1

/-- Operators are over at the end of the text. -/
theorem ended_operations {layer : Layer} {i : Nat} {left : Expr} {E : ParseFault → Prop}
    (hnil : c.tokens = []) :
    Comes (operations y layer i left) c (fun e c' => e = left ∧ c' = c) E := by
  cases i with
  | zero => exact Comes.pure ⟨rfl, rfl⟩
  | succ i =>
    rw [operations]
    refine Comes.bind (P := fun op c' => op = none ∧ c' = c) (Comes.peek (Comes.pure ⟨?_, rfl⟩)) ?_
    · rw [Draft.words, hnil]
      rfl
    · rintro op c' ⟨rfl, rfl⟩
      exact Comes.pure ⟨rfl, rfl⟩

/-- Operators behind an operand that was cut off. -/
theorem operations_cutOff {layer : Layer} {i j : Nat} {a b : Expr} (hnil : c.tokens = [])
    (h : k.Grows a b) :
    k.Cuts k.Excuses k.Grows (operations x layer j a) (operations y layer i b) d c := by
  intro e d' hrun
  refine (ended_operations hnil).imp ?_ fun _ h => h
  rintro e' c' ⟨rfl, rfl⟩
  exact Or.inr ⟨hnil, h.imp_right fun hmentions => operations_mentions hrun hmentions⟩

theorem comes_operator? (layer : Layer) (c : Draft) :
    Comes (operator? layer) c
      (fun op c' => c' = c ∧ op = (c.words.head?.bind binaryOp?).filter (·.layer = layer))
      fun _ => True :=
  Comes.peek (Comes.pure ⟨rfl, rfl⟩)

/-- Which operator comes is decided by the next token. -/
theorem operator?_eq {layer : Layer} {d d' : Draft} {op : Option BinaryOp}
    (h : (operator? layer).run d = .ok op d') :
    d = d' ∧ op = (d.words.head?.bind binaryOp?).filter (·.layer = layer) := by
  obtain ⟨t, _, hp, h⟩ := bind_ok h
  obtain ⟨rfl, hpeek⟩ := peek_ok hp
  obtain ⟨rfl, rfl⟩ := pure_ok h
  rw [Draft.words, List.head?_map, hpeek]
  exact ⟨rfl, rfl⟩

/-- Operators in front of the cut: where one comes, only the whole text has it. -/
theorem operations_atCut {layer : Layer} {i j : Nat} {left : Expr} (hcut : k.Cut d c)
    (hnil : c.tokens = []) :
    k.Cuts k.Excuses k.Grows (operations x layer j left) (operations y layer i left) d c := by
  intro e d' hrun
  refine (ended_operations hnil).imp ?_ fun _ h => h
  rintro e' c' ⟨rfl, rfl⟩
  cases j with
  | zero =>
    obtain ⟨rfl, rfl⟩ := pure_ok hrun
    exact Or.inl ⟨rfl, hcut, Nat.le_refl _⟩
  | succ j =>
    rw [operations] at hrun
    obtain ⟨op, d₁, hnext, hrun⟩ := bind_ok hrun
    obtain ⟨rfl, hop⟩ := operator?_eq hnext
    cases op with
    | none =>
      obtain ⟨rfl, rfl⟩ := pure_ok hrun
      exact Or.inl ⟨rfl, hcut, Nat.le_refl _⟩
    | some op =>
      obtain ⟨t, hhead, hspelled⟩ :=
        Option.bind_eq_some_iff.1 (Option.filter_eq_some_iff.1 hop.symm).1
      rw [(hcut.head_of_nil hnil).1] at hhead
      obtain ⟨more, hlost⟩ := List.head?_eq_some_iff.1 hhead
      exact Or.inr ⟨hnil, Or.inl ⟨t, more, op, hlost, hspelled⟩⟩

/-- Behind an operator an operand may stand. -/
theorem Cut.leadsOperator {l : Lexeme} {op : BinaryOp} {layer : Layer} {c c' : Draft}
    (hcut : k.Cut d c) (hop : some op = (c.words.head?.bind binaryOp?).filter (·.layer = layer))
    (hc : c.Drops l c') : k.Leads c' := by
  rw [hc.words] at hop
  exact hcut.leads hc (leadsOperand_of_binaryOp? (Option.filter_eq_some_iff.1 hop.symm).1)

/-- Operators of one layer, with their right operands. -/
theorem operations_cuts {layer : Layer}
    (ho : ∀ d c, k.Cut d c → k.Leads c → c.tokens.length ≤ m →
      k.Cuts k.Excuses k.Grows x y d c) : ∀ {i j : Nat} {left : Expr} {d c : Draft}, i < j →
      k.Cut d c → c.tokens.length ≤ m → c.tokens.length ≤ i →
      k.Cuts k.Excuses k.Grows (operations x layer j left) (operations y layer i left) d c := by
  intro i
  induction i with
  | zero =>
    intro j left d c _ hcut _ hi
    exact operations_atCut hcut (List.length_eq_zero_iff.1 (Nat.le_zero.1 hi))
  | succ i ih =>
    intro j left d c hij hcut hm hi
    by_cases hnil : c.tokens = []
    · exact operations_atCut hcut hnil
    cases j with
    | zero => omega
    | succ j =>
      rw [operations, operations]
      -- Both texts show the same next token, so both see the same operator or none.
      have hop : k.Cuts k.Excuses Never (operator? layer) (operator? layer) d c := by
        refine Cuts.peek ?_
        rw [hcut.head hnil]
        exact Cuts.pure hcut
      refine hop.bindKnown (comes_operator? layer c) (fun op d₁ c₁ hcut₁ hle₁ hknown => ?_)
        fun _ _ _ _ _ h => h.elim
      obtain ⟨rfl, hspelled⟩ := hknown
      cases op with
      | none => exact Cuts.pure hcut₁
      | some op =>
        refine cuts_advance hcut₁ (Or.inl rfl) fun l d₂ c₂ _ hc₂ hcut₂ hlt₂ => ?_
        refine (ho d₂ c₂ hcut₂ (hcut₁.leadsOperator hspelled hc₂) (by omega)).bind
          (fun right d₃ c₃ hcut₃ hle₃ => ?_)
          fun right right' d₃ c₃ hnil₃ hgrows => operations_cutOff hnil₃ ?_
        · exact ih (Nat.lt_of_succ_lt_succ hij) hcut₃ (by omega) (by omega)
        · refine hgrows.imp_right fun hmentions hnone => hmentions ?_
          exact (List.append_eq_nil_iff.1 hnone).2

theorem layered_cuts {j : Nat} (hj : m < j)
    (ho : ∀ d c, k.Cut d c → k.Leads c → c.tokens.length ≤ m →
      k.Cuts k.Excuses k.Grows x y d c) : ∀ (layers : List Layer) (d c : Draft), k.Cut d c →
      k.Leads c → c.tokens.length ≤ m →
      k.Cuts k.Excuses k.Grows (layered x j layers) (layered y m layers) d c := by
  intro layers
  induction layers with
  | nil => exact ho
  | cons layer tighter ih =>
    intro d c hcut hleads hm
    rw [layered, layered]
    refine (ih d c hcut hleads hm).bind (fun left d₁ c₁ hcut₁ hle₁ => ?_)
      fun left left' d₁ c₁ hnil hgrows => operations_cutOff hnil hgrows
    exact operations_cuts ih hj hcut₁ (by omega) (by omega)

end

/-! ## The circle -/

/-- At the end of a text there is no operand. -/
theorem ended_operand {i : Nat} {c : Draft} {Q : Expr → Draft → Prop} (hnil : c.tokens = []) :
    Comes (operand i) c Q (· = .unexpectedEnd) := by
  cases i with
  | zero => exact Comes.endOfText rfl
  | succ i =>
    rw [operand]
    refine Comes.peek ?_
    rw [Draft.words, hnil]
    exact ended_advance hnil rfl

theorem ended_layered {i j : Nat} {c : Draft} (hnil : c.tokens = []) :
    ∀ (layers : List Layer) (Q : Expr → Draft → Prop),
      Comes (layered (operand i) j layers) c Q (· = .unexpectedEnd) := by
  intro layers
  induction layers with
  | nil => exact fun Q => ended_operand hnil
  | cons layer tighter ih => exact fun Q => Comes.bind (ih fun _ _ => False) fun _ _ h => h.elim

theorem operand_cuts : ∀ {i j : Nat} {d c : Draft}, i < j → k.Cut d c → k.Leads c →
    c.tokens.length ≤ i →
    k.Cuts k.Excuses k.Grows (operand j) (operand i) d c := by
  intro i
  induction i with
  | zero => exact fun _ _ _ _ _ _ _ => Comes.endOfText (Or.inl rfl)
  | succ i ih =>
    intro j d c hij hcut hleads hi
    by_cases hnil : c.tokens = []
    · exact fun _ _ _ => (ended_operand hnil).imp (fun _ _ h => h) fun _ => Or.inl
    cases j with
    | zero => omega
    | succ j =>
      have hij' : i < j := Nat.lt_of_succ_lt_succ hij
      have he : k.CutsExpression i (layered (operand j) j Layer.all)
          (layered (operand i) i Layer.all) :=
        ⟨layered_cuts hij' (fun d c hcut hleads hm => ih hij' hcut hleads hm) Layer.all,
          fun c Q hnil => ended_layered hnil Layer.all Q, expression_takes j, expression_takes i⟩
      -- the expressions inside of an operand are read with one step less
      have hprimary := primary_cuts he hij' hcut hleads hi
      rw [operand, operand]
      refine Cuts.peek ?_
      rw [hcut.head hnil]
      cases hnext : c.words.head? with
      | none => exact hprimary
      | some t =>
        rcases t with _ | _ | _ | _ | _ | _ | w | mk
        case word =>
          cases w with
          | not =>
            refine cuts_advance hcut (Or.inl rfl) fun sign d₁ c₁ _ hc hcut₁ hlt₁ => ?_
            have hleads₁ : k.Leads c₁ := hcut.leads hc (hc.head_eq hnext ▸ trivial)
            exact (ih hij' hcut₁ hleads₁ (by omega)).bind (fun _ _ _ hcut' _ => Cuts.pure hcut')
              fun _ _ _ _ hnil' hgrows => Cuts.pureEnd hnil' hgrows
          | _ => exact hprimary
        case mark =>
          cases mk with
          | minus =>
            refine cuts_advance hcut (Or.inl rfl) fun sign d₁ c₁ _ hc hcut₁ hlt₁ => Cuts.peek ?_
            have hleads₁ : k.Leads c₁ :=
              hcut.leads hc (hc.head_eq hnext ▸ leadsOperand_of_binaryOp? rfl)
            have hoperand : k.Cuts k.Excuses k.Grows
                (do return .unary sign.line .negate (← operand j))
                (do return .unary sign.line .negate (← operand i)) d₁ c₁ :=
              (ih hij' hcut₁ hleads₁ (by omega)).bind (fun _ _ _ hcut' _ => Cuts.pure hcut')
                fun _ _ _ _ hnil' hgrows => Cuts.pureEnd hnil' hgrows
            by_cases hnil₁ : c₁.tokens = []
            · rw [(hcut₁.head_of_nil hnil₁).2]
              -- the shorter text ends behind the sign, where the other one may go on with a literal
              have hends : Comes (operand i) c₁ (fun _ _ => False) k.Excuses :=
                (ended_operand hnil₁).imp (fun _ _ h => h) fun _ => Or.inl
              exact fun _ _ _ => Comes.bind hends fun _ _ h => h.elim
            · rw [hcut₁.head hnil₁]
              cases c₁.words.head? with
              | none => exact hoperand
              | some t =>
                cases t with
                | integer n =>
                  refine cuts_advance hcut₁ (Or.inl rfl) fun digits d₂ c₂ _ _ hcut₂ _ => ?_
                  exact integerLiteral_cuts hcut₂
                | _ => exact hoperand
          | _ => exact hprimary
        all_goals exact hprimary

/-- The readers of expressions, on a text and on a shorter one. -/
theorem expression_cuts {i j : Nat} (hij : i < j) :
    k.CutsExpression i (expression j) (expression i) :=
  ⟨layered_cuts hij (fun _ _ hcut hleads hm => operand_cuts hij hcut hleads hm) Layer.all,
    fun _ Q hnil => ended_layered hnil Layer.all Q, expression_takes j, expression_takes i⟩

end Cutting

end Primer.Grammar
