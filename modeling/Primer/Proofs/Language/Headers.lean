import Primer.Proofs.Language.Spelled
import Primer.Proofs.Scope.Soundness
import Primer.Proofs.Token.Spelling
import Primer.Proofs.Tree.Spelling

/-!
# Primer.Proofs.Language.Headers — every construct is written on one line.

A header consists of keywords, marks, names and literals.  The names of a program are words of its
text, numbers are digits, and the literals of characters and texts escape line feeds.  An array has
no literal, which is why its text, with texts as they are, never gets into a header.

`OneLine` asks that no character is a line feed, so a text that is put together of such texts is
one, and the proofs go along the functions that write headers.  Names are the only part that is not
written by the program itself; they come from tokens, which are taken from the text between blanks.
For every mention in a construct there is such a token (`Program.isWord_of_mentions`).

Main statement: `Program.onLines_of_ofSource`.
-/

namespace Primer

/-! ## Texts on one line -/

/-- The text has no line feed. -/
def Text.OneLine (s : String) : Prop := '\n' ∉ s.toList

namespace Text

instance (s : String) : Decidable (OneLine s) := inferInstanceAs (Decidable (¬ '\n' ∈ s.toList))

@[simp]
theorem oneLine_append (s t : String) : OneLine (s ++ t) ↔ OneLine s ∧ OneLine t := by
  simp only [OneLine, String.toList_append, List.mem_append, not_or]

theorem OneLine.intercalate {s : String} (hs : OneLine s) {ts : List String}
    (hts : ∀ t ∈ ts, OneLine t) : OneLine (s.intercalate ts) := by
  induction ts with
  | nil =>
    rw [String.intercalate_nil]
    decide
  | cons t ts ih =>
    obtain ⟨ht, hts⟩ := List.forall_mem_cons.1 hts
    by_cases hne : ts = []
    · rwa [hne, String.intercalate_singleton]
    · rw [String.intercalate_cons_of_ne_nil hne, oneLine_append, oneLine_append]
      exact ⟨⟨ht, hs⟩, ih hts⟩

theorem oneLine_join {ts : List String} (hts : ∀ t ∈ ts, OneLine t) :
    OneLine (String.join ts) := by
  unfold OneLine
  simp only [String.toList_join, List.mem_flatMap, not_exists, not_and]
  exact hts

/-- No character of a number is a line feed. -/
theorem oneLine_of_digits {s : String} (h : ∀ c ∈ s.toList, c.isDigit = true ∨ c = '-' ∨ c = '.') :
    OneLine s := by
  intro hmem
  have hfeed := h _ hmem
  revert hfeed
  decide

end Text

open Text (OneLine oneLine_append)

/-! ## Words and literals -/

theorem Token.IsWord.oneLine {name : String} (h : Token.IsWord name) : OneLine name := by
  obtain ⟨c, cs, hcons, hc, hcs⟩ := h.exists_cons
  intro hmem
  rw [hcons] at hmem
  rcases List.mem_cons.1 hmem with rfl | hmem
  · cases hc
  · cases hcs _ hmem

theorem Nat.oneLine_toString (n : Nat) : OneLine (toString n) := by
  refine Text.oneLine_of_digits fun c hc => Or.inl ?_
  rw [Nat.toString_eq_repr, Nat.toList_repr] at hc
  exact Real.isDigit_of_mem_toDigits hc

theorem Integer.oneLine_text (n : Integer) : OneLine n.text := by
  have hdigits : ∀ c ∈ Nat.toDigits 10 n.val.natAbs, c.isDigit = true :=
    fun c hc => Real.isDigit_of_mem_toDigits hc
  refine Text.oneLine_of_digits fun c hc => ?_
  rw [n.toList_text] at hc
  grind

/-- The digits of a decimal with the point among them. -/
theorem Real.isDigit_of_mem_positional {d : Decimal} {c : Char} (h : c ∈ d.positional) :
    c.isDigit = true ∨ c = '.' := by
  obtain ⟨units, fraction, hwritten⟩ := exists_written d
  rw [hwritten.text_eq, List.mem_append] at h
  rcases h with h | h
  · exact Or.inl (hwritten.units_digits c h)
  · cases fraction with
    | nil => cases h
    | cons e more =>
      rcases List.mem_cons.1 h with rfl | h
      · exact Or.inr rfl
      · exact Or.inl (hwritten.fraction_digits c h)

theorem Real.oneLine_text (x : Float) : OneLine (Real.text x) := by
  unfold Real.text
  split
  · rename_i b _
    have hmagnitude : ∀ c ∈ b.shortest.positional, c.isDigit = true ∨ c = '.' :=
      fun c hc => isDigit_of_mem_positional hc
    refine Text.oneLine_of_digits fun c hc => ?_
    rw [String.toList_ofList] at hc
    grind
  · repeat' split
    all_goals decide

/-- A literal has no line feed, whatever text it is the literal of. -/
theorem Expr.oneLine_literalText {value : Value} (h : value.IsLiteral) :
    OneLine (literalText value) := by
  cases value with
  | integer n => exact n.oneLine_text
  | real x => exact Real.oneLine_text x
  | boolean b => cases b <;> decide
  | char c =>
    rw [literalText, OneLine, String.toList_ofList]
    exact Token.lineFeed_not_mem_literal (by decide) _
  | string s =>
    rw [literalText, OneLine, String.toList_ofList]
    exact Token.lineFeed_not_mem_literal (by decide) _
  | array => exact h.elim

/-! ## Expressions -/

namespace Expr

variable {v : Names}

mutual

/-- An expression whose names are on one line is on one line. -/
theorem oneLine_text : ∀ e : Expr, e.Sound v → (∀ m ∈ e.mentions, OneLine m.name) → OneLine e.text
  | literal _ _, hsound, _ => oneLine_literalText hsound
  | ident _ id, _, hnames => hnames (.use id) (List.mem_singleton_self _)
  | element _ id indices, hsound, hnames => by
    obtain ⟨hid, hindices⟩ := List.forall_mem_cons.1 hnames
    rw [text, oneLine_append]
    exact ⟨hid, oneLine_indexTexts indices hsound.2.2 hindices⟩
  | call _ name arguments, hsound, hnames => by
    obtain ⟨heading, -, hfit⟩ := id hsound
    obtain ⟨hname, harguments⟩ := List.forall_mem_cons.1 hnames
    have htexts : OneLine (", ".intercalate (argumentTexts arguments)) :=
      .intercalate (by decide) (oneLine_argumentTexts arguments hfit harguments)
    simp +decide only [text, oneLine_append, htexts, show OneLine name from hname, and_self]
  | unary _ op operand, hsound, hnames => by
    have hlead : OneLine op.lead := by cases op <;> decide
    rw [text, oneLine_append]
    exact ⟨hlead, oneLine_text operand hsound hnames⟩
  | binary _ op left right, hsound, hnames => by
    obtain ⟨hleft, hright⟩ := List.forall_mem_append.1 hnames
    have hsymbol : OneLine op.symbol := by cases op <;> decide
    have hfirst := oneLine_text left hsound.1 hleft
    have hsecond := oneLine_text right hsound.2 hright
    simp +decide only [text, oneLine_append, hsymbol, hfirst, hsecond, and_self]

theorem oneLine_indexTexts : ∀ es : List Expr, SoundList v es →
    (∀ m ∈ mentionsList es, OneLine m.name) → OneLine (indexTexts es)
  | [], _, _ => by decide
  | e :: rest, hsound, hnames => by
    obtain ⟨he, hrest⟩ := List.forall_mem_append.1 hnames
    have hfirst := oneLine_text e hsound.1 he
    have hmore := oneLine_indexTexts rest hsound.2 hrest
    simp +decide only [indexTexts, oneLine_append, hfirst, hmore, and_self]

theorem oneLine_argumentTexts {parameters : List Parameter} : ∀ as : List Argument,
    Fit v parameters as → (∀ m ∈ mentionsArguments as, OneLine m.name) →
      ∀ s ∈ argumentTexts as, OneLine s
  | [], _, _ => List.forall_mem_nil _
  | a :: rest, hfit, hnames => by
    obtain ⟨parameter, more, -, ha, hmore⟩ := hfit
    obtain ⟨hfirst, hrest⟩ := List.forall_mem_append.1 hnames
    exact List.forall_mem_cons.2
      ⟨oneLine_argumentText a ha hfirst, oneLine_argumentTexts rest hmore hrest⟩

theorem oneLine_argumentText {mode : PassMode} : ∀ a : Argument, FitArgument v mode a →
    (∀ m ∈ mentionsArgument a, OneLine m.name) → OneLine (argumentText a)
  | .value e, hfit, hnames => oneLine_text e hfit.2 hnames
  | .reference _ id, _, hnames => hnames (.use id) (List.mem_singleton_self _)

end

end Expr

/-! ## Constructs -/

theorem Scalar.oneLine_text (type : Scalar) : OneLine type.text := by
  cases type <;> decide

theorem SlotType.oneLine_text (type : SlotType) : OneLine type.text := by
  cases type with
  | scalar type => exact type.oneLine_text
  | array element dimensions =>
    have hsizes :
        OneLine (String.join (dimensions.map fun size => "[" ++ toString size ++ "]")) := by
      refine Text.oneLine_join fun s hs => ?_
      obtain ⟨size, -, rfl⟩ := List.mem_map.1 hs
      simp +decide only [oneLine_append, Nat.oneLine_toString, and_self]
    simp +decide only [text, oneLine_append, hsizes, element.oneLine_text, and_self]

theorem Parameter.oneLine_text {p : Parameter} (h : OneLine p.name) : OneLine p.text := by
  have hmode : OneLine p.mode.text := by cases p.mode <;> decide
  simp +decide only [text, oneLine_append, hmode, p.type.oneLine_text, h, and_self]

theorem Heading.oneLine_text {heading : Heading} (hname : OneLine heading.name)
    (hparameters : ∀ p ∈ heading.parameters, OneLine p.name) : OneLine heading.text := by
  have htexts : OneLine (", ".intercalate (heading.parameters.map Parameter.text)) :=
    .intercalate (by decide)
      (List.forall_mem_map.2 fun p hp => Parameter.oneLine_text (hparameters p hp))
  have hvisibility : OneLine heading.visibility.text := by cases heading.visibility <;> decide
  have hresult (type : Scalar) : OneLine type.text := type.oneLine_text
  cases h : heading.result <;>
    simp +decide [text, h, htexts, hvisibility, hname, hresult]

namespace Construct

variable {v : Names} {c : Construct}

theorem oneLine_targetText {target : String} {indices : List Expr}
    (hsound : Expr.SoundList v indices)
    (hnames : ∀ m ∈ .use target :: Expr.mentionsList indices, OneLine m.name) :
    OneLine (targetText target indices) := by
  obtain ⟨htarget, hindices⟩ := List.forall_mem_cons.1 hnames
  rw [targetText, oneLine_append]
  exact ⟨htarget, Expr.oneLine_indexTexts indices hsound hindices⟩

/-- The header of a construct has no line feed if no name in it has one. -/
theorem oneLine_header (hsound : c.Sound v) (hnames : ∀ m ∈ c.mentions, OneLine m.name) :
    OneLine c.header := by
  cases c with
  | unit name =>
    have hname : OneLine name := hnames (.plain name) (List.mem_singleton_self _)
    simp +decide only [header, oneLine_append, hname, and_self]
  | entry | otherwise =>
    rw [header]
    decide
  | routine heading =>
    -- All that is not fixed text are the names, and these are of one line.
    obtain ⟨hname, hparameters⟩ := List.forall_mem_cons.1 hnames
    refine heading.oneLine_text hname fun parameter hparameter => ?_
    exact hparameters (.plain parameter.name) (List.mem_map_of_mem hparameter)
  | declaration d =>
    obtain ⟨hname, hinitial⟩ := List.forall_mem_cons.1 hnames
    have htype := d.type.oneLine_text
    have hstart : OneLine ("variable " ++ d.type.text ++ " " ++ d.name) := by
      simp +decide only [oneLine_append, htype, show OneLine d.name from hname, and_self]
    obtain ⟨type, name, id, initializer⟩ := d
    cases initializer with
    | computed e =>
      have hvalue := e.oneLine_text hsound.2.2 hinitial
      rw [header, oneLine_append, oneLine_append]
      exact ⟨⟨hstart, by decide⟩, hvalue⟩
    | fixed => exact hstart
  | assignment target indices value =>
    rw [mentions, ← List.cons_append, List.forall_mem_append] at hnames
    obtain ⟨htarget, hvalue⟩ := hnames
    have hfirst := oneLine_targetText hsound.2.1 htarget
    have hsecond := value.oneLine_text hsound.2.2 hvalue
    simp +decide only [header, oneLine_append, hfirst, hsecond, and_self]
  | loop _ condition | conditional _ condition | elseIf _ condition =>
    have htext := condition.oneLine_text hsound hnames
    simp +decide only [header, oneLine_append, htext, and_self]
  | call name arguments =>
    obtain ⟨heading, -, hfit⟩ := hsound
    obtain ⟨hname, harguments⟩ := List.forall_mem_cons.1 hnames
    have htexts : OneLine (", ".intercalate (Expr.argumentTexts arguments)) :=
      .intercalate (by decide) (Expr.oneLine_argumentTexts arguments hfit harguments)
    simp +decide only [header, oneLine_append, htexts, show OneLine name from hname, and_self]
  | input target indices =>
    have htext := oneLine_targetText hsound.2 hnames
    simp +decide only [header, oneLine_append, htext, and_self]
  | output value =>
    have htext := value.oneLine_text hsound hnames
    simp +decide only [header, oneLine_append, htext, and_self]
  | result value =>
    cases value with
    | none => decide
    | some value =>
      have htext := value.oneLine_text hsound.2 hnames
      simp +decide only [header, oneLine_append, htext, and_self]

theorem oneLine_closing (hnames : ∀ m ∈ c.mentions, OneLine m.name) {s : String}
    (hs : c.closing? = some s) : OneLine s := by
  cases c with
  | unit name =>
    cases hs
    have hname : OneLine name := hnames (.plain name) (List.mem_singleton_self _)
    simp +decide only [oneLine_append, hname, and_self]
  | routine heading =>
    cases hs
    have hname : OneLine heading.name := hnames (.plain heading.name) List.mem_cons_self
    simp +decide only [oneLine_append, hname, and_self]
  | loop | conditional =>
    cases hs
    decide
  | _ => cases hs

/-- The lines that a construct is written on have no line feeds in them. -/
structure OnLines (c : Construct) : Prop where
  header : OneLine c.header
  closing : ∀ s, c.closing? = some s → OneLine s

end Construct

/-! ## Programs -/

/-- A name of a text is one of its tokens. -/
theorem Token.exists_of_mem_namesBehind {name : String} {tokens : List Lexeme} {closing : Bool}
    (h : name ∈ namesBehind closing tokens) : ∃ l ∈ tokens, l.token = .identifier name := by
  induction tokens generalizing closing with
  | nil => cases h
  | cons l rest ih =>
    rw [namesBehind, List.mem_append] at h
    rcases h with h | h
    · refine ⟨l, List.mem_cons_self, ?_⟩
      cases closing with
      | true => cases h
      | false =>
        cases ht : l.token with
        | identifier other =>
          simp [ht, name?] at h
          rw [h]
        | _ => simp [ht, name?] at h
    · obtain ⟨l', hl', hname⟩ := ih h
      exact ⟨l', List.mem_cons_of_mem _ hl', hname⟩

namespace Program

/-- Every name in the tree of a program is a word. -/
theorem isWord_of_mentions {source : String} {p : Program} (h : ofSource source = .ok p)
    {n : Node} (hn : n ∈ p.tree.nodes.toList) :
    ∀ m ∈ n.construct.mentions, Token.IsWord m.name := by
  intro m hm
  obtain ⟨tokens, hscan, hread⟩ := ofTokens_of_ofSource h
  have hname : m.name ∈ Token.names tokens := by
    rw [names_eq hread (Token.scan_plain hscan), Tree.spelling]
    exact List.mem_flatMap.2 ⟨n, hn, List.mem_map.2 ⟨m, hm, rfl⟩⟩
  obtain ⟨l, hl, htoken⟩ := Token.exists_of_mem_namesBehind hname
  have hwritten := Token.scan_written hscan l hl
  rw [htoken] at hwritten
  exact hwritten

/-- No construct of a program is written with a line feed in one of its lines. -/
theorem onLines_of_ofSource {source : String} {p : Program} (h : ofSource source = .ok p)
    {id : NodeId} {c : Construct} (hc : p.tree.construct? id = some c) : c.OnLines := by
  obtain ⟨o, hmeans⟩ := ofSource_means h
  have hsound : o.forest.All fun c => ∃ v, c.Sound v :=
    ⟨⟨o.start.names, trivial⟩, hmeans.items.all fun Γ _ hc => ⟨Γ.names, hc⟩,
      ⟨⟨o.start.names, trivial⟩, hmeans.body.all fun Γ _ hc => ⟨Γ.names, hc⟩, trivial, trivial⟩,
      trivial⟩
  obtain ⟨n, hn, rfl⟩ := Option.map_eq_some_iff.1 hc
  have hmem : n ∈ p.tree.nodes.toList := by
    rw [Tree.node?, ← Array.getElem?_toList] at hn
    exact List.mem_of_getElem? hn
  obtain ⟨v, hv⟩ := (Forest.all_iff_nodes none (.chain none none) 0 o.forest).1 hsound n
    (hmeans.nodes ▸ hmem)
  have hnames : ∀ m ∈ n.construct.mentions, OneLine m.name :=
    fun m hm => (isWord_of_mentions h hmem m hm).oneLine
  exact ⟨Construct.oneLine_header hv hnames, fun s hs => Construct.oneLine_closing hnames hs⟩

end Program

end Primer
