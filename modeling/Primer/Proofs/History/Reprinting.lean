import Primer.Proofs.History.Origins
import Primer.Proofs.Language.Folding
import Primer.Proofs.Language.Spelled

/-!
# Primer.Proofs.History.Reprinting — the text of an expression is the expression, where it was read.

An expression in the tree of a program was read from a draft of the reading, and from there its text
is read as the same expression, and so is the text of each of its parts.  Inside an expression
nothing but tokens is taken, so what its names mean is the same for all parts.

This is not so for an expression in which a real is whole: the text of that real is the text of an
integer.

`Expr.Fair` collects what an expression needs so that its text can be read: names with a meaning at
the draft, literals that are spelled as what they are, and arguments that suit their parameters.
Every part of a fair expression is fair (`fair_parts`), and reading the text of a fair expression is
the subject of `Language.Rereading`.
-/

namespace Primer

namespace Expr

mutual

/-- The expression and all expressions in it. -/
def parts : Expr → List Expr
  | literal line value => [literal line value]
  | ident line id => [ident line id]
  | element line id indices => element line id indices :: partsList indices
  | call line name arguments => call line name arguments :: partsArguments arguments
  | unary line op operand => unary line op operand :: parts operand
  | binary line op left right => binary line op left right :: (parts left ++ parts right)

/-- The parts of expressions in a row. -/
def partsList : List Expr → List Expr
  | [] => []
  | e :: rest => parts e ++ partsList rest

/-- The parts of arguments. -/
def partsArguments : List Argument → List Expr
  | [] => []
  | a :: rest => partsArgument a ++ partsArguments rest

/-- The parts of an argument, which are none if it is a name. -/
def partsArgument : Argument → List Expr
  | .value e => parts e
  | .reference .. => []

end

theorem mem_parts (e : Expr) : e ∈ e.parts := by
  cases e <;> exact List.mem_cons_self

/-- The expression uses what can be named, and can be written. -/
def Fair (v : Names) (e : Expr) : Prop := e.Sound v ∧ e.Spelled

variable {v : Names}

mutual

/-- The parts of a fair expression are fair. -/
theorem fair_parts : ∀ e : Expr, e.Sound v → e.Spelled → ∀ part ∈ e.parts, part.Fair v
  | literal .., hsound, hspelled | ident .., hsound, hspelled =>
    List.forall_mem_singleton.2 ⟨hsound, hspelled⟩
  | element _ _ indices, hsound, hspelled =>
    List.forall_mem_cons.2 ⟨⟨hsound, hspelled⟩, fair_partsList indices hsound.2.2 hspelled.2⟩
  | call _ _ arguments, hsound, hspelled => by
    obtain ⟨heading, -, hfit⟩ := id hsound
    exact List.forall_mem_cons.2 ⟨⟨hsound, hspelled⟩, fair_partsArguments arguments hfit hspelled.2⟩
  | unary _ _ operand, hsound, hspelled =>
    List.forall_mem_cons.2 ⟨⟨hsound, hspelled⟩, fair_parts operand hsound hspelled⟩
  | binary _ _ left right, hsound, hspelled =>
    List.forall_mem_cons.2 ⟨⟨hsound, hspelled⟩, List.forall_mem_append.2
      ⟨fair_parts left hsound.1 hspelled.1, fair_parts right hsound.2 hspelled.2⟩⟩

theorem fair_partsList : ∀ es : List Expr, SoundList v es → SpelledList es →
    ∀ part ∈ partsList es, part.Fair v
  | [], _, _ => fun _ h => by cases h
  | e :: rest, hsound, hspelled => List.forall_mem_append.2
    ⟨fair_parts e hsound.1 hspelled.1, fair_partsList rest hsound.2 hspelled.2⟩

theorem fair_partsArguments {parameters : List Parameter} : ∀ as : List Argument,
    Fit v parameters as → SpelledArguments as → ∀ part ∈ partsArguments as, part.Fair v
  | [], _, _ => fun _ h => by cases h
  | a :: rest, hfit, hspelled => by
    obtain ⟨parameter, more, -, ha, hrest⟩ := hfit
    exact List.forall_mem_append.2
      ⟨fair_partsArgument a ha hspelled.1, fair_partsArguments rest hrest hspelled.2⟩

theorem fair_partsArgument {mode : PassMode} : ∀ a : Argument,
    FitArgument v mode a → SpelledArgument a → ∀ part ∈ partsArgument a, part.Fair v
  | .value e, hsound, hspelled => fair_parts e hsound.2 hspelled
  | .reference .., _, _ => fun _ h => by cases h

end

end Expr

namespace Grammar

/-- From here, the text of the expression is read to its end as the expression, up to lines, and up
to a minus in front of an integer literal. -/
def Draft.Rereads (d : Draft) (e : Expr) : Prop :=
  ∃ tokens e' d', Token.scan e.text = .ok tokens ∧
    (expression tokens.length).run { d with tokens } = .ok e' d' ∧ d'.tokens = [] ∧
    e'.unlined = e.folded.unlined

/-- What can be named and written is read from its text, if no real in it is whole. -/
theorem Draft.rereads {d : Draft} {e : Expr} (he : e.Fair d.bareNames)
    (hreals : e.hasFractions = true) : d.Rereads e := by
  have hlexes := e.lexes_text he.2 hreals .nil .nil
  rw [List.append_nil, List.append_nil] at hlexes
  obtain ⟨tokens, hscan, htokens⟩ := hlexes.scan
  have hlength : (e.textTokens ++ []).length ≤ tokens.length := by
    rw [List.append_nil, ← htokens, List.length_map]
  have hends : EndsPhrase Layer.all [] := fun _ h => by cases h
  -- the names do not depend on the tokens
  have hnames : Draft.bareNames { d with tokens } = d.bareNames := Draft.bareNames_eq rfl
  have hwords : Draft.words { d with tokens } = e.textTokens ++ [] := by
    rw [List.append_nil, ← htokens]
    rfl
  have hcomes := (restoredText e).restored d.bareNames tokens.length [] he.1 hlength hends _ hnames
    hwords
  obtain ⟨e', d', hrun, -, hrest, heq⟩ := hcomes.answers
  exact ⟨tokens, e', d', hscan, hrun, List.map_eq_nil_iff.1 hrest, heq⟩

/-- An expression that was read from tokens of a text. -/
theorem Draft.ReadsAs.fair {d : Draft} {e : Expr} (h : d.ReadsAs e)
    (hplain : Token.AllPlain d.tokens) (hwritten : d.Written) : e.Fair d.bareNames := by
  obtain ⟨bound, d', hrun⟩ := h
  exact ⟨e.sound_mono (Draft.names_le_bareNames hplain) (expression_yields bound hrun).2,
    ((expression_finds bound d hwritten).run_ok hrun).2⟩

/-- Every expression in the tree of a program was read on the way.  Wherever it was read, its text
is read as the expression again, and so is the text of each of its parts, there and behind any
tokens of the expression, unless a real in the part is whole. -/
theorem rereads_of_contains {source : String} {tokens : List Lexeme} {p : Program}
    (hscan : Token.scan source = .ok tokens) (h : Program.ofTokens tokens = .ok p) {e : Expr}
    (he : p.tree.Contains e) :
    (∃ d, ComesBy tokens d ∧ d.ReadsAs e) ∧
    ∀ d, ComesBy tokens d → d.ReadsAs e → ∀ d', d.Skips d' →
      ∀ part ∈ e.parts, part.hasFractions = true → d'.Rereads part := by
  refine ⟨comesBy_of_contains h he, fun d hd hreads d' hskips part hpart hreals => ?_⟩
  have hsuffix := hd.suffix h
  have hplain : Token.AllPlain d.tokens := fun l hl => Token.scan_plain hscan l (hsuffix.mem hl)
  have hwritten : d.Written := fun l hl => Token.scan_written hscan l (hsuffix.mem hl)
  have hfair := hreads.fair hplain hwritten
  have hpartFair := e.fair_parts hfair.1 hfair.2 part hpart
  rw [← hskips.bareNames] at hpartFair
  exact Draft.rereads hpartFair hreals

/-- A text with reals that have fractions, one of them behind a minus. -/
def fractionText : String :=
  "module m; function public f(in real x, var integer n) : real return x * 0.5; end f;\n" ++
  "beginning variable integer i; output not (f(-(1.25), i) = 10 - -2.75); end m."

/-- An expression with a negative fraction, a call and operators of three layers. -/
theorem fractionText_rereads : ∃ tokens p e d, Token.scan fractionText = .ok tokens ∧
    Program.ofTokens tokens = .ok p ∧ p.tree.Contains e ∧
    e.text = "not (f(-1.25, i) = (10 - -2.75))" ∧ ComesBy tokens d ∧ d.ReadsAs e ∧
    d.Rereads e := by
  have htexts : (Program.ofSource fractionText).toOption.map (fun p =>
      ((p.tree.construct? 5).elim [] Construct.expressions).map fun e => (e.text, e.hasFractions))
      = some [("not (f(-1.25, i) = (10 - -2.75))", true)] := by decide +kernel
  cases hp : Program.ofSource fractionText with
  | error e =>
    rw [hp] at htexts
    cases htexts
  | ok p =>
    rw [hp] at htexts
    obtain ⟨tokens, hscan, hread⟩ := Program.ofTokens_of_ofSource hp
    cases hc : p.tree.construct? 5 with
    | none =>
      rw [Except.toOption, Option.map_some, hc] at htexts
      cases htexts
    | some c =>
      rw [Except.toOption, Option.map_some, hc] at htexts
      obtain ⟨e, hes, htext⟩ := List.map_eq_singleton_iff.1 (Option.some.inj htexts)
      obtain ⟨htext, hfractions⟩ := Prod.mk.inj htext
      have he : p.tree.Contains e := ⟨5, c, hc, by rw [show c.expressions = [e] from hes]; simp⟩
      obtain ⟨⟨d, hd, hreads⟩, hrereads⟩ := rereads_of_contains hscan hread he
      exact ⟨tokens, p, e, d, hscan, hread, he, htext, hd, hreads,
        hrereads d hd hreads d (.refl d) e e.mem_parts hfractions⟩

/-- The text of a whole real is that of an integer. -/
example : (Program.ofSource "module m; beginning output 1.0; end m.").toOption.map
    (·.renderTopLevel) = some ["beginning\n  output 1"] := by decide +kernel

end Grammar

end Primer
