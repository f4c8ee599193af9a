import Primer.Proofs.Grammar.Names

/-!
# Primer.Proofs.Grammar.Expressions — what the readers of expressions answer.

Reading an expression takes tokens and changes nothing else.  What it answers mentions the names
that were among these tokens, in their order, and is sound for the names of the draft it started
from.  Every reader that works this way is described by `Yields`; the
readers that take the reader of an operand as an argument get one lemma each, and `operand_yields`
closes the circle by induction on the bound.  Main statement: `expression_yields`.

An expression is read by layers of operators around operands, and an operand may hold expressions
again, so the readers call each other with a smaller bound.  The bound is only there to make the
recursion end; no lemma here says how large it has to be.  What an argument may be depends on the
parameter it is for, so arguments are read together with the heading of the routine.
-/

namespace Primer.Grammar

variable {α : Type}

/-! ## The names of a draft -/

/-- What can be named where a draft stands: the ids that the names still to be read stand for. -/
def Draft.names (d : Draft) : Names where
  reads id := ∃ name, d.Writes name ∧ d.resolve? name = some id
  writes id := (∃ name, d.Writes name ∧ d.resolve? name = some id) ∧ d.isReadOnly id = false
  callable := d.callable?
  heading := d.enclosing?

/-- Reading tokens changes the meaning of no name. -/
theorem Draft.Skips.resolve? {d d' : Draft} (h : d.Skips d') : d'.resolve? = d.resolve? := by
  rw [h.rest]
  rfl

theorem Draft.Skips.isReadOnly {d d' : Draft} (h : d.Skips d') : d'.isReadOnly = d.isReadOnly := by
  rw [h.rest]
  rfl

/-- What may be named, may be named behind some tokens. -/
theorem Draft.Skips.names_le {d d' : Draft} (h : d.Skips d') : d'.names.Le d.names := by
  have hreads : ∀ id, d'.names.reads id → d.names.reads id := by
    rintro id ⟨name, hw, hr⟩
    exact ⟨name, h.writes hw, h.resolve? ▸ hr⟩
  refine ⟨hreads, fun id hw => ⟨hreads id hw.1, h.isReadOnly ▸ hw.2⟩, fun name heading hc => ?_, ?_⟩
  · rw [h.rest] at hc
    exact hc
  · rw [h.rest]
    rfl

/-! ## Readers that only take tokens -/

/-- The reader only takes tokens; the names among them are those in its answer, and the answer has
a property that is about the draft at the start. -/
def Yields (x : Parse α) (spelling : α → List String) (P : Draft → α → Prop) : Prop :=
  ∀ ⦃d d' : Draft⦄ ⦃a : α⦄, x.run d = .ok a d' → d.Spells (spelling a) d' ∧ P d a

/-- The reader answers expressions that are sound for the names at its start. -/
abbrev YieldsSound (x : Parse Expr) : Prop := Yields x Expr.spelling fun d e => e.Sound d.names

theorem endOfText_yields {spelling : α → List String} {P : Draft → α → Prop} :
    Yields (endOfText : Parse α) spelling P :=
  fun _ _ _ h => (endOfText_ok h).elim

/-! ## Names -/

/-- A name that is read has a meaning. -/
theorem resolve_ok {name : String} {line : Nat} {d d' : Draft} {id : String}
    (h : (resolve name line).run d = .ok id d') : d = d' ∧ d.resolve? name = some id := by
  obtain ⟨_, _, hg, h⟩ := bind_ok h
  obtain ⟨rfl, rfl⟩ := get_ok hg
  split at h
  · rename_i hr
    obtain ⟨rfl, rfl⟩ := pure_ok h
    exact ⟨rfl, hr⟩
  · exact (refuse_ok h).elim

/-- A name that is to be written means something that is not read-only. -/
theorem resolveWritable_ok {name : String} {line : Nat} {d d' : Draft} {id : String}
    (h : (resolveWritable name line).run d = .ok id d') :
    d = d' ∧ d.resolve? name = some id ∧ d.isReadOnly id = false := by
  obtain ⟨id', d₁, hr, h⟩ := bind_ok h
  obtain ⟨rfl, hid⟩ := resolve_ok hr
  obtain ⟨_, _, hg, h⟩ := bind_ok h
  obtain ⟨rfl, rfl⟩ := get_ok hg
  split at h
  · exact (refuse_ok h).elim
  · rename_i hro
    obtain ⟨rfl, rfl⟩ := pure_ok h
    exact ⟨rfl, hid, by simpa using hro⟩

/-- A name stands for a parameter, under itself, or for a variable in some scope. -/
theorem Draft.bare_of_resolve? {d : Draft} {name id : String} (hname : Name.IsSegment name)
    (h : d.resolve? name = some id) : Name.bare id = name := by
  have hscope : ∀ scope, Name.bare (Name.qualify scope name) = name :=
    fun scope => Name.bare_qualify scope name hname
  unfold Draft.resolve? at h
  split at h
  · cases h
    exact Name.bare_of_isSegment hname
  · split at h
    · rename_i hfind
      cases h
      obtain ⟨block, -, rfl⟩ := List.mem_map.1 (List.mem_of_find?_eq_some hfind)
      exact hscope block.scope
    · obtain ⟨block, -, rfl⟩ := Option.map_eq_some_iff.1 h
      exact hscope block.scope

/-- The use of a variable is spelled like the name that was resolved. -/
theorem Draft.Spells.resolved {d d₁ d' : Draft} {name id : String} {ns : List String}
    (h : d₁.Spells (name :: ns) d') (hw : d₁.Writes name) (hid : d.resolve? name = some id) :
    d₁.Spells (Name.bare id :: ns) d' := by
  refine ⟨h.toSkips, h.spelled.suffix, fun hplain => ?_⟩
  obtain ⟨l, hl, hname⟩ := hw
  rw [Draft.bare_of_resolve? (hplain l hl name hname).segment hid]
  exact h.spelled.names_eq hplain

theorem callable_ok {name : String} {line : Nat} {d d' : Draft} {heading : Heading}
    (h : (callable name line).run d = .ok heading d') :
    d = d' ∧ d.names.callable name = some heading := by
  obtain ⟨_, _, hg, h⟩ := bind_ok h
  obtain ⟨rfl, rfl⟩ := get_ok hg
  split at h
  · rename_i hc
    obtain ⟨rfl, rfl⟩ := pure_ok h
    exact ⟨rfl, hc⟩
  · exact (refuse_ok h).elim

/-! ## Lists -/

/-- Every item that a list reader answers is one that the reader of its position can answer. -/
theorem items_yields {item : Nat → Parse α} {closing : Mark} {spelling : α → List String}
    {P : Nat → Draft → α → Prop}
    (hmono : ∀ i {d d' : Draft} {a : α}, d.Skips d' → P i d' a → P i d a)
    (hitem : ∀ i, Yields (item i) spelling (P i)) :
    ∀ bound position, Yields (items item closing bound position) (·.flatMap spelling)
      (fun d as => ∀ i (hi : i < as.length), P (position + i) d as[i]) := by
  intro bound
  induction bound with
  | zero => exact fun position => endOfText_yields
  | succ bound ih =>
    intro position d d' as h
    rw [items] at h
    obtain ⟨first, d₁, hf, h⟩ := bind_ok h
    obtain ⟨hs₁, hp⟩ := hitem position hf
    obtain ⟨l, d₂, ha, h⟩ := bind_ok h
    have hdrops := advance_ok ha
    split at h
    · rename_i hl
      obtain ⟨rfl, rfl⟩ := pure_ok h
      refine ⟨?_, fun i hi => ?_⟩
      · show d.Spells ([first].flatMap spelling) d₂
        rw [List.flatMap_singleton]
        exact hs₁.skips (hdrops.silent (by rw [hl]; rfl)).toSpells
      · obtain rfl : i = 0 := by simpa using hi
        exact hp
    · split at h
      · rename_i hl
        have hs₂ := hs₁.skips (hdrops.silent (by rw [hl]; rfl)).toSpells
        obtain ⟨more, d₃, hm, h⟩ := bind_ok h
        obtain ⟨rfl, rfl⟩ := pure_ok h
        obtain ⟨hs₃, hrest⟩ := ih (position + 1) hm
        refine ⟨hs₂.trans hs₃, fun i hi => ?_⟩
        cases i with
        | zero => exact hp
        | succ i =>
          have hat := hrest i (by simpa using hi)
          -- The later items count their positions from the next one on.
          rw [Nat.add_right_comm] at hat
          exact hmono _ hs₂.toSkips hat
      · exact (refuse_ok h).elim

theorem commaSeparated_yields {item : Nat → Parse α} {closing : Mark} {spelling : α → List String}
    {P : Nat → Draft → α → Prop}
    (hmono : ∀ i {d d' : Draft} {a : α}, d.Skips d' → P i d' a → P i d a)
    (hitem : ∀ i, Yields (item i) spelling (P i)) (bound : Nat) :
    Yields (commaSeparated item closing bound) (·.flatMap spelling)
      (fun d as => ∀ i (hi : i < as.length), P i d as[i]) := by
  intro d d' as h
  obtain ⟨b, d₁, he, h⟩ := bind_ok h
  have hs := eat_ok he rfl
  split at h
  · obtain ⟨rfl, rfl⟩ := pure_ok h
    exact ⟨hs, fun i hi => absurd hi (by simp)⟩
  · obtain ⟨hs', hall⟩ := items_yields hmono hitem bound 0 h
    refine ⟨hs.trans hs', fun i hi => ?_⟩
    have hat := hall i hi
    rw [Nat.zero_add] at hat
    exact hmono i hs.toSkips hat

/-! ## Arguments -/

/-- The names in an argument, as they are written. -/
def argumentSpelling (a : Argument) : List String := (Expr.mentionsArgument a).map Mention.name

theorem flatMap_argumentSpelling (as : List Argument) :
    as.flatMap argumentSpelling = (Expr.mentionsArguments as).map Mention.name := by
  induction as with
  | nil => rfl
  | cons a rest ih =>
    rw [List.flatMap_cons, ih, Expr.mentionsArguments, List.map_append]
    rfl

/-- The argument at a position fits the parameter there, if there is one. -/
def FitsAt (parameters : List Parameter) (position : Nat) (v : Names) (a : Argument) : Prop :=
  ∀ parameter, parameters[position]? = some parameter → Expr.FitArgument v parameter.mode a

theorem referenceArgument_yields (routine parameter : String) :
    Yields (referenceArgument routine parameter) argumentSpelling
      (fun d a => Expr.FitArgument d.names .byReference a) := by
  intro d d' a h
  obtain ⟨line, d₁, hp, h⟩ := bind_ok h
  obtain ⟨rfl, _⟩ := peekLine_ok hp
  obtain ⟨_, _, hg, h⟩ := bind_ok h
  obtain ⟨rfl, rfl⟩ := get_ok hg
  split at h
  · rename_i name _ follow _ _ htokens
    split at h
    · obtain ⟨l, d₁, ha, h⟩ := bind_ok h
      have hdrops := advance_ok ha
      have htakes := hdrops.identifier (hdrops.token_eq (by rw [htokens]; rfl))
      -- The name is no longer among the tokens to come, so it is resolved against the start.
      have hw : d.Writes name := ⟨_, by rw [htokens]; exact List.mem_cons_self, rfl⟩
      obtain ⟨id, d₂, hr, h⟩ := bind_ok h
      obtain ⟨rfl, hid⟩ := resolve_ok hr
      obtain ⟨_, _, hg, h⟩ := bind_ok h
      obtain ⟨rfl, rfl⟩ := get_ok hg
      split at h
      · exact (refuse_ok h).elim
      · rename_i hro
        obtain ⟨rfl, rfl⟩ := pure_ok h
        rw [htakes.toSkips.resolve?] at hid
        rw [htakes.toSkips.isReadOnly] at hro
        exact ⟨htakes.toSpells.resolved hw hid, rfl, ⟨name, hw, hid⟩, by simpa using hro⟩
    · exact (refuse_ok h).elim
  · exact (refuse_ok h).elim

theorem argument_yields {expression : Parse Expr} (he : YieldsSound expression)
    (heading : Heading) (position : Nat) :
    Yields (argument expression heading position) argumentSpelling
      (fun d a => FitsAt heading.parameters position d.names a) := by
  intro d d' a h
  unfold argument at h
  split at h
  · rename_i type name hp
    obtain ⟨hs, hf⟩ := referenceArgument_yields heading.name name h
    refine ⟨hs, fun parameter hparameter => ?_⟩
    rw [hp] at hparameter
    cases hparameter
    exact hf
  · rename_i hp
    obtain ⟨e, d₁, hx, h⟩ := bind_ok h
    obtain ⟨rfl, rfl⟩ := pure_ok h
    obtain ⟨hs, hsound⟩ := he hx
    refine ⟨hs, fun parameter hparameter => ⟨?_, hsound⟩⟩
    obtain ⟨mode, type, name⟩ := parameter
    cases mode with
    | byValue => rfl
    | byReference => exact absurd hparameter (hp type name)

theorem fit_of_fitsAt {v : Names} {parameters : List Parameter} {as : List Argument}
    (hlength : as.length = parameters.length)
    (hfits : ∀ i (hi : i < as.length), FitsAt parameters i v as[i]) :
    Expr.Fit v parameters as := by
  induction as generalizing parameters with
  | nil => exact List.length_eq_zero_iff.1 hlength.symm
  | cons a as ih =>
    cases parameters with
    | nil => simp at hlength
    | cons parameter more =>
      refine ⟨parameter, more, rfl, ?_, ih (by simpa using hlength) fun i hi => ?_⟩
      · exact hfits 0 (by simp) parameter rfl
      · exact fun p hp => hfits (i + 1) (by simpa using hi) p (by simpa using hp)

theorem arguments_yields {expression : Parse Expr} (he : YieldsSound expression)
    (bound : Nat) (name : String) (line : Nat) :
    Yields (arguments expression bound name line)
      (fun as => (Expr.mentionsArguments as).map Mention.name) (fun d as =>
      ∃ heading, d.names.callable name = some heading ∧
        Expr.Fit d.names heading.parameters as) := by
  intro d d' as h
  obtain ⟨heading, d₁, hc, h⟩ := bind_ok h
  obtain ⟨rfl, hcallable⟩ := callable_ok hc
  obtain ⟨_, d₂, hx, h⟩ := bind_ok h
  have hs₂ := (expect_ok hx rfl).toSpells
  obtain ⟨found, d₃, hf, h⟩ := bind_ok h
  have hmono : ∀ i {d d' : Draft} {a : Argument}, d.Skips d' →
      FitsAt heading.parameters i d'.names a → FitsAt heading.parameters i d.names a :=
    fun i d d' a hs hat p hp => Expr.fitArgument_mono hs.names_le p.mode a (hat p hp)
  obtain ⟨hs₃, hall⟩ :=
    commaSeparated_yields hmono (argument_yields he heading) bound hf
  dsimp only at h
  split at h
  · rename_i hlength
    obtain ⟨rfl, rfl⟩ := pure_ok h
    have hnames := flatMap_argumentSpelling found
    refine ⟨hs₂.trans (hnames ▸ hs₃), heading, hcallable, fit_of_fitsAt hlength fun i hi => ?_⟩
    exact hmono i hs₂.toSkips (hall i hi)
  · exact (refuse_ok h).elim

/-! ## Operands -/

theorem indices_yields {expression : Parse Expr} (he : YieldsSound expression) :
    ∀ bound, Yields (indices expression bound)
      (fun es => (Expr.mentionsList es).map Mention.name)
      (fun d es => Expr.SoundList d.names es) := by
  intro bound
  induction bound with
  | zero =>
    intro d d' es h
    obtain ⟨rfl, rfl⟩ := pure_ok h
    exact ⟨.refl d, trivial⟩
  | succ bound ih =>
    intro d d' es h
    rw [indices] at h
    obtain ⟨b, d₁, hb, h⟩ := bind_ok h
    have hs₁ := eat_ok hb rfl
    split at h
    · obtain ⟨e, d₂, hx, h⟩ := bind_ok h
      obtain ⟨hs₂, hsound⟩ := he hx
      obtain ⟨_, d₃, hc, h⟩ := bind_ok h
      have hs₃ := (expect_ok hc rfl).toSpells
      obtain ⟨more, d₄, hm, h⟩ := bind_ok h
      obtain ⟨rfl, rfl⟩ := pure_ok h
      obtain ⟨hs₄, hmore⟩ := ih hm
      have hs₁₃ : d.Spells e.spelling d₃ := (hs₁.trans hs₂).skips hs₃
      refine ⟨?_, e.sound_mono hs₁.names_le hsound, Expr.soundList_mono hs₁₃.names_le more hmore⟩
      show d.Spells ((e.mentions ++ Expr.mentionsList more).map Mention.name) d₄
      rw [List.map_append]
      exact hs₁₃.trans hs₄
    · obtain ⟨rfl, rfl⟩ := pure_ok h
      exact ⟨hs₁, trivial⟩

/-- What stands behind a name that was just taken: the name is one that `d` still had to read. -/
theorem named_ok {expression : Parse Expr} (he : YieldsSound expression)
    {bound : Nat} {name : String} {line : Nat} {d d₁ d' : Draft} {e : Expr}
    (hs : d.Spells [name] d₁) (hw : d.Writes name)
    (h : (named expression bound name line).run d₁ = .ok e d') :
    d.Spells e.spelling d' ∧ e.Sound d.names := by
  obtain ⟨_, _, hp, h⟩ := bind_ok h
  obtain ⟨rfl, _⟩ := peek_ok hp
  split at h
  · obtain ⟨as, d₂, ha, h⟩ := bind_ok h
    obtain ⟨rfl, rfl⟩ := pure_ok h
    obtain ⟨hs₂, heading, hc, hf⟩ := arguments_yields he bound name line ha
    exact ⟨hs.trans hs₂, Expr.sound_mono hs.names_le (.call line name as) ⟨heading, hc, hf⟩⟩
  · obtain ⟨id, d₂, hr, h⟩ := bind_ok h
    obtain ⟨rfl, hid⟩ := resolve_ok hr
    have hreads : d.names.reads id := by
      rw [hs.resolve?] at hid
      exact ⟨name, hw, hid⟩
    obtain ⟨path, d₃, hi, h⟩ := bind_ok h
    obtain ⟨hs₃, hpath⟩ := indices_yields he bound hi
    -- the name was taken before its indices and is resolved by now
    have hall : d.Spells (Name.bare id :: (Expr.mentionsList path).map Mention.name) d₃ :=
      (hs.trans hs₃).resolved hw hid
    cases path with
    | nil =>
      obtain ⟨rfl, rfl⟩ := pure_ok h
      exact ⟨hall, hreads⟩
    | cons first more =>
      obtain ⟨rfl, rfl⟩ := pure_ok h
      exact ⟨hall, hreads, List.cons_ne_nil first more,
        Expr.soundList_mono hs.names_le (first :: more) hpath⟩

theorem integerLiteral_ok {n : Int} {line digitsLine : Nat} {d d' : Draft} {e : Expr}
    (h : (integerLiteral n line digitsLine).run d = .ok e d') :
    d = d' ∧ e.spelling = [] ∧ ∀ v, e.Sound v := by
  unfold integerLiteral at h
  split at h
  · obtain ⟨rfl, rfl⟩ := pure_ok h
    exact ⟨rfl, rfl, fun _ => trivial⟩
  · exact (refuse_ok h).elim

/-- A literal, a name with or without indices, a call, or an expression in parentheses. -/
theorem primary_yields {expression : Parse Expr} (he : YieldsSound expression)
    (bound : Nat) : YieldsSound (primary expression bound) := by
  intro d d' e h
  obtain ⟨⟨token, line⟩, d₁, ha, h⟩ := bind_ok h
  have hdrops := advance_ok ha
  rcases token with x | n | b | c | s | name | k | m
  case integer =>
    obtain ⟨rfl, hspelling, hsound⟩ := integerLiteral_ok h
    rw [hspelling]
    exact ⟨(hdrops.silent rfl).toSpells, hsound _⟩
  case real =>
    dsimp only at h
    split at h
    · rename_i hfinite
      obtain ⟨rfl, rfl⟩ := pure_ok h
      exact ⟨(hdrops.silent rfl).toSpells, hfinite⟩
    · exact (refuse_ok h).elim
  -- A name may go on with indices or arguments; every other token is complete.
  case identifier => exact named_ok he (hdrops.identifier rfl).toSpells ⟨_, hdrops.mem, rfl⟩ h
  case mark =>
    cases m with
    | openParen =>
      have hs := (hdrops.silent rfl).toSpells
      obtain ⟨e', d₂, hx, h⟩ := bind_ok h
      obtain ⟨hs₂, hsound⟩ := he hx
      obtain ⟨_, d₃, hc, h⟩ := bind_ok h
      obtain ⟨rfl, rfl⟩ := pure_ok h
      exact ⟨(hs.trans hs₂).skips (expect_ok hc rfl).toSpells, e'.sound_mono hs.names_le hsound⟩
    | _ => exact (refuse_ok h).elim
  case word => exact (refuse_ok h).elim
  all_goals
    obtain ⟨rfl, rfl⟩ := pure_ok h
    exact ⟨(hdrops.silent rfl).toSpells, trivial⟩

/-! ## Operators -/

theorem isSilent_of_binaryOp? {t : Token} {op : BinaryOp} (h : binaryOp? t = some op) :
    t.isSilent = true := by
  cases t with
  | word k => cases k <;> first | rfl | cases h
  | identifier name => cases h
  | _ => rfl

/-- An operator is looked at before it is taken. -/
theorem operator?_ok {layer : Layer} {d d' : Draft} {op : Option BinaryOp}
    (h : (operator? layer).run d = .ok op d') :
    d = d' ∧ (op.isSome = true → ∀ l d₁, d.Drops l d₁ → l.token.isSilent = true) := by
  obtain ⟨t, _, hp, h⟩ := bind_ok h
  obtain ⟨rfl, hpeek⟩ := peek_ok hp
  obtain ⟨rfl, rfl⟩ := pure_ok h
  refine ⟨rfl, fun hsome l d₁ hdrops => ?_⟩
  rw [hdrops.tokens] at hpeek
  cases hpeek
  obtain ⟨found, hfound⟩ := Option.isSome_iff_exists.1 hsome
  exact isSilent_of_binaryOp? (Option.filter_eq_some_iff.1 hfound).1

/-- What was read before the operators stays a part of the answer, so its names and its soundness
are carried along from the draft `d` at the very front. -/
theorem operations_ok {operand : Parse Expr} (ho : YieldsSound operand) (layer : Layer)
    {d : Draft} : ∀ (bound : Nat) {d₁ d' : Draft} {left e : Expr},
      d.Spells left.spelling d₁ → left.Sound d.names →
      (operations operand layer bound left).run d₁ = .ok e d' →
      d.Spells e.spelling d' ∧ e.Sound d.names := by
  intro bound
  induction bound with
  | zero =>
    intro d₁ d' left e hs hleft h
    obtain ⟨rfl, rfl⟩ := pure_ok h
    exact ⟨hs, hleft⟩
  | succ bound ih =>
    intro d₁ d' left e hs hleft h
    rw [operations] at h
    obtain ⟨op, d₂, ho', h⟩ := bind_ok h
    obtain ⟨rfl, hsilent⟩ := operator?_ok ho'
    cases op with
    | none =>
      obtain ⟨rfl, rfl⟩ := pure_ok h
      exact ⟨hs, hleft⟩
    | some op =>
      obtain ⟨l, d₂, ha, h⟩ := bind_ok h
      have hdrops := advance_ok ha
      have hs₂ := hs.skips (hdrops.silent (hsilent rfl l d₂ hdrops)).toSpells
      obtain ⟨right, d₃, hr, h⟩ := bind_ok h
      obtain ⟨hs₃, hright⟩ := ho hr
      have hboth : (Expr.binary l.line op left right).Sound d.names :=
        ⟨hleft, right.sound_mono hs₂.names_le hright⟩
      -- the operator stands between the operands and names nothing
      have hspelled : d.Spells (Expr.binary l.line op left right).spelling d₃ := by
        rw [Expr.spelling, Expr.mentions, List.map_append]
        exact hs₂.trans hs₃
      exact ih hspelled hboth h

theorem layered_yields {operand : Parse Expr} (ho : YieldsSound operand) (bound : Nat) :
    ∀ layers, YieldsSound (layered operand bound layers) := by
  intro layers
  induction layers with
  | nil => exact ho
  | cons layer tighter ih =>
    intro d d' e h
    rw [layered] at h
    obtain ⟨left, d₁, hl, h⟩ := bind_ok h
    obtain ⟨hs, hleft⟩ := ih hl
    exact operations_ok ih layer bound hs hleft h

/-- An operand, with the signs in front of it. -/
theorem operand_yields : ∀ bound, YieldsSound (operand bound) := by
  intro bound
  induction bound with
  | zero => exact endOfText_yields
  | succ bound ih =>
    intro d d' e h
    rw [operand] at h
    obtain ⟨t, _, hp, h⟩ := bind_ok h
    obtain ⟨rfl, hpeek⟩ := peek_ok hp
    split at h
    · obtain ⟨sign, d₁, ha, h⟩ := bind_ok h
      have hdrops := advance_ok ha
      have hs := (hdrops.silent (by rw [hdrops.token_eq hpeek]; rfl)).toSpells
      obtain ⟨t', _, hp', h⟩ := bind_ok h
      obtain ⟨rfl, hpeek'⟩ := peek_ok hp'
      split at h
      · obtain ⟨digits, d₂, ha', h⟩ := bind_ok h
        have hdrops' := advance_ok ha'
        have hs' := (hdrops'.silent (by rw [hdrops'.token_eq hpeek']; rfl)).toSpells
        obtain ⟨rfl, hspelling, hsound⟩ := integerLiteral_ok h
        rw [hspelling]
        exact ⟨hs.trans hs', hsound _⟩
      · obtain ⟨inner, d₂, hi, h⟩ := bind_ok h
        obtain ⟨rfl, rfl⟩ := pure_ok h
        obtain ⟨hs', hsound⟩ := ih hi
        exact ⟨hs.trans hs', inner.sound_mono hs.names_le hsound⟩
    · obtain ⟨sign, d₁, ha, h⟩ := bind_ok h
      have hdrops := advance_ok ha
      have hs := (hdrops.silent (by rw [hdrops.token_eq hpeek]; rfl)).toSpells
      obtain ⟨inner, d₂, hi, h⟩ := bind_ok h
      obtain ⟨rfl, rfl⟩ := pure_ok h
      obtain ⟨hs', hsound⟩ := ih hi
      exact ⟨hs.trans hs', inner.sound_mono hs.names_le hsound⟩
    · exact primary_yields (layered_yields ih bound Layer.all) bound h

/-- Reading an expression only takes tokens, the expression mentions the names among them, and it is
sound for the names of the draft at its start. -/
theorem expression_yields (bound : Nat) : YieldsSound (expression bound) :=
  layered_yields (operand_yields bound) bound Layer.all

end Primer.Grammar
