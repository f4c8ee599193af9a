import Primer.Grammar.Unit
import Primer.Proofs.Grammar.Mentions

/-!
# Primer.Proofs.Grammar.Step — what a reading step that answers has done.

A `Parse` that answers is taken apart here, once: a sequence into its parts (`bind_ok`), and every
primitive on tokens into the tokens it took.  The readers above these primitives are then followed
by naming the drafts between their steps, and nobody unfolds the monad again.

Most of reading only takes tokens.  `Draft.Skips d d'` says that `d'` is `d` with some tokens of the
front gone and nothing else changed, `Draft.Spells d ns d'` in addition which names were among them,
and `Draft.Takes d line ns d'` that at least one is gone and that the first one stood on `line`.
-/

namespace Primer.Grammar

variable {α β : Type}

/-! ## The monad -/

/-- A sequence that answers is two parts that do. -/
theorem bind_ok {x : Parse α} {f : α → Parse β} {d d' : Draft} {b : β}
    (h : (x >>= f).run d = .ok b d') : ∃ a d₁, x.run d = .ok a d₁ ∧ (f a).run d₁ = .ok b d' := by
  change EStateM.bind x f d = .ok b d' at h
  unfold EStateM.bind at h
  cases hx : x.run d with
  | ok a d₁ =>
    rw [show x d = _ from hx] at h
    exact ⟨a, d₁, rfl, h⟩
  | error e d₁ =>
    rw [show x d = _ from hx] at h
    cases h

theorem pure_ok {a b : α} {d d' : Draft} (h : (pure a : Parse α).run d = .ok b d') :
    a = b ∧ d = d' := by
  cases h
  exact ⟨rfl, rfl⟩

theorem map_ok {x : Parse α} {f : α → β} {d d' : Draft} {b : β}
    (h : (f <$> x).run d = .ok b d') : ∃ a, x.run d = .ok a d' ∧ f a = b := by
  change EStateM.map f x d = .ok b d' at h
  unfold EStateM.map at h
  cases hx : x.run d with
  | ok a d₁ =>
    rw [show x d = _ from hx] at h
    cases h
    exact ⟨a, rfl, rfl⟩
  | error e d₁ =>
    rw [show x d = _ from hx] at h
    cases h

theorem get_ok {d d' d₁ : Draft} (h : (get : Parse Draft).run d = .ok d₁ d') : d = d₁ ∧ d = d' := by
  cases h
  exact ⟨rfl, rfl⟩

theorem set_ok {d d' s : Draft} {u : PUnit} (h : (set s : Parse PUnit).run d = .ok u d') :
    s = d' := by
  cases h
  rfl

theorem refuse_ok {fault : ParseFault} {line : Nat} {d d' : Draft} {a : α}
    (h : (refuse fault line).run d = .ok a d') : False := by
  cases h

theorem endOfText_ok {d d' : Draft} {a : α} (h : (endOfText : Parse α).run d = .ok a d') :
    False := by
  obtain ⟨_, _, _, h⟩ := bind_ok h
  exact refuse_ok h

/-! ## Tokens gone from the front -/

/-- Some tokens of the front are gone, and nothing else has changed. -/
structure Draft.Skips (d d' : Draft) : Prop where
  suffix : d'.tokens <:+ d.tokens
  rest : d' = { d with tokens := d'.tokens, lastLine := d'.lastLine }

/-- Tokens of the front are gone with these names among them, and nothing else has changed. -/
structure Draft.Spells (d : Draft) (ns : List String) (d' : Draft) : Prop extends
    Draft.Skips d d' where
  spelled : Token.Spells d.tokens ns d'.tokens

/-- Tokens of the front are gone with these names among them, the first of the tokens stood on this
line, and nothing else has changed. -/
structure Draft.Takes (d : Draft) (line : Nat) (ns : List String) (d' : Draft) : Prop extends
    Draft.Spells d ns d' where
  first : ∃ l more, d.tokens = l :: more ∧ l.line = line ∧ d'.tokens <:+ more

namespace Draft.Skips

variable {d d₁ d₂ : Draft}

theorem refl (d : Draft) : d.Skips d := ⟨List.suffix_rfl, rfl⟩

theorem trans (h : d.Skips d₁) (h' : d₁.Skips d₂) : d.Skips d₂ where
  suffix := h'.suffix.trans h.suffix
  rest := by
    rw [h'.rest, h.rest]

theorem tree (h : d.Skips d₁) : d₁.tree = d.tree := by rw [h.rest]

theorem routines (h : d.Skips d₁) : d₁.routines = d.routines := by rw [h.rest]

theorem declared (h : d.Skips d₁) : d₁.declared = d.declared := by rw [h.rest]

theorem blocks (h : d.Skips d₁) : d₁.blocks = d.blocks := by rw [h.rest]

theorem blockCount (h : d.Skips d₁) : d₁.blockCount = d.blockCount := by rw [h.rest]

end Draft.Skips

namespace Draft.Spells

variable {d d₁ d₂ : Draft} {ns ms : List String}

theorem refl (d : Draft) : d.Spells [] d := ⟨.refl d, .refl _⟩

theorem trans (h : d.Spells ns d₁) (h' : d₁.Spells ms d₂) : d.Spells (ns ++ ms) d₂ :=
  ⟨h.toSkips.trans h'.toSkips, h.spelled.trans h'.spelled⟩

/-- Nothing more was named. -/
theorem skips (h : d.Spells ns d₁) (h' : d₁.Spells [] d₂) : d.Spells ns d₂ :=
  ⟨h.toSkips.trans h'.toSkips, h.spelled.skips h'.spelled⟩

end Draft.Spells

namespace Draft.Takes

variable {d d₁ d₂ : Draft} {line : Nat} {ns ms : List String}

theorem trans (h : d.Takes line ns d₁) (h' : d₁.Spells ms d₂) : d.Takes line (ns ++ ms) d₂ where
  toSpells := h.toSpells.trans h'
  first := by
    obtain ⟨l, more, hd, hl, hs⟩ := h.first
    exact ⟨l, more, hd, hl, h'.suffix.trans hs⟩

/-- Nothing more was named. -/
theorem skips (h : d.Takes line ns d₁) (h' : d₁.Spells [] d₂) : d.Takes line ns d₂ := by
  have hall := h.trans h'
  rwa [List.append_nil] at hall

end Draft.Takes

/-- Exactly one token is gone. -/
structure Draft.Drops (d : Draft) (l : Lexeme) (d' : Draft) : Prop where
  tokens : d.tokens = l :: d'.tokens
  rest : d' = { d with tokens := d'.tokens, lastLine := d'.lastLine }

namespace Draft.Drops

variable {d d₁ d₂ : Draft} {l l' : Lexeme} {name : String} {ns : List String}

theorem toSkips (h : d.Drops l d₁) : d.Skips d₁ :=
  ⟨h.tokens ▸ List.suffix_cons l d₁.tokens, h.rest⟩

/-- The token that was looked at is the one that is taken. -/
theorem token_eq (h : d.Drops l d₁) {t : Token} (hpeek : d.tokens.head?.map (·.token) = some t) :
    l.token = t := by
  rw [h.tokens] at hpeek
  exact Option.some.inj hpeek

theorem mem (h : d.Drops l d₁) : l ∈ d.tokens := h.tokens ▸ List.mem_cons_self

theorem takes (h : d.Drops l d₁) (hs : Token.Spells (l :: d₁.tokens) ns d₁.tokens) :
    d.Takes l.line ns d₁ :=
  ⟨⟨h.toSkips, h.tokens ▸ hs⟩, l, d₁.tokens, h.tokens, rfl, List.suffix_rfl⟩

theorem silent (h : d.Drops l d₁) (hl : l.token.isSilent = true) : d.Takes l.line [] d₁ :=
  h.takes (.silent hl)

theorem identifier (h : d.Drops l d₁) (hl : l.token = .identifier name) :
    d.Takes l.line [name] d₁ :=
  h.takes (.identifier hl)

/-- What closes a block is taken as a whole. -/
theorem closing (h : d.Drops l d₁) (h' : d₁.Drops l' d₂) (hl : l.token = .word .end)
    (hl' : l'.token ≠ .word .end) : d.Spells [] d₂ := by
  refine ⟨h.toSkips.trans h'.toSkips, ?_⟩
  rw [h.tokens, h'.tokens]
  exact .closing hl hl'

end Draft.Drops

/-! ## The primitives on tokens -/

theorem peek_ok {d d' : Draft} {t : Option Token} (h : peek.run d = .ok t d') :
    d = d' ∧ d.tokens.head?.map (·.token) = t := by
  obtain ⟨_, _, hg, h⟩ := bind_ok h
  obtain ⟨rfl, rfl⟩ := get_ok hg
  obtain ⟨rfl, rfl⟩ := pure_ok h
  exact ⟨rfl, rfl⟩

theorem peekLine_ok {d d' : Draft} {line : Nat} (h : peekLine.run d = .ok line d') :
    d = d' ∧ (d.tokens.head?.map (·.line)).getD d.lastLine = line := by
  obtain ⟨_, _, hg, h⟩ := bind_ok h
  obtain ⟨rfl, rfl⟩ := get_ok hg
  obtain ⟨rfl, rfl⟩ := pure_ok h
  exact ⟨rfl, rfl⟩

theorem advance_ok {d d' : Draft} {l : Lexeme} (h : advance.run d = .ok l d') : d.Drops l d' := by
  obtain ⟨_, _, hg, h⟩ := bind_ok h
  obtain ⟨rfl, rfl⟩ := get_ok hg
  cases ht : d.tokens with
  | nil =>
    rw [ht] at h
    exact (endOfText_ok h).elim
  | cons l' rest =>
    rw [ht] at h
    obtain ⟨_, _, hs, h⟩ := bind_ok h
    obtain rfl := set_ok hs
    obtain ⟨rfl, rfl⟩ := pure_ok h
    exact ⟨ht, rfl⟩

/-- A token that is expected is the one that is taken. -/
theorem expect_drops {t : Token} {d d' : Draft} {line : Nat} (h : (expect t).run d = .ok line d') :
    d.Drops ⟨t, line⟩ d' := by
  obtain ⟨l, d₁, ha, h⟩ := bind_ok h
  split at h
  · rename_i ht
    obtain ⟨rfl, rfl⟩ := pure_ok h
    subst ht
    exact advance_ok ha
  · exact (refuse_ok h).elim

theorem expect_ok {t : Token} {d d' : Draft} {line : Nat} (h : (expect t).run d = .ok line d')
    (ht : t.isSilent = true) : d.Takes line [] d' :=
  (expect_drops h).silent ht

/-- A token is taken if it is there. -/
theorem eat_ok {t : Token} {d d' : Draft} {b : Bool} (h : (eat t).run d = .ok b d')
    (ht : t.isSilent = true) : d.Spells [] d' := by
  obtain ⟨_, _, hp, h⟩ := bind_ok h
  obtain ⟨rfl, hpeek⟩ := peek_ok hp
  split at h
  · rename_i hnext
    obtain ⟨l, d₁, ha, h⟩ := bind_ok h
    obtain ⟨rfl, rfl⟩ := pure_ok h
    have hdrops := advance_ok ha
    rw [hnext] at hpeek
    exact (hdrops.silent (hdrops.token_eq hpeek ▸ ht)).toSpells
  · obtain ⟨rfl, rfl⟩ := pure_ok h
    exact .refl _

/-- The name is among those that are still to be read. -/
def Draft.Writes (d : Draft) (name : String) : Prop :=
  ∃ l ∈ d.tokens, l.token = .identifier name

/-- A name among the tokens that are left is one of the text. -/
theorem Draft.Skips.writes {d d' : Draft} {name : String} (h : d.Skips d') (hw : d'.Writes name) :
    d.Writes name := by
  obtain ⟨l, hl, ht⟩ := hw
  exact ⟨l, h.suffix.mem hl, ht⟩

theorem identifier_drops {d d' : Draft} {name : String} (h : identifier.run d = .ok name d') :
    ∃ line, d.Drops ⟨.identifier name, line⟩ d' := by
  obtain ⟨⟨token, line⟩, d₁, ha, h⟩ := bind_ok h
  cases token with
  | identifier name' =>
    obtain ⟨rfl, rfl⟩ := pure_ok h
    exact ⟨line, advance_ok ha⟩
  | _ => exact (refuse_ok h).elim

theorem identifier_ok {d d' : Draft} {name : String} (h : identifier.run d = .ok name d') :
    d.Spells [name] d' ∧ d.Writes name := by
  obtain ⟨line, hdrops⟩ := identifier_drops h
  exact ⟨(hdrops.identifier rfl).toSpells, _, hdrops.mem, rfl⟩

theorem scalarType_ok {d d' : Draft} {type : Scalar} (h : scalarType.run d = .ok type d') :
    d.Spells [] d' := by
  obtain ⟨⟨token, line⟩, d₁, ha, h⟩ := bind_ok h
  have hdrops := advance_ok ha
  rcases token with _ | _ | _ | _ | _ | _ | k | _
  case word =>
    cases k with
    | scalar type' =>
      obtain ⟨rfl, rfl⟩ := pure_ok h
      exact (hdrops.silent rfl).toSpells
    | _ => exact (refuse_ok h).elim
  all_goals exact (refuse_ok h).elim

end Primer.Grammar
