import Primer.Proofs.Scope.Ids
import Primer.Token.Scan

/-!
# Primer.Proofs.Token.Words — the names that a text can spell.

An identifier is made of letters, digits and underscores and is no reserved word.  So no name that
is read contains the separator of ids, and none is spelled like the entry block.  Main statement:
`scan_plain`.

The proof goes along the scanner: every piece that it takes from a text is a token of a kind that
the first character tells, and only a word can be an identifier.  What holds of each token that is
taken holds of all of them (`scanFrom_forall`).
-/

namespace Primer

/-- The name can be written: it does not contain the separator and is not reserved. -/
structure Name.Plain (name : String) : Prop where
  segment : Name.IsSegment name
  unreserved : Keyword.ofText? name = none

/-- All names among the tokens can be written. -/
def Token.AllPlain (tokens : List Lexeme) : Prop :=
  ∀ l ∈ tokens, ∀ name, l.token = .identifier name → Name.Plain name

namespace Token

theorem not_isWordPart_separator : isWordPart Name.separator = false := by
  decide

/-- A word that is read as a name is one that can be written. -/
theorem ofWord_plain {cs : List Char} (hcs : ∀ c ∈ cs, isWordPart c = true) {name : String}
    (h : ofWord cs = identifier name) : Name.Plain name := by
  unfold ofWord at h
  dsimp only at h
  split at h
  · cases h
  · split at h
    · cases h
    · split at h
      · cases h
      · rename_i hk
        obtain rfl : String.ofList cs = name := by injection h
        refine ⟨fun hmem => ?_, hk⟩
        rw [String.toList_ofList] at hmem
        have hpart := hcs _ hmem
        rw [not_isWordPart_separator] at hpart
        cases hpart

/-- Digits are read as an integer, if as anything. -/
theorem integerPiece_token {digits : List Char} {t : Token}
    (h : integerPiece digits = .token t) : ∃ n, t = integer n := by
  unfold integerPiece at h
  dsimp only at h
  split at h <;> cases h
  exact ⟨_, rfl⟩

/-- A numeral with a fraction or an exponent is read as a real, if as anything. -/
theorem realPiece_token {cs : List Char} {t : Token} (h : realPiece cs = .token t) :
    ∃ x, Real.read? cs = some x ∧ t = real x := by
  unfold realPiece at h
  split at h <;> cases h
  exact ⟨_, by assumption, rfl⟩

/-- A number is an integer, or its digits are the beginning of the text of a real. -/
theorem number_token {cs : List Char} {t : Token} (h : (number cs).1 = .token t) :
    (∃ n, t = integer n) ∨
      ∃ x more, Real.read? (cs.takeWhile Char.isDigit ++ more) = some x ∧ t = real x := by
  unfold number at h
  dsimp only at h
  split at h
  · split at h
    · obtain ⟨x, hx, ht⟩ := realPiece_token h
      exact Or.inr ⟨x, _, by rwa [List.append_assoc] at hx, ht⟩
    · obtain ⟨x, hx, ht⟩ := realPiece_token h
      exact Or.inr ⟨x, _, hx, ht⟩
  · split at h
    · obtain ⟨x, hx, ht⟩ := realPiece_token h
      exact Or.inr ⟨x, _, hx, ht⟩
    · exact Or.inl (integerPiece_token h)

/-- What is between single quotes is read as a character. -/
theorem quotedChar_token {cs : List Char} {t : Token} (h : (quotedChar cs).1 = .token t) :
    ∃ c, t = char c := by
  revert h
  fun_cases quotedChar cs <;> rintro ⟨⟩ <;> exact ⟨_, rfl⟩

/-- What is between double quotes is read as a text. -/
theorem quotedText_token {cs : List Char} {t : Token} (h : (quotedText cs).1 = .token t) :
    ∃ s, t = string s := by
  unfold quotedText at h
  dsimp only at h
  split at h
  · split at h <;> cases h
    exact ⟨_, rfl⟩
  · cases h

/-- The kinds of tokens that can stand at the front of a text. -/
theorem next_token {c : Char} {cs : List Char} {t : Token} (h : (next c cs).1 = .token t) :
    (isWordStart c = true ∧ t = ofWord (c :: cs.takeWhile isWordPart)) ∨
      (c.isDigit = true ∧ (number (c :: cs)).1 = .token t) ∨ (∃ d, t = char d) ∨
      (∃ s, t = string s) ∨ ∃ m, t = mark m := by
  unfold next at h
  split at h
  · cases h
  split at h
  · cases h
  split at h
  · cases h
  split at h
  · rename_i hword
    cases h
    exact Or.inl ⟨hword, rfl⟩
  split at h
  · rename_i hdigit
    exact Or.inr (Or.inl ⟨hdigit, h⟩)
  split at h
  · exact Or.inr (Or.inr (Or.inl (quotedChar_token h)))
  split at h
  · exact Or.inr (Or.inr (Or.inr (Or.inl (quotedText_token h))))
  split at h <;> cases h
  exact Or.inr (Or.inr (Or.inr (Or.inr ⟨_, rfl⟩)))

/-- Only words are identifiers. -/
theorem next_identifier {c : Char} {cs : List Char} {name : String}
    (h : (next c cs).1 = .token (identifier name)) :
    isWordStart c = true ∧ ofWord (c :: cs.takeWhile isWordPart) = identifier name := by
  rcases next_token h with ⟨hc, hword⟩ | ⟨-, hnumber⟩ | ⟨_, hother⟩ | ⟨_, hother⟩ | ⟨_, hother⟩
  · exact ⟨hc, hword.symm⟩
  · rcases number_token hnumber with ⟨_, hother⟩ | ⟨_, _, -, hother⟩ <;> cases hother
  all_goals cases hother

/-- What may start a word may stand in it. -/
theorem isWordPart_of_isWordStart {c : Char} (h : isWordStart c = true) : isWordPart c = true := by
  rw [isWordPart, h, Bool.true_or]

/-- A name that is taken from a text can be written. -/
theorem next_plain {c : Char} {cs : List Char} {name : String}
    (h : (next c cs).1 = .token (identifier name)) : Name.Plain name := by
  obtain ⟨hc, hword⟩ := next_identifier h
  refine ofWord_plain (fun d hd => ?_) hword
  rcases List.mem_cons.1 hd with rfl | hd
  · exact isWordPart_of_isWordStart hc
  · exact List.all_eq_true.1 List.all_takeWhile d hd

/-- What is known of every token at the front of a text is known of all tokens of a text. -/
theorem scanFrom_forall {T : Token → Prop} (hT : ∀ c cs t, (next c cs).1 = .token t → T t)
    {bound line : Nat} {cs : List Char} {tokens : List Lexeme}
    (h : scanFrom bound line cs = .ok tokens) : ∀ l ∈ tokens, T l.token := by
  fun_induction scanFrom bound line cs generalizing tokens with
  | case1 | case2 =>
    cases h
    intro l hl
    cases hl
  | case3 bound line c cs rest t hnext ih =>
    cases hrest : scanFrom bound line rest with
    | error e =>
      rw [hrest] at h
      cases h
    | ok more =>
      rw [hrest] at h
      cases h
      exact List.forall_mem_cons.2 ⟨hT c cs t (by rw [hnext]), ih hrest⟩
  | case4 bound line c cs rest hnext ih => exact ih h
  | case5 bound line c cs rest hnext ih => exact ih h
  | case6 => cases h

/-- Every name that a text spells is plain. -/
theorem scan_plain {source : String} {tokens : List Lexeme} (h : scan source = .ok tokens) :
    AllPlain tokens := by
  refine scanFrom_forall (T := fun t => ∀ name, t = identifier name → Name.Plain name) ?_ h
  rintro c cs t hnext name rfl
  exact next_plain hnext

end Token

end Primer
