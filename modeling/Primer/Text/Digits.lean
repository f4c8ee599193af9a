/-!
# Primer.Text.Digits — decimal digits and their value.
-/

namespace Primer.Text

/-- The value of one decimal digit. -/
def digitValue (c : Char) : Nat := c.toNat - 48

/-- The value of a list of decimal digits, the most significant one first. -/
def digitsValue (digits : List Char) : Nat :=
  digits.foldl (fun n c => 10 * n + digitValue c) 0

/-- The value of a numeral: one decimal digit at least, and nothing else. -/
def numeral? (cs : List Char) : Option Nat :=
  if cs.isEmpty || cs.any (!·.isDigit) then none else some (digitsValue cs)

theorem digitsValue_concat (cs : List Char) (c : Char) :
    digitsValue (cs ++ [c]) = 10 * digitsValue cs + digitValue c := by
  simp [digitsValue, List.foldl_append]

theorem numeral?_eq_some_iff {cs : List Char} {n : Nat} :
    numeral? cs = some n ↔ cs ≠ [] ∧ (∀ c ∈ cs, c.isDigit) ∧ digitsValue cs = n := by
  unfold numeral?
  split
  · rename_i h
    simp only [Bool.or_eq_true, List.isEmpty_iff, List.any_eq_true, Bool.not_eq_eq_eq_not,
      Bool.not_true] at h
    constructor
    · intro hn
      cases hn
    · rintro ⟨hne, hd, _⟩
      rcases h with h | ⟨c, hc, hf⟩
      · exact absurd h hne
      · rw [hd c hc] at hf
        cases hf
  · rename_i h
    simp only [Bool.or_eq_true, List.isEmpty_iff, List.any_eq_true, not_or, not_exists] at h
    constructor
    · intro hn
      cases hn
      refine ⟨h.1, ?_, rfl⟩
      intro c hc
      have hnot := h.2 c
      simpa [hc] using hnot
    · rintro ⟨_, _, rfl⟩
      rfl

end Primer.Text
