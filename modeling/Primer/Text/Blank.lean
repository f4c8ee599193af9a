import Primer.Text.Ends

/-!
# Primer.Text.Blank — white space around a text.

Numbers and truth values that arrive as text may have white space around them.  White space is the
Unicode property `White_Space`, twenty-five code points, of which core's own class knows six.
-/

namespace Primer.Text

/-- The code points with the property `White_Space`, as inclusive ranges. -/
def blankRanges : List (Nat × Nat) :=
  [(0x9, 0xD), (0x20, 0x20), (0x85, 0x85), (0xA0, 0xA0), (0x1680, 0x1680), (0x2000, 0x200A),
    (0x2028, 0x2029), (0x202F, 0x202F), (0x205F, 0x205F), (0x3000, 0x3000)]

/-- The character is white space. -/
def isBlank (c : Char) : Bool :=
  blankRanges.any fun range => range.1 ≤ c.toNat && c.toNat ≤ range.2

/-- The ranges hold twenty-five code points. -/
example : (blankRanges.map fun range => range.2 + 1 - range.1).sum = 25 := rfl

/-- Every white space character of core is one here. -/
theorem isBlank_of_isWhitespace (c : Char) (h : c.isWhitespace) : isBlank c := by
  simp only [Char.isWhitespace, Bool.or_eq_true, decide_eq_true_eq] at h
  rcases h with (((rfl | rfl) | rfl) | rfl) | h <;> first | rfl | (subst h; rfl)

/-- The text without the white space at either end. -/
def trim (cs : List Char) : List Char := strip isBlank cs

end Primer.Text
