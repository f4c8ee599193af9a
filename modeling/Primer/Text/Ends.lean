/-!
# Primer.Text.Ends — taking characters off the ends of a text.
-/

namespace Primer.Text

/-- Drops the characters of a class from the end. -/
def dropTrailing (p : Char → Bool) (cs : List Char) : List Char :=
  (cs.reverse.dropWhile p).reverse

/-- Drops the characters of a class from both ends. -/
def strip (p : Char → Bool) (cs : List Char) : List Char :=
  dropTrailing p (cs.dropWhile p)

/-- The text without the line breaks at its end, however many there are. -/
def dropLineBreaks (cs : List Char) : List Char :=
  dropTrailing (fun c => c == '\r' || c == '\n') cs

/-! ## What is dropped -/

@[simp]
theorem dropTrailing_nil (p : Char → Bool) : dropTrailing p [] = [] := rfl

theorem dropTrailing_concat_of {p : Char → Bool} (cs : List Char) {c : Char} (h : p c = true) :
    dropTrailing p (cs ++ [c]) = dropTrailing p cs := by
  simp [dropTrailing, h]

theorem dropTrailing_concat_of_not {p : Char → Bool} (cs : List Char) {c : Char} (h : p c = false) :
    dropTrailing p (cs ++ [c]) = cs ++ [c] := by
  simp [dropTrailing, h]

end Primer.Text
