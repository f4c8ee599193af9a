import Primer.Proofs.Language.Printing
import Primer.Proofs.Value.Fits

/-!
# Primer.Proofs.Value.Input — what is written can be read back from the console.

A line of input is read in three steps: line breaks go off its end, blanks go off both ends where
the type is that of numbers or truth values, and the rest has to be a text of the type.  The text
that output writes for a value passes the first two steps unchanged.  It has no blank at an end if
it is that of an integer or a truth value, and texts and characters keep their blanks; only the line
breaks at their end are lost, and a value that has one there is left out.

The two steps that take something off a text are statements about lists of characters
(`dropTrailing` and `strip`), which are left alone by texts without such characters at the ends.
What remains is a round trip through digits, for integers with a sign in front, and a choice between
two words, for truth values.

Main statement: `Value.ofInput_text`.
-/

namespace Primer

/-! ## Ends of texts -/

namespace Text

/-- A carriage return or a line feed. -/
def isLineBreak (c : Char) : Bool := c == '\r' || c == '\n'

variable {p : Char → Bool} {cs : List Char}

/-- Nothing is dropped where the last character stays. -/
theorem dropTrailing_eq_self (h : ∀ c ∈ cs.getLast?, p c = false) : dropTrailing p cs = cs := by
  rcases List.eq_nil_or_concat' cs with rfl | ⟨front, c, rfl⟩
  · rfl
  · exact dropTrailing_concat_of_not front (h c (by simp))

/-- What is to be dropped is dropped behind any text. -/
theorem dropTrailing_append {ending : List Char} (h : ∀ c ∈ ending, p c = true) :
    dropTrailing p (cs ++ ending) = dropTrailing p cs := by
  induction ending using List.reverseRecOn with
  | nil => rw [List.append_nil]
  | append_singleton front c ih =>
    rw [← List.append_assoc, dropTrailing_concat_of _ (h c (by simp))]
    exact ih fun d hd => h d (List.mem_append_left _ hd)

/-- A text that neither starts nor ends with a blank is left as it is. -/
theorem strip_eq_self (hfirst : ∀ c ∈ cs.head?, p c = false)
    (hlast : ∀ c ∈ cs.getLast?, p c = false) : strip p cs = cs := by
  have hfront : cs.dropWhile p = cs := by
    cases cs with
    | nil => rfl
    | cons c rest => exact List.dropWhile_cons_of_neg (by simp [hfirst c rfl])
  rw [strip, hfront, dropTrailing_eq_self hlast]

/-- The line breaks of a line are dropped, and nothing more. -/
theorem dropLineBreaks_append {ending : List Char} (hend : ∀ c ∈ cs.getLast?, isLineBreak c = false)
    (hending : ∀ c ∈ ending, isLineBreak c = true) : dropLineBreaks (cs ++ ending) = cs :=
  (dropTrailing_append hending).trans (dropTrailing_eq_self hend)

/-- A text without blanks is not changed by trimming. -/
theorem trim_eq_self (h : ∀ c ∈ cs, isBlank c = false) : trim cs = cs :=
  strip_eq_self (fun c hc => h c (List.mem_of_mem_head? hc))
    fun c hc => h c (List.mem_of_mem_getLast? hc)

theorem not_isBlank_of_isDigit {c : Char} (h : c.isDigit = true) : isBlank c = false := by
  have hrange : 48 ≤ c.toNat ∧ c.toNat ≤ 57 := by
    simp only [Char.isDigit, Bool.and_eq_true, decide_eq_true_eq] at h
    exact ⟨h.1, h.2⟩
  simp only [isBlank, blankRanges, List.any_cons, List.any_nil, Bool.or_false, Bool.or_eq_false_iff,
    Bool.and_eq_false_iff, decide_eq_false_iff_not]
  omega

theorem isLineBreak_of_not_isBlank {c : Char} (h : isBlank c = false) : isLineBreak c = false := by
  rw [← Bool.not_eq_true]
  intro hbreak
  simp only [isLineBreak, Bool.or_eq_true, beq_iff_eq] at hbreak
  rcases hbreak with rfl | rfl <;> cases h

end Text

/-! ## Texts of scalars -/

namespace Integer

/-- The text of an integer is a sign and digits, none of them blank. -/
theorem not_isBlank_text (n : Integer) : ∀ c ∈ n.text.toList, Text.isBlank c = false := by
  have hdigits : ∀ c ∈ Nat.toDigits 10 n.val.natAbs, Text.isBlank c = false :=
    fun c hc => Text.not_isBlank_of_isDigit (Real.isDigit_of_mem_toDigits hc)
  rw [n.toList_text]
  split
  · exact List.forall_mem_cons.2 ⟨rfl, hdigits⟩
  · exact hdigits

/-- Digits without a sign are those of a positive number. -/
theorem read?_digits {digits : List Char} (hne : digits ≠ [])
    (hdigits : ∀ c ∈ digits, c.isDigit = true) :
    read? digits = ofInt? (Text.digitsValue digits) := by
  have hvalue : Text.numeral? digits = some (Text.digitsValue digits) :=
    Text.numeral?_eq_some_iff.2 ⟨hne, hdigits, rfl⟩
  unfold read?
  split
  · cases hdigits '-' List.mem_cons_self
  · cases hdigits '+' List.mem_cons_self
  · rw [hvalue, Option.bind_some]

/-- The text of an integer is read as the integer, the least one included. -/
theorem read?_text (n : Integer) : read? n.text.toList = some n := by
  have hdigits : ∀ c ∈ Nat.toDigits 10 n.val.natAbs, c.isDigit = true :=
    fun c hc => Real.isDigit_of_mem_toDigits hc
  have hne : Nat.toDigits 10 n.val.natAbs ≠ [] := Nat.toDigits_ne_nil
  have hvalue := Text.digitsValue_toDigits n.val.natAbs
  rw [n.toList_text]
  split
  · have hnumeral : Text.numeral? (Nat.toDigits 10 n.val.natAbs) = some n.val.natAbs :=
      Text.numeral?_eq_some_iff.2 ⟨hne, hdigits, hvalue⟩
    rw [read?, hnumeral, Option.bind_some, ofInt?_eq_some_iff]
    omega
  · rw [read?_digits hne hdigits, hvalue, ofInt?_eq_some_iff]
    omega

end Integer

namespace Value

/-- The text of a truth value is one word. -/
theorem not_isBlank_booleanText (b : Bool) :
    ∀ c ∈ (booleanText b).toList, Text.isBlank c = false := by
  cases b <;> simp [booleanText, Text.isBlank, Text.blankRanges]

theorem readBoolean?_text (b : Bool) : readBoolean? (booleanText b).toList = some b := by
  cases b <;> rfl

/-- The value is a line break, or a text with a line break at its end. -/
def EndsInBreak : Value → Prop
  | char c => Text.isLineBreak c = true
  | string s => ∃ c ∈ s.toList.getLast?, Text.isLineBreak c = true
  | integer _ | real _ | boolean _ | array .. => False

/-- The text of a value of a type other than that of reals is read as the value. -/
theorem read?_text {type : Scalar} {v : Value} (hreal : type ≠ .real)
    (hv : v.scalar? = some type) : read? v.text.toList type = some v := by
  cases v with
  | integer n =>
    cases hv
    rw [text, read?, Text.trim_eq_self n.not_isBlank_text, n.read?_text]
    rfl
  | real x =>
    cases hv
    exact absurd rfl hreal
  | boolean b =>
    cases hv
    rw [text, read?, Text.trim_eq_self (not_isBlank_booleanText b), readBoolean?_text]
    rfl
  | char c =>
    cases hv
    simp [text, read?]
  | string s =>
    cases hv
    simp [text, read?]
  | array => cases hv

/-- A line break at the end of a text is one of the value. -/
theorem not_isLineBreak_text {type : Scalar} {v : Value} (hreal : type ≠ .real)
    (hv : v.scalar? = some type) (hend : ¬ v.EndsInBreak) :
    ∀ c ∈ v.text.toList.getLast?, Text.isLineBreak c = false := by
  intro c hc
  cases v with
  | integer n =>
    exact Text.isLineBreak_of_not_isBlank (n.not_isBlank_text c (List.mem_of_mem_getLast? hc))
  | real x =>
    cases hv
    exact absurd rfl hreal
  | boolean b =>
    have hmem := List.mem_of_mem_getLast? hc
    exact Text.isLineBreak_of_not_isBlank (not_isBlank_booleanText b c hmem)
  | char d =>
    obtain rfl : d = c := by simpa [text] using hc
    exact Bool.eq_false_iff.2 hend
  | string s => exact Bool.eq_false_iff.2 fun hbreak => hend ⟨c, hc, hbreak⟩
  | array => cases hv

/-- A value that is written on a line of the console is read from that line again, whether the line
ends with the text, a line feed, or a carriage return and a line feed.  Whatever is read has the
type that was asked for. -/
theorem ofInput_text :
    (∀ (type : Scalar) (v : Value) (ending : String), type ≠ .real → v.scalar? = some type →
      ¬ v.EndsInBreak → ending ∈ ["", "\n", "\r\n"] →
        ofInput (v.text ++ ending) type = .ok v) ∧
    ∀ (line : String) (type : Scalar) (v : Value), ofInput line type = .ok v →
      v.scalar? = some type := by
  constructor
  · intro type v ending hreal hv hend hending
    have hbreaks : ∀ c ∈ ending.toList, Text.isLineBreak c = true := by
      simp only [List.mem_cons, List.not_mem_nil, or_false] at hending
      rcases hending with rfl | rfl | rfl <;> simp [Text.isLineBreak]
    have hline : Text.dropLineBreaks (v.text ++ ending).toList = v.text.toList := by
      rw [String.toList_append]
      exact Text.dropLineBreaks_append (not_isLineBreak_text hreal hv hend) hbreaks
    rw [ofInput, hline, read?_text hreal hv]
  · intro line type v hread
    have hfits := meets_ofInput line type
    rw [hread] at hfits
    exact hfits

/-- The least integer, and a text that is nothing but blanks. -/
theorem ofInput_text_least :
    ofInput ((integer ⟨-2147483648, by decide, by decide⟩).text ++ "\r\n") .integer
      = .ok (integer ⟨-2147483648, by decide, by decide⟩) ∧
    ofInput ((string " \t ").text ++ "\n") .string = .ok (string " \t ") :=
  ⟨ofInput_text.1 _ _ _ (by decide) rfl id (by decide),
    ofInput_text.1 _ _ _ (by decide) rfl (by rintro ⟨c, ⟨⟩, hbreak⟩; cases hbreak) (by decide)⟩

end Value

end Primer
