import Primer.Name

/-!
# Primer.Proofs.Scope.Ids — ids of different blocks differ.

An id is cut at its last separator, so the scope and the name of a declaration can be read off it.
The scope of a block with a name is that of the unit or stands right under it; every other block has
a number that no block before it had, and its scope stands further down.

Three kinds of scopes are told apart by their texts: that of the unit has no separator, that of a
routine has one, and that of a numbered block has more and ends in digits.  A label and a number are
put together so that both can be taken out again, since no label ends in a digit.
-/

namespace Primer.Name

/-- The name does not contain the separator. -/
def IsSegment (name : String) : Prop := separator ∉ name.toList

instance (name : String) : Decidable (IsSegment name) := inferInstanceAs (Decidable (¬ _))

/-- A name without separator is its own last part. -/
theorem bare_of_isSegment {name : String} (h : IsSegment name) : bare name = name := by
  have hall : ∀ c ∈ name.toList.reverse, (c != separator) = true := by
    intro c hc
    simp only [bne_iff_ne, ne_eq]
    rintro rfl
    exact h (List.mem_reverse.1 hc)
  rw [bare, lastSegment, ← List.append_nil name.toList.reverse, List.takeWhile_append_of_pos hall]
  simp

/-- A bare name is what stands behind all separators. -/
theorem isSegment_bare (id : String) : IsSegment (bare id) := by
  intro hmem
  rw [bare, String.toList_ofList, lastSegment, List.mem_reverse] at hmem
  have hall := List.all_eq_true.1 List.all_takeWhile _ hmem
  simp at hall

theorem isQualified_eq_false {name : String} (h : IsSegment name) : isQualified name = false := by
  simpa [isQualified, IsSegment] using h

theorem not_isSegment_qualify (scope name : String) : ¬ IsSegment (qualify scope name) := by
  intro h
  have hq := isQualified_eq_false h
  rw [isQualified_qualify] at hq
  cases hq

/-- An id tells its scope and its name. -/
theorem qualify_inj {scope scope' name name' : String} (hn : IsSegment name)
    (hn' : IsSegment name') :
    qualify scope name = qualify scope' name' ↔ scope = scope' ∧ name = name' := by
  constructor
  · intro h
    have hname : name = name' := by
      rw [← bare_qualify scope name hn, h, bare_qualify scope' name' hn']
    subst hname
    refine ⟨?_, rfl⟩
    rw [qualify, qualify, String.append_left_inj, String.append_left_inj] at h
    exact h
  · rintro ⟨rfl, rfl⟩
    rfl

/-! ## Blocks without names -/

/-- The kind of a block without a name. -/
def IsLabel (label : String) : Prop :=
  label = "while" ∨ label = "if" ∨ label = "elseif" ∨ label = "else"

/-- The digits of a number behind a label are those of the number. -/
theorem filter_isDigit_label {label : String} (h : IsLabel label) (n : Nat) :
    (label ++ toString n).toList.filter Char.isDigit = Nat.toDigits 10 n := by
  have hdigits : (Nat.toDigits 10 n).filter Char.isDigit = Nat.toDigits 10 n :=
    List.filter_eq_self.2 fun c hc => Nat.isDigit_of_mem_toDigits (by decide) (by decide) hc
  rw [String.toList_append, List.filter_append, Nat.toString_eq_repr, Nat.toList_repr, hdigits]
  rcases h with rfl | rfl | rfl | rfl <;> rfl

/-- A label and a number can be told apart again. -/
theorem label_number_inj {label label' : String} {m n : Nat} (h : IsLabel label)
    (h' : IsLabel label') (heq : label ++ toString m = label' ++ toString n) : m = n := by
  have hdigits : Nat.toDigits 10 m = Nat.toDigits 10 n := by
    rw [← filter_isDigit_label h, heq, filter_isDigit_label h']
  rw [← Nat.ofDigitChars_toDigits (b := 10) (n := m) (by decide) (by decide), hdigits,
    Nat.ofDigitChars_toDigits (by decide) (by decide)]

theorem isSegment_label_number {label : String} (h : IsLabel label) (n : Nat) :
    IsSegment (label ++ toString n) := by
  intro hmem
  rw [String.toList_append, List.mem_append, Nat.toString_eq_repr, Nat.toList_repr] at hmem
  rcases hmem with hmem | hmem
  · rcases h with rfl | rfl | rfl | rfl <;> revert hmem <;> decide
  · have hdigit := Nat.isDigit_of_mem_toDigits (by decide) (by decide) hmem
    revert hdigit
    decide

/-- The scope of a block without a name, whose number is at most `count`. -/
def Numbered (count : Nat) (scope : String) : Prop :=
  ∃ outer label n, scope = qualify outer (label ++ toString n) ∧ IsLabel label ∧ n ≤ count ∧
    isQualified outer = true

/-- The scope of the unit or of a block with a name in it. -/
def NamedIn (unit scope : String) : Prop :=
  scope = unit ∨ ∃ name, IsSegment name ∧ scope = qualify unit name

/-- A number that was given out stays one. -/
theorem Numbered.mono {count count' : Nat} {scope : String} (h : Numbered count scope)
    (hle : count ≤ count') : Numbered count' scope := by
  obtain ⟨outer, label, n, hscope, hlabel, hn, houter⟩ := h
  exact ⟨outer, label, n, hscope, hlabel, Nat.le_trans hn hle, houter⟩

/-- The scope of a numbered block stands under another. -/
theorem Numbered.isQualified {count : Nat} {scope : String} (h : Numbered count scope) :
    Name.isQualified scope = true := by
  obtain ⟨outer, label, n, rfl, -⟩ := h
  exact isQualified_qualify _ _

/-- The next number is given to one more block. -/
theorem numbered_next {outer label : String} (hlabel : IsLabel label)
    (houter : isQualified outer = true) (count : Nat) :
    Numbered (count + 1) (qualify outer (label ++ toString (count + 1))) :=
  ⟨outer, label, count + 1, rfl, hlabel, Nat.le_refl _, houter⟩

/-- A new number makes a new scope. -/
theorem not_numbered_next {outer label : String} (hlabel : IsLabel label) (count : Nat) :
    ¬ Numbered count (qualify outer (label ++ toString (count + 1))) := by
  rintro ⟨outer', label', n, hscope, hlabel', hn, -⟩
  have hname := ((qualify_inj (isSegment_label_number hlabel _)
    (isSegment_label_number hlabel' _)).1 hscope).2
  have hnumber := label_number_inj hlabel hlabel' hname
  omega

/-- A block without a name never has the scope of one with a name. -/
theorem Numbered.not_namedIn {unit scope : String} {count : Nat} (hunit : IsSegment unit)
    (h : Numbered count scope) : ¬ NamedIn unit scope := by
  obtain ⟨outer, label, n, rfl, hlabel, -, houter⟩ := h
  rintro (hscope | ⟨name, hname, hscope⟩)
  · rw [← hscope] at hunit
    exact not_isSegment_qualify _ _ hunit
  · rw [qualify_inj (isSegment_label_number hlabel n) hname] at hscope
    rw [hscope.1, isQualified_eq_false hunit] at houter
    cases houter

end Primer.Name
