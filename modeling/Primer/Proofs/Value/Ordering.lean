import Mathlib.Tactic.SplitIfs
import Primer.Operator.Meaning

/-!
# Primer.Proofs.Value.Ordering — texts among themselves and integers among themselves are ordered.

Integers are compared by their value and texts by their characters, one character counting as a text
of length one.  Both are the order of a key, so the laws of the six comparisons are proved once, for
any key (`comparesTotally_of_key`).  The order of texts is that of their code points, and that of
the bytes that stand for them in UTF-8.  Main statement: `BinaryOp.comparison_coherent`.

That code points and bytes agree is a statement about numbers: a text is a sequence of digits, in
the base of code points or in that of bytes, and the encoding of a character is determined by the
digits of its code point.  `utf8EncodeChar_append_lt_iff` compares two encoded characters with
anything behind them, and an induction on the texts does the rest.
-/

namespace Primer

/-! ## Code points and bytes -/

theorem Char.toNat_lt (c : Char) : c.toNat < 0x110000 := by
  have h := c.valid
  simp only [UInt32.isValidChar, Nat.isValidChar] at h
  show c.val.toNat < 0x110000
  omega

/-- Bytes that are given as numbers are compared as these. -/
theorem ofNat_cons_lt_iff {a b : Nat} (ha : a < 256) (hb : b < 256) (xs ys : List UInt8) :
    UInt8.ofNat a :: xs < UInt8.ofNat b :: ys ↔ a < b ∨ a = b ∧ xs < ys := by
  rw [List.cons_lt_cons_iff, UInt8.lt_iff_toNat_lt, ← UInt8.toNat_inj, UInt8.toNat_ofNat_of_lt' ha,
    UInt8.toNat_ofNat_of_lt' hb]

/-- Two numbers are compared by all digits to the base 64 but the last, and then by that. -/
theorem lt_iff_digits (a b : Nat) (rest : Prop) :
    (a / 64 < b / 64 ∨ a / 64 = b / 64 ∧ (a % 64 < b % 64 ∨ a % 64 = b % 64 ∧ rest))
      ↔ a < b ∨ a = b ∧ rest := by
  by_cases hrest : rest <;> simp only [hrest, and_true, and_false, or_false] <;> omega

/-- What comes behind different numbers does not count. -/
theorem lt_or_iff_of_ne {a b n m : Nat} {p q : Prop} (h : a < b ↔ n < m) (hab : a ≠ b)
    (hnm : n ≠ m) : (a < b ∨ a = b ∧ p) ↔ n < m ∨ n = m ∧ q := by
  simp only [hab, hnm, false_and, or_false, h]

/-- The bytes of the first characters decide, unless these are the same. -/
theorem utf8EncodeChar_append_lt_iff (c d : Char) (xs ys : List UInt8) :
    String.utf8EncodeChar c ++ xs < String.utf8EncodeChar d ++ ys
      ↔ c.toNat < d.toNat ∨ c.toNat = d.toNat ∧ xs < ys := by
  have hc := Char.toNat_lt c
  have hd := Char.toNat_lt d
  unfold String.utf8EncodeChar
  simp only [Char.toNat_val]
  generalize c.toNat = n at hc ⊢
  generalize d.toNat = m at hd ⊢
  split_ifs <;>
    simp (disch := omega) only [List.cons_append, List.nil_append, ofNat_cons_lt_iff,
      Nat.add_lt_add_iff_right, Nat.add_right_cancel_iff]
  -- characters of the same length are compared digit by digit
  rotate_left 4
  · have hn : n / 64 % 32 = n / 64 := Nat.mod_eq_of_lt (by omega)
    have hm : m / 64 % 32 = m / 64 := Nat.mod_eq_of_lt (by omega)
    rw [hn, hm, lt_iff_digits]
  rotate_left 4
  · have hn : n / 4096 % 16 = n / 64 / 64 := by omega
    have hm : m / 4096 % 16 = m / 64 / 64 := by omega
    rw [hn, hm, lt_iff_digits, lt_iff_digits]
  rotate_left 4
  · have hn : n / 262144 % 8 = n / 64 / 64 / 64 := by omega
    have hm : m / 262144 % 8 = m / 64 / 64 / 64 := by omega
    rw [hn, hm, ← Nat.div_div_eq_div_mul n 64 64, ← Nat.div_div_eq_div_mul m 64 64, lt_iff_digits,
      lt_iff_digits, lt_iff_digits]
  -- the leading byte tells different lengths apart
  all_goals exact lt_or_iff_of_ne (by omega) (by omega) (by omega)

/-- The bytes of texts are ordered as their code points are. -/
theorem utf8_lt_iff (cs ds : List Char) :
    cs.flatMap String.utf8EncodeChar < ds.flatMap String.utf8EncodeChar
      ↔ cs.map Char.toNat < ds.map Char.toNat := by
  induction cs generalizing ds with
  | nil =>
    cases ds with
    | nil => simp
    | cons d ds =>
      obtain ⟨b, bs, hb⟩ := List.exists_cons_of_ne_nil (String.utf8EncodeChar_ne_nil (c := d))
      simp [hb]
  | cons c cs ih =>
    cases ds with
    | nil => simp
    | cons d ds =>
      rw [List.flatMap_cons, List.flatMap_cons, utf8EncodeChar_append_lt_iff, ih, List.map_cons,
        List.map_cons, List.cons_lt_cons_iff]

/-- Texts are ordered as the lists of their code points. -/
theorem map_toNat_lt_iff (cs ds : List Char) : cs.map Char.toNat < ds.map Char.toNat ↔ cs < ds := by
  induction cs generalizing ds with
  | nil => cases ds <;> simp
  | cons c cs ih =>
    cases ds with
    | nil => simp
    | cons d ds =>
      rw [List.map_cons, List.map_cons, List.cons_lt_cons_iff, List.cons_lt_cons_iff, ih,
        Char.toNat_inj]
      rfl

/-! ## Values of one kind -/

namespace Value

/-- A character or a text. -/
def IsText : Value → Prop
  | char _ | string _ => True
  | integer _ | real _ | boolean _ | array .. => False

/-- A whole number. -/
def IsInteger : Value → Prop
  | integer _ => True
  | real _ | boolean _ | char _ | string _ | array .. => False

/-- A character as the text of this one character; any other value as it is. -/
def spelledOut : Value → Value
  | char c => string c.toString
  | v => v

/-- The characters of a text. -/
def letters : Value → List Char
  | char c => [c]
  | string s => s.toList
  | _ => []

/-- The code points of a text. -/
def codePoints (v : Value) : List Nat := v.letters.map Char.toNat

/-- The bytes of a text in UTF-8. -/
def utf8 (v : Value) : List UInt8 := v.letters.flatMap String.utf8EncodeChar

variable {l r t : Value}

/-- A text, or a character, as a text. -/
theorem IsText.characters?_eq (h : l.IsText) : l.characters? = some (String.ofList l.letters) := by
  cases l with
  | char c => rfl
  | string s => simp [characters?, letters]
  | _ => exact h.elim

/-- Two characters are ordered as the texts of one character are. -/
theorem compare_char (c d : Char) :
    compare (String.ofList [c]) (String.ofList [d]) = compare c d := by
  have hlt : String.ofList [c] < String.ofList [d] ↔ c < d := by
    rw [String.lt_iff, String.toList_ofList, String.toList_ofList]
    simp [List.cons_lt_cons_iff]
  have heq : String.ofList [c] = String.ofList [d] ↔ c = d := by
    rw [String.ofList_inj, List.singleton_inj]
  show compareOfLessAndEq _ _ = compareOfLessAndEq c d
  simp only [compareOfLessAndEq, hlt, heq]

/-- Characters and texts are ordered by their letters, whether the characters are compared
themselves or as texts. -/
theorem IsText.order?_eq (hl : l.IsText) (hr : r.IsText) :
    l.order? r = some (compare (String.ofList l.letters) (String.ofList r.letters)) := by
  have hnumber {v : Value} (hv : v.IsText) : v.number? = none := by
    cases v <;> first | rfl | exact hv.elim
  unfold order?
  split
  · exact hl.elim
  · simp only [hnumber hl]
    split
    · rw [letters, letters, compare_char]
    · simp only [hl.characters?_eq, hr.characters?_eq]

/-- A character that is spelled out is a text. -/
theorem IsText.spelledOut (h : l.IsText) : l.spelledOut.IsText := by
  cases l with
  | char c | string s => trivial
  | _ => exact h.elim

theorem letters_spelledOut (v : Value) : v.spelledOut.letters = v.letters := by
  cases v with
  | char c => simp [spelledOut, letters]
  | _ => rfl

/-- The value of a whole number. -/
def whole : Value → Int
  | integer n => n.val
  | _ => 0

theorem IsInteger.order?_eq (hl : l.IsInteger) (hr : r.IsInteger) :
    l.order? r = some (compare l.whole r.whole) := by
  cases l with
  | integer a =>
    cases r with
    | integer b => rfl
    | _ => exact hr.elim
  | _ => exact hl.elim

end Value

namespace BinaryOp

/-- The six comparisons. -/
def comparisons : List BinaryOp := [less, equal, greater, lessEqual, greaterEqual, notEqual]

/-- The comparison is true of these values. -/
def TrueOf (op : BinaryOp) (left right : Value) : Prop :=
  op.comparison left right = .ok (.boolean true)

/-- The six comparisons of these values are answered as by one total order. -/
structure ComparesTotally (l r t : Value) : Prop where
  answers : ∀ op ∈ comparisons, ∃ b, op.comparison l r = .ok (.boolean b)
  /-- Exactly one of less, equal and greater holds. -/
  trichotomy : (less.TrueOf l r ∧ ¬ equal.TrueOf l r ∧ ¬ greater.TrueOf l r) ∨
    (¬ less.TrueOf l r ∧ equal.TrueOf l r ∧ ¬ greater.TrueOf l r) ∨
    (¬ less.TrueOf l r ∧ ¬ equal.TrueOf l r ∧ greater.TrueOf l r)
  lessEqual_iff : lessEqual.TrueOf l r ↔ less.TrueOf l r ∨ equal.TrueOf l r
  greaterEqual_iff : greaterEqual.TrueOf l r ↔ ¬ less.TrueOf l r
  notEqual_iff : notEqual.TrueOf l r ↔ ¬ equal.TrueOf l r
  less_trans : less.TrueOf l r → less.TrueOf r t → less.TrueOf l t

variable {l r t : Value} {o : Ordering}

/-- Where two values have an order, each of the six comparisons reads its answer off it. -/
theorem comparison_of_order (h : l.order? r = some o) (op : BinaryOp) :
    op.comparison l r = .ok (.boolean (op.holds o)) := by
  simp only [comparison, h]

/-- Where two values have an order, a comparison is true if the order is one that it holds for. -/
theorem trueOf_iff_of_order (h : l.order? r = some o) (op : BinaryOp) :
    op.TrueOf l r ↔ op.holds o = true := by
  simp [TrueOf, comparison_of_order h]

/-- Values that are ordered by a key are compared as by one total order. -/
theorem comparesTotally_of_key {α : Type} [Ord α] [Std.TransOrd α] (key : Value → α)
    (hlr : l.order? r = some (compare (key l) (key r)))
    (hrt : r.order? t = some (compare (key r) (key t)))
    (hlt : l.order? t = some (compare (key l) (key t))) : ComparesTotally l r t where
  answers op _ := ⟨_, comparison_of_order hlr op⟩
  trichotomy := by
    simp only [trueOf_iff_of_order hlr]
    cases compare (key l) (key r) <;> decide
  lessEqual_iff := by
    simp only [trueOf_iff_of_order hlr]
    cases compare (key l) (key r) <;> decide
  greaterEqual_iff := by
    simp only [trueOf_iff_of_order hlr]
    cases compare (key l) (key r) <;> decide
  notEqual_iff := by
    simp only [trueOf_iff_of_order hlr]
    cases compare (key l) (key r) <;> decide
  less_trans := by
    simp only [trueOf_iff_of_order hlr, trueOf_iff_of_order hrt, trueOf_iff_of_order hlt, holds,
      Ordering.isLT_iff_eq_lt]
    exact Std.TransCmp.lt_trans

/-- Texts are in the order of their code points. -/
theorem less_trueOf_iff_codePoints (hl : l.IsText) (hr : r.IsText) :
    less.TrueOf l r ↔ l.codePoints < r.codePoints := by
  rw [trueOf_iff_of_order (hl.order?_eq hr), Value.codePoints, Value.codePoints, map_toNat_lt_iff,
    holds, Ordering.isLT_iff_eq_lt]
  refine compareOfLessAndEq_eq_lt.trans ?_
  rw [String.lt_iff, String.toList_ofList, String.toList_ofList]

/-- A character counts as the text of this one character. -/
theorem comparison_spelledOut (hl : l.IsText) (hr : r.IsText) (op : BinaryOp) :
    op.comparison l.spelledOut r.spelledOut = op.comparison l r ∧
      op.comparison l.spelledOut r = op.comparison l r ∧
      op.comparison l r.spelledOut = op.comparison l r := by
  have horder {v w : Value} (hv : v.IsText) (hw : w.IsText) (hvl : v.letters = l.letters)
      (hwr : w.letters = r.letters) : op.comparison v w = op.comparison l r := by
    rw [comparison_of_order (hv.order?_eq hw), comparison_of_order (hl.order?_eq hr), hvl, hwr]
  have hleft := l.letters_spelledOut
  have hright := r.letters_spelledOut
  exact ⟨horder hl.spelledOut hr.spelledOut hleft hright, horder hl.spelledOut hr hleft rfl,
    horder hl hr.spelledOut rfl hright⟩

/-- Three texts, or three integers, are compared as by one total order.  Integers are in the order
of their values.  Texts are in the order of their code points, which is also that of their bytes in
UTF-8, and it makes no difference to any operator whether a text of one character is given as a
character. -/
theorem comparison_coherent
    (h : (∀ v ∈ [l, r, t], v.IsText) ∨ ∀ v ∈ [l, r, t], v.IsInteger) :
    ComparesTotally l r t ∧
      (∀ a b, l = .integer a → r = .integer b → (less.TrueOf l r ↔ a.val < b.val)) ∧
      (l.IsText → r.IsText →
        (less.TrueOf l r ↔ l.codePoints < r.codePoints) ∧
        (less.TrueOf l r ↔ l.utf8 < r.utf8) ∧
        ∀ op : BinaryOp, op.comparison l.spelledOut r.spelledOut = op.comparison l r ∧
          op.comparison l.spelledOut r = op.comparison l r ∧
          op.comparison l r.spelledOut = op.comparison l r) := by
  refine ⟨?_, ?_, fun hl hr => ?_⟩
  · simp only [List.forall_mem_cons] at h
    rcases h with ⟨hl, hr, ht, -⟩ | ⟨hl, hr, ht, -⟩
    · exact comparesTotally_of_key (fun v => String.ofList v.letters) (hl.order?_eq hr)
        (hr.order?_eq ht) (hl.order?_eq ht)
    · exact comparesTotally_of_key Value.whole (hl.order?_eq hr) (hr.order?_eq ht) (hl.order?_eq ht)
  · rintro a b rfl rfl
    have horder : (Value.integer a).order? (.integer b) = some (compare a.val b.val) := rfl
    rw [trueOf_iff_of_order horder, holds, Ordering.isLT_iff_eq_lt, Std.compare_eq_lt]
  · have hcodes := less_trueOf_iff_codePoints hl hr
    exact ⟨hcodes, hcodes.trans (utf8_lt_iff _ _).symm, comparison_spelledOut hl hr⟩

/-- A character, a text that begins with it and a text of one character with a longer code. -/
theorem comparison_coherent_mixed :
    ComparesTotally (.char 'é') (.string "éa") (.string "𝄞") ∧
      less.TrueOf (.char 'é') (.string "éa") ∧ less.TrueOf (.string "éa") (.string "𝄞") := by
  have h := @comparison_coherent (.char 'é') (.string "éa") (.string "𝄞")
    (.inl (by simp [Value.IsText]))
  have h' := @comparison_coherent (.string "éa") (.string "𝄞") (.string "𝄞")
    (.inl (by simp [Value.IsText]))
  exact ⟨h.1, (h.2.2 trivial trivial).1.2 (by decide), (h'.2.2 trivial trivial).1.2 (by decide)⟩

end BinaryOp

end Primer
