import Primer.Proofs.Real.Shortest
import Primer.Proofs.Real.Sign

/-!
# Primer.Proofs.Real.Reading — the text of a real reads back.

A decimal that is written out in full is digits, and a point and more digits where there is a
fraction.  Read as a number they are the decimal again, and the double nearest to it is the one
that was written, because the shortest decimal is near it.

`Written cs v units fraction` says what a positional text is: digits, perhaps with a point and more
digits, that have the value `v`.  Zeros in front and behind are part of it, so the text that output
writes and the text that a program may contain are treated alike.

Main statement: `read?_text`.
-/

namespace Primer.Text

/-- A class of characters is taken as far as it goes. -/
theorem takeWhile_append_stop {p : Char → Bool} {cs rest : List Char}
    (hcs : ∀ c ∈ cs, p c = true) (hrest : ∀ c ∈ rest.head?, p c = false) :
    (cs ++ rest).takeWhile p = cs ∧ (cs ++ rest).dropWhile p = rest := by
  have hstop : rest.takeWhile p = [] ∧ rest.dropWhile p = rest := by
    cases rest with
    | nil => exact ⟨rfl, rfl⟩
    | cons c more =>
      have hc := hrest c rfl
      exact ⟨List.takeWhile_cons_of_neg (by simp [hc]), List.dropWhile_cons_of_neg (by simp [hc])⟩
  rw [List.takeWhile_append_of_pos hcs, List.dropWhile_append_of_pos hcs, hstop.1, hstop.2,
    List.append_nil]
  exact ⟨rfl, rfl⟩

/-! ## Digits -/

/-- The value of digits, as the library computes it. -/
theorem digitsValue_eq (cs : List Char) : digitsValue cs = Nat.ofDigitChars 10 cs 0 := rfl

/-- The digits of a number have its value. -/
theorem digitsValue_toDigits (n : Nat) : digitsValue (Nat.toDigits 10 n) = n := by
  rw [digitsValue_eq, Nat.ofDigitChars_ten_toDigits]

/-- Every zero behind the digits multiplies by ten. -/
theorem digitsValue_append_zeros (cs : List Char) (n : Nat) :
    digitsValue (cs ++ List.replicate n '0') = digitsValue cs * 10 ^ n := by
  rw [digitsValue_eq, Nat.ofDigitChars_append, Nat.ofDigitChars_replicate_zero, Nat.mul_comm,
    digitsValue_eq]

/-- Zeros in front of the digits change nothing. -/
theorem digitsValue_zeros_append (n : Nat) (cs : List Char) :
    digitsValue (List.replicate n '0' ++ cs) = digitsValue cs := by
  rw [digitsValue_eq, Nat.ofDigitChars_append, Nat.ofDigitChars_replicate_zero, Nat.mul_zero,
    digitsValue_eq]

/-- Only zeros are taken off the end. -/
theorem exists_dropTrailing_zeros (cs : List Char) :
    ∃ n, cs = dropTrailing (· == '0') cs ++ List.replicate n '0' := by
  refine ⟨(cs.reverse.takeWhile (· == '0')).length, ?_⟩
  have hzeros : cs.reverse.takeWhile (· == '0')
      = List.replicate (cs.reverse.takeWhile (· == '0')).length '0' := by
    refine List.eq_replicate_iff.2 ⟨rfl, fun c hc => ?_⟩
    exact eq_of_beq (List.all_eq_true.1 List.all_takeWhile c hc)
  have hsplit : (cs.reverse.takeWhile (· == '0') ++ cs.reverse.dropWhile (· == '0')).reverse
      = cs.reverse.reverse := congrArg List.reverse List.takeWhile_append_dropWhile
  rw [List.reverse_append, List.reverse_reverse, hzeros, List.reverse_replicate] at hsplit
  exact hsplit.symm

end Primer.Text

namespace Primer.Real

open Text

/-! ## Positional texts -/

/-- The digits behind the point, with the point, or nothing. -/
def pointed : List Char → List Char
  | [] => []
  | fraction => '.' :: fraction

/-- A number written as digits and a fraction: what it is written as, and its value. -/
structure Written (cs : List Char) (v : ℚ) (units fraction : List Char) : Prop where
  text_eq : cs = units ++ pointed fraction
  units_ne : units ≠ []
  units_digits : ∀ c ∈ units, c.isDigit = true
  fraction_digits : ∀ c ∈ fraction, c.isDigit = true
  value_eq : v = digitsValue (units ++ fraction) / 10 ^ fraction.length

theorem isDigit_of_mem_toDigits {n : Nat} {c : Char} (h : c ∈ Nat.toDigits 10 n) :
    c.isDigit = true :=
  Nat.isDigit_of_mem_toDigits (by decide) (by decide) h

theorem isDigit_of_mem_zeros {n : Nat} {c : Char} (h : c ∈ List.replicate n '0') :
    c.isDigit = true := by
  rw [List.eq_of_mem_replicate h]
  rfl

/-- A fraction is written without the zeros at its end. -/
theorem exists_written_fraction {units rest : List Char} (hne : units ≠ [])
    (hunits : ∀ c ∈ units, c.isDigit = true) (hrest : ∀ c ∈ rest, c.isDigit = true) :
    ∃ fraction, Written (units ++ fractionText rest)
      (digitsValue (units ++ rest) / 10 ^ rest.length) units fraction := by
  obtain ⟨n, hn⟩ := exists_dropTrailing_zeros rest
  refine ⟨dropTrailing (· == '0') rest, rfl, hne, hunits, fun c hc => hrest c ?_, ?_⟩
  · rw [hn]
    exact List.mem_append_left _ hc
  · generalize dropTrailing (· == '0') rest = kept at hn
    rw [hn, ← List.append_assoc, digitsValue_append_zeros, List.length_append,
      List.length_replicate, pow_add]
    push_cast
    field_simp

/-- A decimal is written out as digits and a fraction. -/
theorem exists_written (d : Decimal) :
    ∃ units fraction, Written d.positional d.value units fraction := by
  have hdigits : ∀ c ∈ Nat.toDigits 10 d.digits, c.isDigit = true :=
    fun c hc => isDigit_of_mem_toDigits hc
  have hvalue := digitsValue_toDigits d.digits
  have hne : Nat.toDigits 10 d.digits ≠ [] := Nat.toDigits_ne_nil
  rw [d.value_eq]
  unfold Decimal.positional
  generalize Nat.toDigits 10 d.digits = digits at hdigits hvalue hne
  dsimp only
  split
  · -- no point
    refine ⟨digits ++ List.replicate d.exponent.toNat '0', [], ?_, by simp [hne], ?_, by simp, ?_⟩
    · rw [pointed, List.append_nil]
    · intro c hc
      exact (List.mem_append.1 hc).elim (hdigits c) isDigit_of_mem_zeros
    · rw [List.append_nil, digitsValue_append_zeros, hvalue,
        show (-d.exponent).toNat = 0 by omega]
      simp
  · rename_i hnegative
    rw [show d.exponent.toNat = 0 by omega, pow_zero, mul_one]
    split
    · -- the point is among the digits
      rename_i hplaces
      have hunits : digits.take (digits.length - (-d.exponent).toNat) ≠ [] := by
        rw [Ne, List.take_eq_nil_iff, not_or]
        exact ⟨by omega, hne⟩
      obtain ⟨fraction, h⟩ := exists_written_fraction hunits
        (fun c hc => hdigits c (List.mem_of_mem_take hc))
        (fun c hc => hdigits c (List.mem_of_mem_drop hc))
      rw [List.take_append_drop, hvalue, List.length_drop,
        show digits.length - (digits.length - (-d.exponent).toNat) = (-d.exponent).toNat by omega]
        at h
      exact ⟨_, fraction, h⟩
    · -- the digits stand behind zeros
      rename_i hplaces
      have hrest : ∀ c ∈ List.replicate ((-d.exponent).toNat - digits.length) '0' ++ digits,
          c.isDigit = true :=
        fun c hc => (List.mem_append.1 hc).elim isDigit_of_mem_zeros (hdigits c)
      obtain ⟨fraction, h⟩ := exists_written_fraction (List.cons_ne_nil '0' []) (by simp) hrest
      have hzeros := digitsValue_zeros_append ((-d.exponent).toNat - digits.length + 1) digits
      rw [List.replicate_succ, hvalue] at hzeros
      rw [List.length_append, List.length_replicate,
        show (-d.exponent).toNat - digits.length + digits.length = (-d.exponent).toNat by omega,
        show digitsValue (['0'] ++ (List.replicate ((-d.exponent).toNat - digits.length) '0' ++
          digits)) = d.digits from hzeros] at h
      exact ⟨_, fraction, h⟩

/-! ## Reading -/

/-- Digits and a fraction are read as the number that they are. -/
theorem Written.readDecimal? {cs units fraction : List Char} {v : ℚ}
    (h : Written cs v units fraction) :
    Real.readDecimal? cs
      = some (ofDecimal (digitsValue (units ++ fraction)) (-fraction.length)) := by
  have hne : units.isEmpty = false := by simpa using h.units_ne
  unfold Real.readDecimal?
  rw [h.text_eq]
  cases hfraction : fraction with
  | nil =>
    have hpoint : ∀ c ∈ (pointed []).head?, c.isDigit = false := by simp [pointed]
    obtain ⟨htake, hdrop⟩ := takeWhile_append_stop h.units_digits hpoint
    rw [htake, hdrop]
    simp [pointed, hne, readExponent?]
  | cons c more =>
    have hmore := h.fraction_digits
    rw [hfraction] at hmore
    have hpoint : ∀ d ∈ (pointed (c :: more)).head?, d.isDigit = false := by simp [pointed]
    obtain ⟨htake, hdrop⟩ := takeWhile_append_stop h.units_digits hpoint
    have hend : ∀ c ∈ ([] : List Char).head?, c.isDigit = false := by simp
    obtain ⟨htake', hdrop'⟩ := takeWhile_append_stop hmore hend
    rw [List.append_nil] at htake' hdrop'
    rw [htake, hdrop]
    simp only [pointed]
    rw [htake', hdrop']
    simp [hne, readExponent?]

theorem toLower_of_isDigit {c : Char} (h : c.isDigit = true) : c.toLower = c := by
  rw [Char.isDigit, Bool.and_eq_true, decide_eq_true_eq, decide_eq_true_eq] at h
  unfold Char.toLower
  refine dif_neg fun hupper => ?_
  exact absurd (UInt32.le_trans hupper.1 h.2) (by decide)

/-- What starts with a digit is none of the words. -/
theorem readUnsigned?_of_isDigit {c : Char} (hc : c.isDigit = true) (cs : List Char) :
    readUnsigned? (c :: cs) = readDecimal? (c :: cs) := by
  have hword : ∀ (d : Char) (ds : List Char), d.isDigit = false →
      (c :: cs).map Char.toLower ≠ d :: ds := by
    intro d ds hd heq
    rw [List.map_cons, toLower_of_isDigit hc] at heq
    rw [(List.cons.inj heq).1, hd] at hc
    cases hc
  unfold readUnsigned?
  dsimp only
  rw [show "inf".toList = ['i', 'n', 'f'] from rfl,
    show "infinity".toList = 'i' :: "nfinity".toList from rfl,
    show "nan".toList = ['n', 'a', 'n'] from rfl,
    if_neg (not_or.2 ⟨hword 'i' _ rfl, hword 'i' _ rfl⟩), if_neg (hword 'n' _ rfl)]

/-- What starts with a digit has no sign. -/
theorem read?_of_isDigit {c : Char} (hc : c.isDigit = true) (cs : List Char) :
    read? (c :: cs) = readDecimal? (c :: cs) := by
  unfold read?
  split
  · rename_i heq
    rw [(List.cons.inj heq).1] at hc
    cases hc
  · rename_i heq
    rw [(List.cons.inj heq).1] at hc
    cases hc
  · exact readUnsigned?_of_isDigit hc cs

namespace Written

variable {cs units fraction : List Char} {v : ℚ} (h : Written cs v units fraction)
include h

theorem exists_cons : ∃ c more, cs = c :: more ∧ c.isDigit = true := by
  have hne := h.units_ne
  have hdigits := h.units_digits
  rw [h.text_eq]
  cases units with
  | nil => exact absurd rfl hne
  | cons c more => exact ⟨c, _, rfl, hdigits c List.mem_cons_self⟩

theorem read? : Real.read? cs = Real.readDecimal? cs := by
  obtain ⟨c, more, rfl, hc⟩ := h.exists_cons
  exact read?_of_isDigit hc more

/-- With a minus sign in front the negated number is read. -/
theorem read?_minus :
    Real.read? ('-' :: cs) = (Real.readDecimal? cs).map fun x => -x := by
  obtain ⟨c, more, rfl, hc⟩ := h.exists_cons
  rw [← readUnsigned?_of_isDigit hc]
  rfl

end Written

/-- The magnitude of a double, written out in full, is read as the double without its sign. -/
theorem readDecimal?_shortest {b : Binary} (hb : b.Proper) :
    readDecimal? b.shortest.positional = some hb.double := by
  obtain ⟨units, fraction, h⟩ := exists_written b.shortest
  have hnear := shortest_near hb
  rw [h.value_eq] at hnear
  rw [h.readDecimal?, ofDecimal_near hb hnear]

/-- Zero is written as one digit. -/
theorem readDecimal?_zero {b : Binary} (h : b.significand = 0) :
    readDecimal? b.shortest.positional = some 0.0 := by
  unfold Binary.shortest
  rw [if_pos h]
  rfl

/-- The text of a finite double, digits with a sign, reads back as the double. -/
theorem read?_text {x : Float} (h : isFinite x = true) : read? (text x).toList = some x := by
  obtain ⟨b, hx⟩ := Option.isSome_iff_exists.1 h
  obtain ⟨units, fraction, hwritten⟩ := exists_written b.shortest
  -- the sign stands in front of the magnitude
  have hsigned : ∀ y, readDecimal? b.shortest.positional = some y →
      x = (if b.negative then -y else y) → read? (text x).toList = some x := by
    intro y hy hxy
    rw [text, hx]
    dsimp only
    rw [String.toList_ofList]
    split at hxy
    · rename_i hnegative
      rw [if_pos hnegative, hwritten.read?_minus, hy, hxy]
      rfl
    · rename_i hpositive
      rw [if_neg hpositive, hwritten.read?, hy, hxy]
  obtain ⟨hcode, hzero | hb⟩ := ofFloat?_some hx
  · refine hsigned _ (readDecimal?_zero hzero) (float_eq (hcode.trans ?_))
    have hsmall : b.significand < hiddenBit := by
      rw [hzero]
      decide
    rw [Binary.code, if_pos hsmall, hzero]
    cases b.negative <;> decide +kernel
  · exact hsigned _ (readDecimal?_shortest hb) (eq_double hx hb)

/-! ## Fractions -/

/-- The double is no whole number. -/
def hasFraction (x : Float) : Bool :=
  (Binary.ofFloat? x).any fun b => b.significand % 2 ^ (-b.exponent).toNat != 0

theorem isFinite_of_hasFraction {x : Float} (h : hasFraction x = true) : isFinite x = true := by
  obtain ⟨b, hx, -⟩ := (Option.any_eq_true _ _).1 h
  exact Option.isSome_iff_exists.2 ⟨b, hx⟩

/-- A whole number near a double is the double itself. -/
theorem Binary.Near.dvd {b : Binary} {n : Nat} (h : b.Near n) :
    b.significand % 2 ^ (-b.exponent).toNat = 0 := by
  by_cases hexponent : 0 ≤ b.exponent
  · rw [show (-b.exponent).toNat = 0 by omega, pow_zero, Nat.mod_one]
  · obtain ⟨k, hk⟩ : ∃ k : Nat, b.exponent = -k := ⟨(-b.exponent).toNat, by omega⟩
    have hlow := h.half_low
    have hhigh := h.high
    have hscale : (0 : ℚ) < 2 ^ k := by positivity
    rw [hk, zpow_neg, zpow_natCast, mul_inv_le_iff₀ hscale] at hlow
    rw [hk, zpow_neg, zpow_natCast, le_mul_inv_iff₀ hscale] at hhigh
    have heq : b.significand = n * 2 ^ k := by
      refine le_antisymm (Nat.lt_succ_iff.1 ?_) (Nat.lt_succ_iff.1 ?_)
      · have : (b.significand : ℚ) < n * 2 ^ k + 1 := by linarith
        exact_mod_cast this
      · have : (n * 2 ^ k : ℚ) < b.significand + 1 := by linarith
        exact_mod_cast this
    rw [heq, hk, show (- -(k : Int)).toNat = k by omega, Nat.mul_mod_left]

/-- A double that is no whole number is written with a point and digits on both sides of it. -/
theorem exists_text_pointed {x : Float} (hfraction : hasFraction x = true)
    (hsign : Unsigned x) :
    ∃ units fraction, (text x).toList = units ++ '.' :: fraction ∧ units ≠ [] ∧ fraction ≠ [] ∧
      (∀ c ∈ units, c.isDigit = true) ∧ ∀ c ∈ fraction, c.isDigit = true := by
  obtain ⟨b, hx, hb⟩ := (Option.any_eq_true _ _).1 hfraction
  rw [bne_iff_ne] at hb
  have hproper := (ofFloat?_some hx).2.resolve_left fun hzero => hb (by rw [hzero, Nat.zero_mod])
  have hpositive : b.negative = false := by
    rw [negative_eq hx]
    exact decide_eq_false (Nat.not_le.2 hsign)
  obtain ⟨units, fraction, h⟩ := exists_written b.shortest
  have hne : fraction ≠ [] := by
    rintro rfl
    have hnear := shortest_near hproper
    rw [h.value_eq, List.length_nil, pow_zero, div_one] at hnear
    exact hb hnear.dvd
  refine ⟨units, fraction, ?_, h.units_ne, hne, h.units_digits, h.fraction_digits⟩
  rw [text, hx]
  dsimp only
  rw [hpositive, String.toList_ofList, if_neg Bool.false_ne_true, h.text_eq]
  cases fraction with
  | nil => exact absurd rfl hne
  | cons => rfl

end Primer.Real
