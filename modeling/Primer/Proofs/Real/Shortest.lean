import Primer.Proofs.Real.Nearest

/-!
# Primer.Proofs.Real.Shortest — the shortest decimal is near its double.

The interval of `Binary.interval` holds just the decimals that round to the double.  On the grid of
seventeen digits one of the two neighbours of the exact value is in it, so the search ends with a
decimal that reads back: `shortest_near`.

The search goes through exponents downwards, and on the grid of each one looks at the neighbours of
the exact value.  Which decimals are in the interval is decided on whole numbers, after scaling;
`holds_interval_iff` says what this means for the decimal as a rational number.  That the search
ends is due to the gap between doubles, which is larger than the gap of the grid of seventeen
digits.
-/

namespace Primer.Real

/-- The number that a decimal is. -/
def Decimal.value (d : Decimal) : ℚ := d.digits * 10 ^ d.exponent

/-- The value of a decimal, as a quotient. -/
theorem Decimal.value_eq (d : Decimal) :
    d.value = d.digits * 10 ^ d.exponent.toNat / 10 ^ (-d.exponent).toNat := by
  rw [value, zpow_eq_div (by norm_num), mul_div_assoc]

/-! ## The interval -/

section

variable {b : Binary} (hb : b.Proper)
include hb

/-- The interval holds the decimals that the double is read from. -/
theorem holds_interval_iff (d : Decimal) : b.interval.holds d = true ↔ b.Near d.value := by
  have hbelow : ((4 * b.significand - if b.halfGapBelow then 1 else 2 : Nat) : ℚ)
      = 4 * (b.significand - b.reach) := by
    have hpositive := hb.positive
    unfold Binary.reach
    split
    · rw [Nat.cast_sub (by omega)]
      push_cast
      ring
    · rw [Nat.cast_sub (by omega)]
      push_cast
      ring
  -- both sides of a comparison over their own denominators
  have hcompare : ∀ (v : ℚ) (n : Nat), n = 4 * v * 2 ^ b.exponent.toNat →
      (v * 2 ^ b.exponent ≤ d.value ↔ n * 10 ^ (-d.exponent).toNat
        ≤ d.digits * 10 ^ d.exponent.toNat * (4 * 2 ^ (-b.exponent).toNat)) ∧
      (d.value ≤ v * 2 ^ b.exponent ↔ d.digits * 10 ^ d.exponent.toNat *
        (4 * 2 ^ (-b.exponent).toNat) ≤ n * 10 ^ (-d.exponent).toNat) := by
    intro v n hn
    rw [d.value_eq, zpow_eq_div two_ne_zero, ← mul_div_assoc,
      div_le_div_iff₀ (by positivity) (by positivity),
      div_le_div_iff₀ (by positivity) (by positivity)]
    rw [← @Nat.cast_le ℚ, ← @Nat.cast_le ℚ]
    push_cast
    rw [hn]
    constructor <;> constructor <;> intro h <;> linarith
  obtain ⟨hlow, hlow'⟩ := hcompare (b.significand - b.reach)
    ((4 * b.significand - if b.halfGapBelow then 1 else 2) * 2 ^ b.exponent.toNat)
    (by rw [Nat.cast_mul, hbelow]; push_cast; ring)
  obtain ⟨hhigh, hhigh'⟩ := hcompare (b.significand + 1 / 2)
    ((4 * b.significand + 2) * 2 ^ b.exponent.toNat) (by push_cast; ring)
  unfold Interval.holds Binary.interval Binary.Near
  dsimp only [Nat.pow_eq]
  by_cases heven : b.significand % 2 = 0
  · rw [if_pos (by simpa using heven), if_pos heven, decide_eq_true_eq, hlow, hhigh']
  · rw [if_neg (by simpa using heven), if_neg heven, decide_eq_true_eq, ← not_le, ← not_le,
      ← not_le, ← not_le, hlow', hhigh]

/-- A value is near a double that is not further away than half a unit in seventeen digits. -/
theorem near_of_close {v : ℚ} (hlow : b.magnitude - b.magnitude / 2 ^ 54 < v)
    (hhigh : v < b.magnitude + b.magnitude / 2 ^ 54) : b.Near v := by
  have hscale : (0 : ℚ) < 2 ^ b.exponent := by positivity
  have hsmall : (b.significand : ℚ) < 2 ^ 53 := by exact_mod_cast hb.small
  have hunit : b.magnitude / 2 ^ 54 ≤ 1 / 2 * 2 ^ b.exponent := by
    rw [Binary.magnitude, mul_div_right_comm]
    refine mul_le_mul_of_nonneg_right ?_ hscale.le
    linarith
  have hreach : b.magnitude / 2 ^ 54 ≤ b.reach * 2 ^ b.exponent := by
    unfold Binary.reach
    split
    · rename_i hgap
      rw [Binary.magnitude, (hb.gap.1 hgap).1, mul_div_right_comm]
      norm_num [hiddenBit]
    · exact hunit
  have hlow : (b.significand - b.reach) * 2 ^ b.exponent < v := by
    rw [sub_mul]
    exact lt_of_le_of_lt (sub_le_sub_left hreach _) hlow
  have hhigh : v < (b.significand + 1 / 2) * 2 ^ b.exponent := by
    rw [add_mul]
    exact lt_of_lt_of_le hhigh (add_le_add_right hunit _)
  unfold Binary.Near
  split
  · exact ⟨hlow.le, hhigh.le⟩
  · exact ⟨hlow, hhigh⟩

end

/-! ## The grid of seventeen digits -/

/-- The digits of a whole part that is not zero bound the number from both sides. -/
theorem length_toDigits_bounds {num den : Nat} (hden : 0 < den) (h : den ≤ num) :
    (10 : ℚ) ^ (((Nat.toDigits 10 (num / den)).length : Int) - 1) ≤ num / den ∧
    (num / den : ℚ) < 10 ^ ((Nat.toDigits 10 (num / den)).length : Int) := by
  have hpositive : (0 : ℚ) < den := by exact_mod_cast hden
  have hone : 0 < num / den := Nat.div_pos h hden
  have hlength := Nat.length_toDigits_pos (b := 10) (n := num / den)
  have hhigh := (Nat.length_toDigits_le_iff (b := 10) (by decide) hlength).1 (le_refl _)
  generalize hl : (Nat.toDigits 10 (num / den)).length = l at hlength hhigh
  obtain ⟨k, rfl⟩ : ∃ k, l = k + 1 := ⟨l - 1, by omega⟩
  have hlow : 10 ^ k ≤ num / den := by
    rcases Nat.eq_zero_or_pos k with rfl | hk
    · exact hone
    · by_contra hless
      have hshort := (Nat.length_toDigits_le_iff (b := 10) (by decide) hk).2 (Nat.not_le.1 hless)
      omega
  constructor
  · rw [Nat.cast_add, Nat.cast_one, add_sub_cancel_right, zpow_natCast, le_div_iff₀ hpositive]
    exact_mod_cast (Nat.le_div_iff_mul_le hden).1 hlow
  · rw [zpow_natCast, div_lt_iff₀ hpositive]
    exact_mod_cast (Nat.div_lt_iff_lt_mul hden).1 hhigh

/-- So do the digits behind the point, when the point is moved. -/
theorem length_toDigits_shifted {num den power : Nat} {places : Int}
    (hpower : (power : ℚ) = 10 ^ places) (hden : 0 < den) (hlarge : (den : ℚ) ≤ num * 10 ^ places) :
    (10 : ℚ) ^ (((Nat.toDigits 10 (num * power / den)).length : Int) - places - 1) ≤ num / den ∧
    (num / den : ℚ) < 10 ^ ((Nat.toDigits 10 (num * power / den)).length - places : Int) := by
  have h : den ≤ num * power := by
    rw [← hpower] at hlarge
    exact_mod_cast hlarge
  obtain ⟨hlow, hhigh⟩ := length_toDigits_bounds hden h
  rw [Nat.cast_mul, hpower, mul_div_right_comm] at hlow hhigh
  have hshift : ∀ e : Int, (10 : ℚ) ^ (e - places) = 10 ^ e / 10 ^ places :=
    fun e => zpow_sub₀ (by norm_num) e places
  rw [sub_right_comm, hshift, hshift, div_le_iff₀ (by positivity), lt_div_iff₀ (by positivity)]
  exact ⟨hlow, hhigh⟩

theorem cast_pow_ten (k : Nat) : ((Nat.pow 10 k : Nat) : ℚ) = 10 ^ (k : Int) := by
  rw [zpow_natCast]
  exact Nat.cast_pow 10 k

/-- The number of digits in front of the point bounds the quotient from both sides. -/
theorem magnitude_bounds {num den : Nat} (hden : 0 < den)
    (hlarge : (den : ℚ) ≤ num * 10 ^ (400 : Int)) :
    (10 : ℚ) ^ (magnitude num den - 1) ≤ num / den ∧ (num / den : ℚ) < 10 ^ magnitude num den := by
  unfold magnitude
  split
  · exact length_toDigits_bounds hden (by assumption)
  · rw [show (400 : Int) = (400 : Nat) from rfl] at hlarge ⊢
    generalize (400 : Nat) = places at hlarge ⊢
    exact length_toDigits_shifted (cast_pow_ten places) hden hlarge

namespace Interval

variable {i : Interval} {exponent : Int} {d : Decimal}

/-- What is found on a grid is in the interval. -/
theorem holds_of_onGrid? (h : i.onGrid? exponent = some d) : i.holds d = true := by
  unfold onGrid? at h
  dsimp only at h
  split at h
  · rename_i hbelow
    split at h
    · rename_i habove
      cases h
      exact (Bool.and_eq_true_iff.1 habove).1
    · cases h
      exact hbelow
  · split at h
    · rename_i habove
      cases h
      exact habove
    · cases h

/-- If one of the neighbours is in the interval, something is found. -/
theorem exists_onGrid? (h : i.holds (i.neighbours exponent).1 = true ∨
    i.holds (i.neighbours exponent).2 = true) : ∃ d, i.onGrid? exponent = some d := by
  unfold onGrid?
  dsimp only
  split
  · split <;> exact ⟨_, rfl⟩
  · rename_i hbelow
    exact ⟨_, if_pos (h.resolve_left hbelow)⟩

/-- The search comes to the grid of seventeen digits at the latest. -/
theorem search_holds {top : Int} (h : ∃ d, i.onGrid? (top - 17) = some d) :
    ∀ {tries count : Nat}, count ≤ 17 → 17 < count + tries →
      i.holds (i.search top count tries) = true := by
  intro tries
  induction tries with
  | zero =>
    intro count hle hlt
    omega
  | succ tries ih =>
    intro count hle hlt
    rw [search]
    split
    · rename_i hfound
      exact holds_of_onGrid? hfound
    · rename_i hnone
      refine ih (Nat.lt_of_le_of_ne hle fun hlast => ?_) (by omega)
      obtain ⟨d, hd⟩ := h
      rw [hlast, show top - ((17 : Nat) : Int) = top - 17 from rfl, hd] at hnone
      cases hnone

/-- The exact value lies between its neighbours, which are one step of the grid apart. -/
theorem neighbours_bounds (hscale : 0 < i.scale) (exponent : Int) :
    (i.neighbours exponent).1.value ≤ i.value / i.scale ∧
    (i.value / i.scale : ℚ) < (i.neighbours exponent).2.value ∧
    (i.neighbours exponent).2.value = (i.neighbours exponent).1.value + 10 ^ exponent := by
  have hpositive : (0 : ℚ) < i.scale := by exact_mod_cast hscale
  have hden : 0 < i.scale * 10 ^ exponent.toNat := by positivity
  have hgrid : (i.value / i.scale : ℚ) = (i.value * 10 ^ (-exponent).toNat : Nat)
      / (i.scale * 10 ^ exponent.toNat : Nat) * 10 ^ exponent := by
    rw [zpow_eq_div (by norm_num)]
    push_cast
    field_simp
  have hstep : (0 : ℚ) < 10 ^ exponent := by positivity
  have hden' : (0 : ℚ) < (i.scale * 10 ^ exponent.toNat : Nat) := by exact_mod_cast hden
  unfold neighbours Decimal.value
  dsimp only [Nat.pow_eq]
  refine ⟨?_, ?_, by push_cast; ring⟩
  · rw [hgrid]
    refine mul_le_mul_of_nonneg_right ?_ hstep.le
    rw [le_div_iff₀ hden']
    exact_mod_cast Nat.div_mul_le_self _ _
  · rw [hgrid]
    refine mul_lt_mul_of_pos_right ?_ hstep
    rw [div_lt_iff₀ hden']
    have hfloor := Nat.lt_mul_div_succ (i.value * 10 ^ (-exponent).toNat) hden
    rw [Nat.mul_comm (i.scale * _)] at hfloor
    exact_mod_cast hfloor

end Interval

/-- The interval lies around the value of the double. -/
theorem interval_value (b : Binary) :
    (b.interval.value / b.interval.scale : ℚ) = b.magnitude := by
  rw [b.magnitude_eq]
  unfold Binary.interval
  dsimp only [Nat.pow_eq]
  push_cast
  rw [mul_assoc, mul_div_mul_left _ _ (by norm_num)]

/-- Whole numbers are compared after scaling with a positive number. -/
theorem scale_pos (b : Binary) : 0 < b.interval.scale :=
  Nat.mul_pos (by decide) (Nat.two_pow_pos _)

section

variable {b : Binary} (hb : b.Proper)
include hb

/-- One of the neighbours in seventeen digits is close to the exact value. -/
theorem exists_onGrid?_interval {top : Int} (htop : (10 : ℚ) ^ (top - 1) ≤ b.magnitude) :
    ∃ d, b.interval.onGrid? (top - 17) = some d := by
  have hstep : (10 : ℚ) ^ (top - 17) / 2 < b.magnitude / 2 ^ 54 := by
    have hgrid : (10 : ℚ) ^ (top - 17) = 10 ^ (top - 1) / 10 ^ 16 := by
      rw [show top - 17 = top - 1 - 16 by omega, zpow_sub₀ (by norm_num)]
      rfl
    have hpositive : (0 : ℚ) < 10 ^ (top - 1) := by positivity
    rw [hgrid]
    norm_num
    linarith
  obtain ⟨hlow, hhigh, hnext⟩ := Interval.neighbours_bounds (scale_pos b) (top - 17)
  rw [interval_value b] at hlow hhigh
  refine Interval.exists_onGrid? ?_
  rw [holds_interval_iff hb, holds_interval_iff hb]
  rcases lt_or_ge (b.magnitude - 10 ^ (top - 17) / 2)
    (b.interval.neighbours (top - 17)).1.value with hbelow | habove
  · exact Or.inl (near_of_close hb (by linarith) (by linarith))
  · exact Or.inr (near_of_close hb (by linarith) (by linarith))

/-- The shortest decimal reads back as the magnitude of the double. -/
theorem shortest_near : b.Near b.shortest.value := by
  have hvalue := interval_value b
  have hscale : (0 : ℚ) < b.interval.scale := by exact_mod_cast scale_pos b
  have hlarge : (b.interval.scale : ℚ) ≤ b.interval.value * 10 ^ (400 : Int) := by
    have hlow := (b.near_magnitude.bounds hb).1
    rw [← hvalue, div_le_div_iff₀ (by positivity) hscale, one_mul] at hlow
    have hpowers : (2 : ℚ) ^ 1075 ≤ 10 ^ (400 : Int) :=
      (pow_le_pow_right₀ one_le_two (by norm_num)).trans two_pow_le_ten_pow
    exact hlow.trans (mul_le_mul_of_nonneg_left hpowers (Nat.cast_nonneg _))
  obtain ⟨htop, -⟩ := magnitude_bounds (scale_pos b) hlarge
  rw [hvalue] at htop
  rw [← holds_interval_iff hb]
  unfold Binary.shortest
  rw [if_neg hb.positive.ne']
  exact Interval.search_holds (exists_onGrid?_interval hb htop) (by decide) (by decide)

end

end Primer.Real
