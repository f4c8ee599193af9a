import Primer.Proofs.Real.Packing
import Primer.Real.Text

/-!
# Primer.Proofs.Real.Nearest — reading a decimal finds the nearest double.

A decimal is a whole number, times or divided by a power of ten.  Where both are small enough to be
doubles without rounding, the quotient or product of doubles is rounded once (`ofScientific_fast`);
otherwise whole numbers are divided with two bits to spare (`ofScientific_slow`).  In both cases a
double that the decimal is near is what comes out, and a decimal that is near a double has bounded
digits and a bounded exponent, so no other case arises (`places_le`, `length_toDigits_le`).
-/

namespace Primer.Real

open Float.Model Float.Model.UnpackedFloat

/-! ## Powers -/

/-- A power with an exponent of either sign, as a quotient. -/
theorem zpow_eq_div {a : ℚ} (ha : a ≠ 0) (e : Int) : a ^ e = a ^ e.toNat / a ^ (-e).toNat := by
  rw [← zpow_natCast, ← zpow_natCast, ← zpow_sub₀ ha]
  congr 1
  omega

/-! ## Quotients and products -/

/-- A quotient is formed with all the digits of a double, unless they are too small for one. -/
theorem divCore_eq {m₁ m₂ : Nat} (h₁ : 0 < m₁) (h₂ : 0 < m₂) (e₁ e₂ : Int) :
    ∃ (shift : Nat) (e : Int), shift + e = e₁ - e₂ ∧
      divCore Format.binary64 m₁ e₁ m₂ e₂
        = (m₁ * 2 ^ shift / m₂, e, accuracyOfFraction (m₁ * 2 ^ shift % m₂) m₂) ∧
      (-1074 < e → hiddenBit ≤ m₁ * 2 ^ shift / m₂) := by
  unfold divCore
  rw [targetExponent_eq, totalExponent, totalExponent]
  generalize he : min (e₁ - e₂)
    (max ((m₁.log2 : Int) + 1 + e₁ - (m₂.log2 + 1 + e₂) - 53) (-1074)) = e
  refine ⟨(e₁ - e₂ - e).toNat, e, by omega, by simp only [Nat.shiftLeft_eq], fun hleast => ?_⟩
  rw [Nat.le_div_iff_mul_le h₂]
  calc hiddenBit * m₂ ≤ hiddenBit * 2 ^ (m₂.log2 + 1) :=
        Nat.mul_le_mul_left _ Nat.lt_log2_self.le
    _ = 2 ^ (m₂.log2 + 53) := by rw [show hiddenBit = 2 ^ 52 by norm_num [hiddenBit]]; ring
    _ ≤ 2 ^ (m₁.log2 + (e₁ - e₂ - e).toNat) := Nat.pow_le_pow_right (by decide) (by omega)
    _ = 2 ^ m₁.log2 * 2 ^ (e₁ - e₂ - e).toNat := Nat.pow_add _ _ _
    _ ≤ m₁ * 2 ^ (e₁ - e₂ - e).toNat := Nat.mul_le_mul_right _ (Nat.log2_self_le h₁.ne')

/-- A quotient is rounded to the double that it is near. -/
theorem div_near {b : Binary} (hb : b.Proper) {m₁ m₂ : Nat} (h₁ : 0 < m₁) (h₂ : 0 < m₂)
    {e₁ e₂ : Int} (hnear : b.Near (m₁ * 2 ^ e₁ / (m₂ * 2 ^ e₂))) (s₁ s₂ : Sign) :
    UnpackedFloat.div Format.binary64 (.finite s₁ m₁ e₁ h₁) (.finite s₂ m₂ e₂ h₂)
      = .finite (s₁ / s₂) b.significand b.exponent hb.positive := by
  obtain ⟨shift, e, hshift, hcore, hfull⟩ := divCore_eq h₁ h₂ e₁ e₂
  have hlog : -1074 < e → 52 ≤ (m₁ * 2 ^ shift / m₂).log2 := by
    intro hleast
    have hfull := hfull hleast
    exact (Nat.le_log2 (by unfold hiddenBit at hfull; omega)).2 hfull
  have hvalue : (m₁ * 2 ^ e₁ / (m₂ * 2 ^ e₂) : ℚ)
      = (m₁ * 2 ^ shift : Nat) / (m₂ : ℚ) * 2 ^ e := by
    rw [show e₁ = shift + e + e₂ by omega, zpow_add₀ two_ne_zero, zpow_add₀ two_ne_zero,
      zpow_natCast]
    push_cast
    field_simp
  unfold UnpackedFloat.div
  dsimp only
  rw [hcore]
  refine roundWithAccuracy_near hb hnear (Describes.quotient _ h₂) hvalue ?_ (fun hzero => ?_) _
  · rw [targetExponent_eq, totalExponent]
    omega
  · rw [hzero] at hlog ⊢
    rw [targetExponent_eq, totalExponent]
    simp at hlog ⊢
    omega

/-- A product with all digits of a double is rounded to the double that it is near. -/
theorem mul_near {b : Binary} (hb : b.Proper) {m₁ m₂ : Nat} (h₁ : 0 < m₁) (h₂ : 0 < m₂)
    {e₁ e₂ : Int} (hnear : b.Near (m₁ * 2 ^ e₁ * (m₂ * 2 ^ e₂))) (hfull : hiddenBit ≤ m₁ * m₂)
    (s₁ s₂ : Sign) :
    UnpackedFloat.mul Format.binary64 (.finite s₁ m₁ e₁ h₁) (.finite s₂ m₂ e₂ h₂)
      = .finite (s₁ * s₂) b.significand b.exponent hb.positive := by
  have hpositive : m₁ * m₂ ≠ 0 := (Nat.mul_pos h₁ h₂).ne'
  have hlog : 52 ≤ (m₁ * m₂).log2 := (Nat.le_log2 hpositive).2 hfull
  have hvalue : (m₁ * 2 ^ e₁ * (m₂ * 2 ^ e₂) : ℚ) = (m₁ * m₂ : Nat) * 2 ^ (e₁ + e₂) := by
    rw [zpow_add₀ two_ne_zero]
    push_cast
    ring
  unfold UnpackedFloat.mul
  refine roundWithAccuracy_near hb hnear (Describes.exact _) hvalue ?_
    (fun h => absurd h hpositive) _
  rw [targetExponent_eq, totalExponent]
  omega

/-! ## Whole numbers and powers of ten -/

/-- The value of a double is near it. -/
theorem Binary.near_magnitude (b : Binary) : b.Near b.magnitude := by
  have hscale : (0 : ℚ) < 2 ^ b.exponent := by positivity
  have hreach : 0 < b.reach := by
    unfold reach
    split <;> norm_num
  have hlow : (b.significand - b.reach) * 2 ^ b.exponent < b.magnitude :=
    mul_lt_mul_of_pos_right (sub_lt_self _ hreach) hscale
  have hhigh : b.magnitude < (b.significand + 1 / 2) * 2 ^ b.exponent :=
    mul_lt_mul_of_pos_right (lt_add_of_pos_right _ (by norm_num)) hscale
  unfold Near
  split
  · exact ⟨hlow.le, hhigh.le⟩
  · exact ⟨hlow, hhigh⟩

/-- A natural number with all digits of a double. -/
def Binary.ofNat (n : Nat) : Binary :=
  { negative := false
    significand := n * 2 ^ (52 - n.log2)
    exponent := n.log2 - 52
    halfGapBelow := decide (n * 2 ^ (52 - n.log2) = hiddenBit) }

section

variable {n : Nat} (hn : 0 < n) (hsmall : n < 2 * hiddenBit)
include hn hsmall

/-- A number below the hidden bit's double has so many bits. -/
theorem log2_le_of_small : n.log2 ≤ 52 :=
  Nat.lt_succ_iff.1 ((Nat.log2_lt (k := 53) hn.ne').2 hsmall)

/-- A small whole number is a double of the normal kind. -/
theorem Binary.proper_ofNat : (Binary.ofNat n).Proper := by
  have hlog := log2_le_of_small hn hsmall
  have hpower : 2 ^ n.log2 * 2 ^ (52 - n.log2) = hiddenBit := by
    rw [← Nat.pow_add, Nat.add_sub_cancel' hlog]
    rfl
  have hlow := Nat.mul_le_mul_right (2 ^ (52 - n.log2)) (Nat.log2_self_le hn.ne')
  have hhigh := Nat.mul_lt_mul_of_pos_right (Nat.lt_log2_self (n := n))
    (Nat.two_pow_pos (52 - n.log2))
  rw [hpower] at hlow
  rw [Nat.pow_succ, Nat.mul_right_comm, hpower] at hhigh
  refine ⟨Nat.mul_pos hn (Nat.two_pow_pos _), by simp only [ofNat]; omega, ?_, ?_, Or.inr hlow, ?_⟩
  all_goals simp only [ofNat, decide_eq_true_eq]
  all_goals omega

theorem Binary.magnitude_ofNat : (Binary.ofNat n).magnitude = n := by
  have hlog := log2_le_of_small hn hsmall
  rw [magnitude, ofNat]
  dsimp only
  rw [show ((n.log2 : Int) - 52) = -((52 - n.log2 : Nat) : Int) by omega, zpow_neg, zpow_natCast]
  push_cast
  rw [mul_assoc, mul_inv_cancel₀ (by positivity), mul_one]

/-- A natural number that fits into the digits of a double is a double. -/
theorem unpack_toFloat : n.toUInt64.toFloat.toModel.unpack
    = .finite .positive (Binary.ofNat n).significand (Binary.ofNat n).exponent
      (Binary.proper_ofNat hn hsmall).positive := by
  have hlog := log2_le_of_small hn hsmall
  have hproper := Binary.proper_ofNat hn hsmall
  have hround : UnpackedFloat.round Format.binary64 .positive n 0
      = .finite .positive (Binary.ofNat n).significand (Binary.ofNat n).exponent
        hproper.positive := by
    have htarget : Format.binary64.targetExponent (totalExponent n 0) = n.log2 - 52 := by
      rw [targetExponent_eq, totalExponent]
      omega
    unfold UnpackedFloat.round decreaseExponent
    dsimp only
    rw [htarget, show (0 - ((n.log2 : Int) - 52)).toNat = 52 - n.log2 by omega,
      show (0 : Int) - (52 - n.log2 : Nat) = n.log2 - 52 by omega, Nat.shiftLeft_eq]
    have hfull := hproper.full.resolve_left (by simp [Binary.ofNat]; omega)
    have hplaces : 52 ≤ (n * 2 ^ (52 - n.log2)).log2 :=
      (Nat.le_log2 hproper.positive.ne').2 hfull
    refine roundWithAccuracy_near hproper (Binary.near_magnitude _) (Describes.exact _) rfl ?_ ?_ _
    · rw [targetExponent_eq, totalExponent]
      dsimp only [Binary.ofNat]
      omega
    · exact fun hzero => absurd hzero hproper.positive.ne'
  have hsize : n.toUInt64.toNat = n := by
    rw [Nat.toUInt64_eq, UInt64.toNat_ofNat']
    exact Nat.mod_eq_of_lt (hsmall.trans (by norm_num [hiddenBit]))
  have hnormal : UnpackedFloat.ofUInt64 Format.binary64 n.toUInt64
      = UnpackedFloat.round Format.binary64 .positive n 0 := by
    unfold UnpackedFloat.ofUInt64 UnpackedFloat.ofNat UnpackedFloat.ofInt UnpackedFloat.normalize
    rw [hsize, Int.compare_eq_gt.2 (by omega)]
    rfl
  show (Float.Model.pack (UnpackedFloat.ofUInt64 Format.binary64 n.toUInt64)).unpack = _
  rw [hnormal, hround]
  exact unpack_pack hproper

end

/-- The value of a double, as a quotient. -/
theorem Binary.magnitude_eq (b : Binary) :
    b.magnitude = b.significand * 2 ^ b.exponent.toNat / 2 ^ (-b.exponent).toNat := by
  rw [magnitude, zpow_eq_div two_ne_zero, mul_div_assoc]

/-- The double is positive and just this power of ten. -/
def Binary.isPower (k : Nat) (b : Binary) : Bool :=
  !b.negative && b.significand * 2 ^ b.exponent.toNat == 10 ^ k * 2 ^ (-b.exponent).toNat

/-- The powers in the table are powers of ten. -/
theorem isPower_powers : ∀ i : Fin Float.exactlyRepresentablePowersOfTen.size,
    (Binary.ofFloat? Float.exactlyRepresentablePowersOfTen[i]).any (Binary.isPower i) = true := by
  decide +kernel

/-- The small powers of ten are doubles. -/
theorem exists_power {k : Nat} (hk : k < Float.exactlyRepresentablePowersOfTen.size) :
    ∃ b, Binary.ofFloat? Float.exactlyRepresentablePowersOfTen[k] = some b ∧ b.Proper ∧
      b.sign = .positive ∧ b.magnitude = 10 ^ k := by
  obtain ⟨b, hb, hpower⟩ := (Option.any_eq_true _ _).1 (isPower_powers ⟨k, hk⟩)
  simp only [Binary.isPower, Bool.and_eq_true, Bool.not_eq_true', beq_iff_eq] at hpower
  obtain ⟨hsign, hpower⟩ := hpower
  refine ⟨b, hb, (ofFloat?_some hb).2.resolve_left fun hzero => ?_, ?_, ?_⟩
  · rw [hzero, Nat.zero_mul] at hpower
    exact absurd hpower (by positivity)
  · rw [Binary.sign, hsign]
    rfl
  · rw [b.magnitude_eq, div_eq_iff (by positivity)]
    exact_mod_cast hpower

/-! ## Decimals -/

/-- What is near a double lies between half the least of them and the one that would follow the
largest. -/
theorem Binary.Near.bounds {b : Binary} {v : ℚ} (h : b.Near v) (hb : b.Proper) :
    1 / 2 ^ 1075 ≤ v ∧ v < 2 ^ 1024 := by
  constructor
  · have hone : (1 : ℚ) ≤ b.significand := by exact_mod_cast hb.positive
    have hhalf : ∀ k : Nat, (1 / 2 ^ (k + 1) : ℚ) = (1 - 1 / 2) * 2 ^ (-(k : Int)) := by
      intro k
      rw [zpow_neg, zpow_natCast, pow_succ]
      field_simp
      norm_num
    calc (1 / 2 ^ 1075 : ℚ) = (1 - 1 / 2) * 2 ^ (-1074 : Int) := hhalf 1074
      _ ≤ (b.significand - 1 / 2) * 2 ^ b.exponent :=
          mul_le_mul (by linarith) (zpow_le_zpow_right₀ one_le_two hb.least) (by positivity)
            (by linarith)
      _ ≤ v := h.half_low
  · have hsmall : (b.significand : ℚ) + 1 ≤ 2 ^ 53 := by exact_mod_cast hb.small
    calc v ≤ (b.significand + 1 / 2) * 2 ^ b.exponent := h.high
      _ < 2 ^ 53 * 2 ^ b.exponent := mul_lt_mul_of_pos_right (by linarith) (by positivity)
      _ ≤ 2 ^ 53 * 2 ^ (971 : Int) :=
          mul_le_mul_of_nonneg_left (zpow_le_zpow_right₀ one_le_two hb.top) (by positivity)
      _ = 2 ^ 1024 := by
          rw [show (971 : Int) = (971 : Nat) from rfl, zpow_natCast, ← pow_add]

theorem two_pow_le_ten_pow : (2 : ℚ) ^ 1200 ≤ 10 ^ 400 := by
  rw [show 1200 = 3 * 400 from rfl, pow_mul]
  exact pow_le_pow_left₀ (by norm_num) (by norm_num) _

/-- A decimal that is not below all doubles has few zeros behind its point. -/
theorem places_le {n k : Nat} (hlow : (1 / 2 ^ 1075 : ℚ) ≤ n / 10 ^ k) :
    k ≤ (Nat.toDigits 10 n).length + 400 := by
  have hdigits : n < 10 ^ (Nat.toDigits 10 n).length :=
    (Nat.length_toDigits_le_iff (by decide) Nat.length_toDigits_pos).1 (le_refl _)
  by_contra hfar
  have hsmall : (n / 10 ^ k : ℚ) < 1 / 2 ^ 1200 := by
    rw [div_lt_div_iff₀ (by positivity) (by positivity), one_mul]
    calc (n * 2 ^ 1200 : ℚ) < 10 ^ (Nat.toDigits 10 n).length * 10 ^ 400 :=
          mul_lt_mul (by exact_mod_cast hdigits) two_pow_le_ten_pow (by positivity) (by positivity)
      _ = 10 ^ ((Nat.toDigits 10 n).length + 400) := by rw [pow_add]
      _ ≤ 10 ^ k := pow_le_pow_right₀ (by norm_num) (by omega)
  have hpowers : (1 / 2 ^ 1200 : ℚ) ≤ 1 / 2 ^ 1075 :=
    one_div_le_one_div_of_le (by positivity) (pow_le_pow_right₀ (by norm_num) (by norm_num))
  exact lt_irrefl _ (hlow.trans_lt (hsmall.trans_le hpowers))

/-- A decimal that is not above all doubles has few digits in front of its point. -/
theorem length_toDigits_le {n k : Nat} (hhigh : (n / 10 ^ k : ℚ) < 2 ^ 1024) :
    (Nat.toDigits 10 n).length ≤ k + 400 := by
  rw [Nat.length_toDigits_le_iff (by decide) (by omega)]
  by_contra hfar
  have hlarge : (10 ^ (k + 400) : ℚ) ≤ n := by exact_mod_cast Nat.not_lt.1 hfar
  have hvalue : (2 ^ 1200 : ℚ) ≤ n / 10 ^ k := by
    rw [le_div_iff₀ (by positivity), mul_comm]
    rw [pow_add] at hlarge
    exact le_trans (mul_le_mul_of_nonneg_left two_pow_le_ten_pow (by positivity)) hlarge
  have hpowers : (2 ^ 1024 : ℚ) ≤ 2 ^ 1200 := pow_le_pow_right₀ (by norm_num) (by norm_num)
  exact lt_irrefl _ (hhigh.trans_le (hpowers.trans hvalue))

section

variable {b : Binary} (hb : b.Proper) {n k : Nat} (hn : 0 < n) (hnear : b.Near (n / 10 ^ k))
include hn hnear

/-- A quotient of doubles is the double that the exact quotient is near. -/
theorem ofScientific_fast (hsmall : n < 2 * hiddenBit)
    (hk : k < Float.exactlyRepresentablePowersOfTen.size) :
    n.toUInt64.toFloat / Float.exactlyRepresentablePowersOfTen[k] = hb.double := by
  obtain ⟨c, hc, hproper, hpositive, hpower⟩ := exists_power hk
  have hn' := unpack_toFloat hn hsmall
  have hc' := unpack_eq hc hproper
  have hvalue : ((Binary.ofNat n).significand * 2 ^ (Binary.ofNat n).exponent
      / (c.significand * 2 ^ c.exponent) : ℚ) = n / 10 ^ k := by
    show (Binary.ofNat n).magnitude / c.magnitude = _
    rw [Binary.magnitude_ofNat hn hsmall, hpower]
  show Float.ofModel (.pack (UnpackedFloat.div Format.binary64 n.toUInt64.toFloat.toModel.unpack
    Float.exactlyRepresentablePowersOfTen[k].toModel.unpack)) = _
  rw [hn', hc', hpositive, div_near hb _ _ (hvalue ▸ hnear)]
  rfl

/-- Rounding once finds the double that a decimal is near, however many digits it has. -/
theorem ofScientific_slow (hk : k ≤ 2048 + n.log2) :
    Float.ofModel (Float.Model.ofScientific n (-k)) = hb.double := by
  have hfinite : UnpackedFloat.ofScientific Format.binary64 n (-k)
      = .finite .positive b.significand b.exponent hb.positive := by
    unfold UnpackedFloat.ofScientific
    rw [dif_neg hn.ne', if_neg (by norm_num), if_neg (by norm_num; omega)]
    by_cases hwhole : (0 : Int) ≤ -k
    · rw [if_pos hwhole]
      obtain rfl : k = 0 := by omega
      have hbits : Format.binary64.mantissaBits = 53 := rfl
      have hvalue : (((n <<< Format.binary64.mantissaBits : Nat) : ℚ)
          * 2 ^ (-Format.binary64.mantissaBits : Int)
          * (((10 ^ (-(0 : Nat) : Int).toNat : Nat) : ℚ) * 2 ^ (0 : Int))) = n / 10 ^ 0 := by
        rw [hbits, Nat.shiftLeft_eq, zpow_neg]
        push_cast
        norm_num
        field_simp
      refine mul_near hb _ _ (hvalue ▸ hnear) ?_ _ _
      rw [hbits, Nat.shiftLeft_eq]
      unfold hiddenBit
      norm_num
      omega
    · rw [if_neg hwhole]
      have hvalue : ((n : ℚ) * 2 ^ (0 : Int)
          / (((10 ^ (- -(k : Int)).toNat : Nat) : ℚ) * 2 ^ (0 : Int))) = n / 10 ^ k := by
        rw [show (- -(k : Int)).toNat = k by omega]
        norm_num
      exact div_near hb _ _ (hvalue ▸ hnear) _ _
  unfold Float.Model.ofScientific
  rw [hfinite]
  rfl

/-- A whole number is its product with one. -/
theorem ofScientific_whole (hzero : k = 0) (hsmall : n < 2 * hiddenBit)
    (hk : k < Float.exactlyRepresentablePowersOfTen.size) :
    n.toUInt64.toFloat * Float.exactlyRepresentablePowersOfTen[k] = hb.double := by
  obtain ⟨c, hc, hproper, hpositive, hpower⟩ := exists_power hk
  have hn' := unpack_toFloat hn hsmall
  have hc' := unpack_eq hc hproper
  have hvalue : ((Binary.ofNat n).significand * 2 ^ (Binary.ofNat n).exponent
      * (c.significand * 2 ^ c.exponent) : ℚ) = n / 10 ^ k := by
    show (Binary.ofNat n).magnitude * c.magnitude = _
    rw [Binary.magnitude_ofNat hn hsmall, hpower, hzero, pow_zero, mul_one, div_one]
  have hfull : hiddenBit ≤ (Binary.ofNat n).significand * c.significand := by
    have hlow : hiddenBit ≤ (Binary.ofNat n).significand := by
      refine (Binary.proper_ofNat hn hsmall).full.resolve_left ?_
      dsimp only [Binary.ofNat]
      omega
    exact hlow.trans (Nat.le_mul_of_pos_right _ hproper.positive)
  show Float.ofModel (.pack (UnpackedFloat.mul Format.binary64 n.toUInt64.toFloat.toModel.unpack
    Float.exactlyRepresentablePowersOfTen[k].toModel.unpack)) = _
  rw [hn', hc', hpositive, mul_near hb _ _ (hvalue ▸ hnear) hfull]
  rfl

/-- A decimal without an exponent is read as the double that it is near. -/
theorem ofScientific_near (hk : k ≤ 2048 + n.log2) :
    OfScientific.ofScientific n (decide (0 < k)) k = hb.double := by
  show Float.ofScientific n (decide (0 < k)) k = hb.double
  unfold Float.ofScientific
  split
  · rename_i hfast
    have hsmall : n < 2 * hiddenBit := hfast.1
    dsimp only
    split
    · exact ofScientific_fast hb hn hnear hsmall _
    · rename_i hwhole
      exact ofScientific_whole hb hn hnear (by simpa using hwhole) hsmall _
  · rw [← ofScientific_slow hb hn hnear hk]
    dsimp only
    split
    · cases k <;> rfl
    · rename_i hwhole
      obtain rfl : k = 0 := by simpa using hwhole
      rfl

omit hn in
/-- A decimal is read as the double that it is near. -/
theorem ofDecimal_near : ofDecimal n (-k) = hb.double := by
  obtain ⟨hlow, hhigh⟩ := hnear.bounds hb
  have hn : 0 < n := by
    refine Nat.pos_of_ne_zero fun hzero => ?_
    rw [hzero, Nat.cast_zero, zero_div] at hlow
    exact absurd hlow (not_le.2 (by positivity))
  have hlength : (Nat.toDigits 10 n).length ≤ n.log2 + 1 := by
    rw [Nat.length_toDigits_le_iff (by decide) (by omega)]
    exact Nat.lt_log2_self.trans_le (Nat.pow_le_pow_left (by decide) _)
  have hplaces := places_le hlow
  have hunits := length_toDigits_le hhigh
  -- the decimal is not so far off that it is read as zero or as infinite at once
  unfold ofDecimal
  rw [if_neg hn.ne']
  dsimp only
  rw [if_neg (by omega), if_neg (by omega)]
  have hnat : (-(k : Int)).natAbs = k := by omega
  have hpoint : decide (-(k : Int) < 0) = decide (0 < k) := by
    rw [decide_eq_decide]
    omega
  rw [hnat, hpoint]
  exact ofScientific_near hb hn hnear (by omega)

end

end Primer.Real
