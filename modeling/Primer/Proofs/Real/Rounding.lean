import Mathlib.Algebra.Order.Field.Power
import Mathlib.Tactic.FieldSimp
import Mathlib.Tactic.Linarith
import Mathlib.Tactic.NormNum
import Mathlib.Tactic.Positivity
import Mathlib.Tactic.Ring
import Primer.Real.Shortest

/-!
# Primer.Proofs.Real.Rounding — exact values, and the double that they round to.

A quotient or a product of doubles is formed exactly, as a mantissa with two residual bits, and then
shifted to the places of a double and rounded.  `Describes` says what such a mantissa stands for;
shifting it divides what it stands for.  A double is `Near` the exact values that round to it: they
reach from half a gap below to half a gap above.

An extended mantissa is a mantissa with a guard bit and a sticky bit.  What it `Describes` is a
rational number, exactly or up to an open interval; shifting it to the right halves the number each
time and keeps the description, which is what `half` and `shift` say.  Rounding to even needs to
know whether the number is below, above or exactly at the middle, and the two bits tell
(`rounded_eq`).

Main statement: `roundWithAccuracy_near`, rounding finds the double that the exact value is near.
-/

namespace Primer.Real

open Float.Model Float.Model.UnpackedFloat

/-! ## Doubles and the values near them -/

/-- The fields of a double: all digits are in use, unless the exponent is the least one. -/
structure Binary.Proper (b : Binary) : Prop where
  positive : 0 < b.significand
  small : b.significand < 2 * hiddenBit
  least : -1074 ≤ b.exponent
  top : b.exponent ≤ 971
  full : b.exponent = -1074 ∨ hiddenBit ≤ b.significand
  gap : b.halfGapBelow = true ↔ b.significand = hiddenBit ∧ -1074 < b.exponent

/-- The magnitude of a double. -/
def Binary.magnitude (b : Binary) : ℚ := b.significand * 2 ^ b.exponent

/-- How far the values reach that round up to the double, in units of the last place. -/
def Binary.reach (b : Binary) : ℚ := if b.halfGapBelow then 1 / 4 else 1 / 2

/-- The value rounds to the magnitude of the double.  The ends belong to an even significand. -/
def Binary.Near (b : Binary) (v : ℚ) : Prop :=
  if b.significand % 2 = 0 then
    (b.significand - b.reach) * 2 ^ b.exponent ≤ v ∧ v ≤ (b.significand + 1 / 2) * 2 ^ b.exponent
  else
    (b.significand - b.reach) * 2 ^ b.exponent < v ∧ v < (b.significand + 1 / 2) * 2 ^ b.exponent

/-- The values below that round to a double reach down half a gap at most. -/
theorem Binary.reach_le (b : Binary) : b.reach ≤ 1 / 2 := by
  unfold reach
  split <;> norm_num

namespace Binary.Near

variable {b : Binary} {v : ℚ}

theorem low (h : b.Near v) : (b.significand - b.reach) * 2 ^ b.exponent ≤ v := by
  unfold Near at h
  split at h
  · exact h.1
  · exact h.1.le

theorem high (h : b.Near v) : v ≤ (b.significand + 1 / 2) * 2 ^ b.exponent := by
  unfold Near at h
  split at h
  · exact h.2
  · exact h.2.le

theorem half_low (h : b.Near v) : (b.significand - 1 / 2) * 2 ^ b.exponent ≤ v := by
  refine le_trans (mul_le_mul_of_nonneg_right ?_ (by positivity)) h.low
  linarith [b.reach_le]

end Binary.Near

/-! ## Mantissas with residual bits -/

/-- The mantissa is the whole part of the number, and the two bits say how its fraction compares
with nothing and with one half. -/
def Describes (m : ExtendedMantissa) (r : ℚ) : Prop :=
  match m.roundBit, m.stickyBit with
  | false, false => r = m.mantissa
  | false, true => m.mantissa < r ∧ r < m.mantissa + 1 / 2
  | true, false => r = m.mantissa + 1 / 2
  | true, true => m.mantissa + 1 / 2 < r ∧ r < m.mantissa + 1

namespace Describes

variable {m : ExtendedMantissa} {r : ℚ}

theorem exact (n : Nat) : Describes (.ofMantissaAndAccuracy n .exact) n := rfl

/-- A quotient of natural numbers is described by its whole part and its remainder. -/
theorem quotient (n : Nat) {d : Nat} (hd : 0 < d) :
    Describes (.ofMantissaAndAccuracy (n / d) (accuracyOfFraction (n % d) d)) (n / d : ℚ) := by
  have hpositive : (0 : ℚ) < d := Nat.cast_pos.2 hd
  have hsplit : (n : ℚ) / d = (n / d : Nat) + (n % d : Nat) / (d : ℚ) := by
    have hwhole : (n : ℚ) = d * (n / d : Nat) + (n % d : Nat) := by
      exact_mod_cast (Nat.div_add_mod n d).symm
    rw [hwhole]
    field_simp
  have hbelow : ((n % d : Nat) : ℚ) < d := Nat.cast_lt.2 (Nat.mod_lt n hd)
  rw [hsplit]
  unfold accuracyOfFraction
  split
  · rename_i hzero
    rw [hzero, Nat.cast_zero, zero_div, add_zero]
    exact exact _
  · rename_i hrest
    have hrest : (0 : ℚ) < (n % d : Nat) / (d : ℚ) :=
      div_pos (Nat.cast_pos.2 (Nat.pos_of_ne_zero hrest)) hpositive
    -- Twice the remainder is compared, which keeps the half exact.
    rcases Nat.lt_trichotomy (2 * (n % d)) d with hlt | heq | hgt
    · rw [Nat.compare_eq_lt.2 hlt]
      have hlt : (2 * (n % d : Nat) : ℚ) < d := by exact_mod_cast hlt
      refine ⟨lt_add_of_pos_right _ hrest, add_lt_add_right ?_ _⟩
      rw [div_lt_iff₀ hpositive]
      linarith
    · rw [Nat.compare_eq_eq.2 heq]
      have heq : (2 * (n % d : Nat) : ℚ) = d := by exact_mod_cast heq
      show _ = _
      congr 1
      rw [div_eq_iff hpositive.ne']
      linarith
    · rw [Nat.compare_eq_gt.2 hgt]
      have hgt : (d : ℚ) < 2 * (n % d : Nat) := by exact_mod_cast hgt
      refine ⟨add_lt_add_right ?_ _, add_lt_add_right ?_ _⟩
      · rw [lt_div_iff₀ hpositive]
        linarith
      · rwa [div_lt_one hpositive]

/-- Dropping one bit halves the number. -/
theorem half (h : Describes m r) : Describes m.shiftRightOne (r / 2) := by
  obtain ⟨n, round, sticky⟩ := m
  have hn : (n : ℚ) = 2 * (n / 2 : Nat) + (n % 2 : Nat) := by
    exact_mod_cast (Nat.div_add_mod n 2).symm
  rcases Nat.mod_two_eq_zero_or_one n with hbit | hbit <;> rw [hbit] at hn <;> push_cast at hn <;>
    cases round <;> cases sticky <;>
    simp only [Describes, ExtendedMantissa.shiftRightOne, hbit, bne_self_eq_false, Bool.or_false,
      Bool.or_true, show ((1 : Nat) != 0) = true from rfl] at h ⊢
  case inl.false.false | inr.false.false => linarith
  case inl.true.false | inr.true.false => exact ⟨by linarith, by linarith⟩
  all_goals exact ⟨by linarith [h.1], by linarith [h.2]⟩

/-- Shifting divides by a power of two what is described. -/
theorem shift (h : Describes m r) (n : Nat) : Describes (m >>> n) (r / 2 ^ n) := by
  induction n with
  | zero =>
    rw [pow_zero, div_one]
    exact h
  | succ n ih =>
    rw [pow_succ, ← div_div]
    exact ih.half

/-- Rounding finds the natural number in reach, and the even one of two. -/
theorem rounded_eq (h : Describes m r) {n : Nat} (hlow : (n : ℚ) - 1 / 2 ≤ r)
    (hhigh : r ≤ n + 1 / 2)
    (hodd : n % 2 = 1 → (n : ℚ) - 1 / 2 < r ∧ r < n + 1 / 2) : m.roundedMantissa = n := by
  obtain ⟨k, round, sticky⟩ := m
  have hnat : ∀ a b : Nat, (a : ℚ) < b + 1 → a ≤ b := by
    intro a b hab
    exact Nat.lt_succ_iff.1 (by exact_mod_cast hab)
  have heq : ∀ a : Nat, (a : ℚ) < n + 1 → (n : ℚ) < a + 1 → a = n :=
    fun a hle hge => le_antisymm (hnat _ _ hle) (hnat _ _ hge)
  cases round <;> cases sticky <;>
    simp only [Describes, ExtendedMantissa.roundedMantissa, ExtendedMantissa.accuracy,
      Accuracy.roundToNearestEven] at h ⊢
  case false.false => exact heq k (by linarith) (by linarith)
  case false.true => exact heq k (by linarith) (by linarith)
  case true.false =>
    -- a tie: the even neighbour is taken
    rcases Nat.mod_two_eq_zero_or_one k with hk | hk
    · rw [hk, add_zero]
      refine heq k (by linarith) ?_
      by_contra hgt
      have hnext : k + 1 = n := heq (k + 1) (by push_cast; linarith) (by push_cast; linarith)
      have hstrict := (hodd (by omega)).1
      rw [h, ← hnext] at hstrict
      push_cast at hstrict
      linarith
    · rw [hk]
      refine heq (k + 1) ?_ (by push_cast; linarith)
      by_contra hgt
      have hsame : k = n := heq k (by linarith) (by push_cast at hgt; linarith)
      have hstrict := (hodd (by omega)).2
      rw [h, hsame] at hstrict
      linarith
  case true.true => exact heq (k + 1) (by push_cast; linarith) (by push_cast; linarith)

theorem low (h : Describes m r) : m.mantissa ≤ r := by
  obtain ⟨n, round, sticky⟩ := m
  cases round <;> cases sticky <;> simp only [Describes] at h ⊢ <;> linarith

theorem high (h : Describes m r) : r < m.mantissa + 1 := by
  obtain ⟨n, round, sticky⟩ := m
  cases round <;> cases sticky <;> simp only [Describes] at h ⊢ <;> linarith

end Describes

/-! ## The places of a double -/

/-- The exponent of the last place of a double with so many bits. -/
theorem targetExponent_eq (total : Int) :
    Format.binary64.targetExponent total = max (total - 53) (-1074) := rfl

/-- The residual bits are no part of the mantissa. -/
theorem mantissa_ofMantissaAndAccuracy (n : Nat) (accuracy : Accuracy) :
    (ExtendedMantissa.ofMantissaAndAccuracy n accuracy).mantissa = n := by
  cases accuracy with
  | exact => rfl
  | inexact o => cases o <;> rfl

/-- A rounded mantissa that fits stays as it is. -/
theorem shiftToTargetExponent_small {n : Nat} (hn : n < 2 * hiddenBit) {e : Int} (he : -1074 ≤ e) :
    shiftToTargetExponent Format.binary64 n e .exact = (⟨n, false, false⟩, e) := by
  have hlog : n.log2 ≤ 52 := by
    rcases Nat.eq_zero_or_pos n with rfl | hpos
    · decide
    · exact Nat.lt_succ_iff.1 ((Nat.log2_lt hpos.ne').2 hn)
  have hshift : (Format.binary64.targetExponent (totalExponent n e) - e).toNat = 0 := by
    rw [targetExponent_eq, totalExponent]
    omega
  unfold shiftToTargetExponent shiftToExponent
  dsimp only
  rw [hshift]
  exact congrArg (Prod.mk _) (add_zero e)

/-- A mantissa that was rounded up to one digit too many loses it. -/
theorem shiftToTargetExponent_full {e : Int} (he : -1074 ≤ e) :
    shiftToTargetExponent Format.binary64 (2 * hiddenBit) e .exact
      = (⟨hiddenBit, false, false⟩, e + 1) := by
  have hlog : (2 * hiddenBit).log2 = 53 := by decide +kernel
  have hshift :
      (Format.binary64.targetExponent (totalExponent (2 * hiddenBit) e) - e).toNat = 1 := by
    rw [targetExponent_eq, totalExponent, hlog]
    omega
  unfold shiftToTargetExponent shiftToExponent
  dsimp only
  rw [hshift]
  rfl

/-! ## Rounding -/

section

variable {n : Nat} {e t : Int} {accuracy : Accuracy} {r v : ℚ}

/-- The places that a number is shifted to are those of a double as large as the number. -/
theorem bounds_of_describes (hr : Describes (.ofMantissaAndAccuracy n accuracy) r)
    (hv : v = r * 2 ^ e) (ht : t = Format.binary64.targetExponent (totalExponent n e))
    (hsmall : n = 0 → t = -1074) :
    v < 2 ^ (t + 53) ∧ (t = -1074 ∨ 2 ^ (t + 52) ≤ v) := by
  have hlow := hr.low
  have hhigh := hr.high
  rw [mantissa_ofMantissaAndAccuracy] at hlow hhigh
  rw [targetExponent_eq, totalExponent] at ht
  have hscale : (0 : ℚ) < 2 ^ e := by positivity
  constructor
  · have hlog : n + 1 ≤ 2 ^ (n.log2 + 1) := Nat.lt_log2_self
    have hlog : (n : ℚ) + 1 ≤ 2 ^ (n.log2 + 1) := by exact_mod_cast hlog
    calc v = r * 2 ^ e := hv
      _ < 2 ^ (n.log2 + 1) * 2 ^ e := mul_lt_mul_of_pos_right (hhigh.trans_le hlog) hscale
      _ = 2 ^ ((n.log2 + 1 : Nat) + e) := by rw [zpow_add₀ two_ne_zero, zpow_natCast]
      _ ≤ 2 ^ (t + 53) := zpow_le_zpow_right₀ one_le_two (by push_cast; omega)
  · rw [or_iff_not_imp_left]
    intro hleast
    have hn : n ≠ 0 := fun hn => hleast (hsmall hn)
    have hlog : (2 : ℚ) ^ n.log2 ≤ n := by exact_mod_cast Nat.log2_self_le hn
    calc (2 : ℚ) ^ (t + 52) = 2 ^ ((n.log2 : Int) + e) := by congr 1; omega
      _ = 2 ^ n.log2 * 2 ^ e := by rw [zpow_add₀ two_ne_zero, zpow_natCast]
      _ ≤ r * 2 ^ e := mul_le_mul_of_nonneg_right (hlog.trans hlow) hscale.le
      _ = v := hv.symm

/-- A value near a double has the places of the double, or is just below it at a power of two. -/
theorem Binary.Near.places {b : Binary} (h : b.Near v) (hb : b.Proper) (hbelow : v < 2 ^ (t + 53))
    (habove : t = -1074 ∨ 2 ^ (t + 52) ≤ v) (hleast : -1074 ≤ t) :
    t = b.exponent ∨ t + 1 = b.exponent ∧ b.halfGapBelow = true := by
  have hscale : (0 : ℚ) < 2 ^ b.exponent := by positivity
  have hbit : ((hiddenBit : Nat) : ℚ) = 2 ^ 52 := by norm_num [hiddenBit]
  rcases lt_trichotomy t b.exponent with hlt | heq | hgt
  -- in smaller places the value is below a power of two, and rounding takes it up to the power
  · right
    have hfull : hiddenBit ≤ b.significand := hb.full.resolve_left (by omega)
    have hv : v < 2 ^ (t + 53 - b.exponent) * 2 ^ b.exponent := by
      rwa [← zpow_add₀ two_ne_zero, sub_add_cancel]
    have hless : (b.significand : ℚ) - 1 / 2 < 2 ^ (t + 53 - b.exponent) :=
      lt_of_mul_lt_mul_right (h.half_low.trans_lt hv) hscale.le
    have hpower : (2 : ℚ) ^ (t + 53 - b.exponent) ≤ hiddenBit := by
      rw [hbit, ← zpow_natCast]
      exact zpow_le_zpow_right₀ one_le_two (by push_cast; omega)
    have hsignificand : b.significand = hiddenBit := by
      refine le_antisymm (Nat.lt_succ_iff.1 ?_) hfull
      have : (b.significand : ℚ) < hiddenBit + 1 := by linarith
      exact_mod_cast this
    refine ⟨?_, hb.gap.2 ⟨hsignificand, by omega⟩⟩
    by_contra hfar
    have hpower : (2 : ℚ) ^ (t + 53 - b.exponent) ≤ 2 ^ (51 : Int) :=
      zpow_le_zpow_right₀ one_le_two (by omega)
    rw [hsignificand, hbit] at hless
    norm_num at hless hpower
    linarith
  · exact Or.inl heq
  · exfalso
    have hle : (2 : ℚ) ^ (t + 52) ≤ v := habove.resolve_left (by have := hb.least; omega)
    have hsmall : (b.significand : ℚ) + 1 ≤ 2 ^ 53 := by
      have : b.significand + 1 ≤ 2 * hiddenBit := hb.small
      have : (b.significand : ℚ) + 1 ≤ 2 * hiddenBit := by exact_mod_cast this
      rw [hbit] at this
      linarith
    have hv : v < 2 ^ 53 * 2 ^ b.exponent :=
      h.high.trans_lt (mul_lt_mul_of_pos_right (by linarith) hscale)
    have hpower : (2 : ℚ) ^ 53 * 2 ^ b.exponent ≤ 2 ^ (t + 52) := by
      rw [← zpow_natCast, ← zpow_add₀ two_ne_zero]
      exact zpow_le_zpow_right₀ one_le_two (by push_cast; omega)
    linarith

/-- A value near a double is rounded to its significand in its places. -/
theorem Binary.Near.rounded {b : Binary} (h : b.Near v) {m : ExtendedMantissa}
    (hm : Describes m (v / 2 ^ b.exponent)) : m.roundedMantissa = b.significand := by
  have hscale : (0 : ℚ) < 2 ^ b.exponent := by positivity
  refine hm.rounded_eq ?_ ?_ fun hodd => ?_
  · rw [le_div_iff₀ hscale]
    exact h.half_low
  · rw [div_le_iff₀ hscale]
    exact h.high
  · -- the ends belong to the even neighbours
    unfold Binary.Near at h
    rw [if_neg (by omega)] at h
    rw [lt_div_iff₀ hscale, div_lt_iff₀ hscale]
    refine ⟨lt_of_le_of_lt (mul_le_mul_of_nonneg_right ?_ hscale.le) h.1, h.2⟩
    linarith [b.reach_le]

/-- A value just below a power of two is rounded up to it, in the places of the smaller doubles. -/
theorem Binary.Near.rounded_gap {b : Binary} (h : b.Near v) (hb : b.Proper)
    (hgap : b.halfGapBelow = true) (hplaces : t + 1 = b.exponent) (hbelow : v < 2 ^ (t + 53))
    {m : ExtendedMantissa} (hm : Describes m (v / 2 ^ t)) :
    m.roundedMantissa = 2 * hiddenBit := by
  have hscale : (0 : ℚ) < 2 ^ t := by positivity
  have hdouble : (2 : ℚ) ^ b.exponent = 2 * 2 ^ t := by
    rw [← hplaces, zpow_add_one₀ two_ne_zero, mul_comm]
  have hhidden : (2 : ℚ) ^ (t + 53) = 2 * hiddenBit * 2 ^ t := by
    rw [zpow_add₀ two_ne_zero, mul_comm]
    norm_num [hiddenBit]
  have hlow := h.low
  rw [Binary.reach, if_pos hgap, (hb.gap.1 hgap).1, hdouble] at hlow
  refine hm.rounded_eq ?_ ?_ fun hodd => by simp at hodd
  · rw [le_div_iff₀ hscale]
    push_cast
    linarith
  · rw [div_le_iff₀ hscale]
    push_cast
    linarith

/-- Rounding starts from the places of a double as large as the number. -/
theorem exists_shifted (hr : Describes (.ofMantissaAndAccuracy n accuracy) r) (hv : v = r * 2 ^ e)
    (ht : Format.binary64.targetExponent (totalExponent n e) = t) (hle : e ≤ t) :
    ∃ m, shiftToTargetExponent Format.binary64 n e accuracy = (m, t) ∧
      Describes m (v / 2 ^ t) := by
  refine ⟨ExtendedMantissa.ofMantissaAndAccuracy n accuracy >>> (t - e).toNat, ?_, ?_⟩
  · unfold shiftToTargetExponent shiftToExponent
    dsimp only
    rw [ht]
    exact congrArg (Prod.mk _) (by omega)
  · have hvalue : v / 2 ^ t = r / 2 ^ (t - e).toNat := by
      rw [hv, ← zpow_natCast, Int.toNat_of_nonneg (by omega), zpow_sub₀ two_ne_zero]
      field_simp
    rw [hvalue]
    exact hr.shift _

/-- Rounding an exact value finds the double that the value is near. -/
theorem roundWithAccuracy_near {b : Binary} (hb : b.Proper) (hnear : b.Near v)
    (hr : Describes (.ofMantissaAndAccuracy n accuracy) r) (hv : v = r * 2 ^ e)
    (hle : e ≤ Format.binary64.targetExponent (totalExponent n e))
    (hsmall : n = 0 → Format.binary64.targetExponent (totalExponent n e) = -1074) (sign : Sign) :
    roundWithAccuracy Format.binary64 sign n e accuracy
      = .finite sign b.significand b.exponent hb.positive := by
  generalize ht : Format.binary64.targetExponent (totalExponent n e) = t at hle hsmall
  obtain ⟨hbelow, habove⟩ := bounds_of_describes hr hv ht.symm hsmall
  have hleast : -1074 ≤ t := by
    rw [← ht, targetExponent_eq]
    exact le_max_right _ _
  obtain ⟨m, hshift, hm⟩ := exists_shifted hr hv ht hle
  unfold roundWithAccuracy
  rw [hshift]
  dsimp only
  rcases hnear.places hb hbelow habove hleast with rfl | ⟨hplaces, hgap⟩
  · rw [hnear.rounded hm, shiftToTargetExponent_small hb.small hleast]
    exact dif_neg hb.positive.ne'
  · rw [hnear.rounded_gap hb hgap hplaces hbelow hm, shiftToTargetExponent_full hleast]
    dsimp only
    rw [dif_neg (by decide), UnpackedFloat.finite.injEq]
    exact ⟨rfl, (hb.gap.1 hgap).1.symm, hplaces⟩

end

end Primer.Real
