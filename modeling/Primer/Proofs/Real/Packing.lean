import Primer.Proofs.Real.Rounding

/-!
# Primer.Proofs.Real.Packing — the bits of a double.

A double is a sign, a biased exponent and a fraction, packed one behind the other into 64 bits.
`Binary.ofFloat?` takes these apart by arithmetic on the bits as a number, and the model of
floating-point numbers in the standard library does it with bit vectors.  The lemmas go from one to
the other, through the number that the bits are.
-/

namespace Primer.Real

open Float.Model Float.Model.UnpackedFloat

/-- A double is its bits. -/
theorem float_eq {x y : Float} (h : x.toBits.toNat = y.toBits.toNat) : x = y := by
  obtain ⟨⟨bits, valid⟩⟩ := x
  obtain ⟨⟨bits', valid'⟩⟩ := y
  obtain rfl : bits = bits' := UInt64.toNat_inj.1 h
  rfl

/-- The sign of a double. -/
def Binary.sign (b : Binary) : Sign := if b.negative then .negative else .positive

/-- The bits of a double as a number: the sign, the exponent and the fraction. -/
def Binary.code (b : Binary) : Nat :=
  (if b.negative then 2048 * hiddenBit else 0) +
    if b.significand < hiddenBit then b.significand
    else (b.exponent + 1075).toNat * hiddenBit + (b.significand - hiddenBit)

/-- What is read off the bits of a double is zero or proper, and it gives the bits back. -/
theorem ofFloat?_some {x : Float} {b : Binary} (h : Binary.ofFloat? x = some b) :
    x.toBits.toNat = b.code ∧ (b.significand = 0 ∨ b.Proper) := by
  unfold Binary.ofFloat? at h
  have hbits : x.toBits.toNat < 2 ^ 64 := x.toBits.toNat_lt
  generalize x.toBits.toNat = bits at h hbits
  dsimp only at h
  split at h
  · cases h
  · rename_i hfinite
    have hsign : (if decide (2048 * hiddenBit ≤ bits) = true then 2048 * hiddenBit else 0)
        = bits / hiddenBit / 2048 * 2048 * hiddenBit := by
      unfold hiddenBit
      simp only [decide_eq_true_eq]
      split <;> omega
    have hsmall : bits % hiddenBit < hiddenBit := Nat.mod_lt _ (by decide)
    split at h
    · rename_i hstored
      cases h
      constructor
      · simp only [Binary.code, hsign, if_pos hsmall]
        unfold hiddenBit at *
        omega
      · rw [or_iff_not_imp_left]
        intro hzero
        refine ⟨Nat.pos_of_ne_zero hzero, ?_, le_refl _, ?_, Or.inl rfl, ?_⟩
        all_goals simp only
        · omega
        · norm_num
        · simp
    · rename_i hstored
      cases h
      constructor
      · have hstored' : ((bits / hiddenBit % 2048 : Nat) - 1075 + 1075 : Int).toNat
            = bits / hiddenBit % 2048 := by omega
        simp only [Binary.code, hsign, hstored', if_neg (show ¬ hiddenBit + bits % hiddenBit <
          hiddenBit by omega)]
        unfold hiddenBit at *
        omega
      · refine Or.inr ⟨?_, ?_, ?_, ?_, Or.inr ?_, ?_⟩
        all_goals simp only [decide_eq_true_eq]
        all_goals unfold hiddenBit at *
        all_goals omega

/-- The sign is the first of the bits. -/
theorem negative_eq {x : Float} {b : Binary} (h : Binary.ofFloat? x = some b) :
    b.negative = decide (2048 * hiddenBit ≤ x.toBits.toNat) := by
  unfold Binary.ofFloat? at h
  dsimp only at h
  split at h
  · cases h
  · split at h <;> cases h <;> rfl

/-! ## Packing -/

/-- Bit vectors one behind the other, as a number. -/
theorem toNat_append {m n : Nat} (x : BitVec m) (y : BitVec n) :
    (x ++ y).toNat = x.toNat * 2 ^ n + y.toNat := by
  rw [BitVec.toNat_append, ← Nat.shiftLeft_add_eq_or_of_lt y.isLt, Nat.shiftLeft_eq]

/-- The bits of a double, as a number. -/
theorem toNat_packComponents (sign : Sign) (exponent : BitVec 11) (fraction : BitVec 52) :
    (packComponents Format.binary64 sign exponent fraction).toNat
      = (sign.toBitVec.toNat * 2048 + exponent.toNat) * hiddenBit + fraction.toNat := by
  unfold packComponents
  rw [toNat_append, toNat_append]
  rfl

theorem Binary.toNat_sign (b : Binary) :
    b.sign.toBitVec.toNat = if b.negative then 1 else 0 := by
  unfold sign
  cases b.negative <;> rfl

/-- A proper double is packed into its code. -/
theorem toNat_pack {b : Binary} (hb : b.Proper) :
    (UnpackedFloat.pack Format.binary64 (.finite b.sign b.significand b.exponent hb.positive)).toNat
      = b.code := by
  have hleast := hb.least
  have htop := hb.top
  have hbiased : b.exponent + (Format.binary64.exponentBias : Int) + (52 : Nat)
      = b.exponent + 1075 := by
    rw [show Format.binary64.exponentBias = 1023 from rfl]
    omega
  have hsign := b.toNat_sign
  -- The library asks for the length of the significand, `code` for the hidden bit.
  have hlog : b.significand.log2 + 1 = 53 ↔ ¬ b.significand < hiddenBit := by
    rw [Nat.not_lt, show hiddenBit = 2 ^ 52 from rfl, ← Nat.le_log2 hb.positive.ne']
    have hlog := (Nat.log2_lt (k := 53) hb.positive.ne').2 hb.small
    omega
  unfold UnpackedFloat.pack
  dsimp only
  rw [hbiased, if_neg (by norm_num; omega), show Format.binary64.mantissaBits = 53 from rfl]
  unfold Binary.code
  split
  · rename_i hfull
    have hfull := hlog.1 hfull
    have hfit : b.significand % 2 ^ 52 = b.significand - hiddenBit := by
      have := hb.small
      unfold hiddenBit at *
      omega
    rw [toNat_packComponents, hsign, if_neg hfull, BitVec.toNat_ofNat, BitVec.toNat_ofNat, hfit,
      Nat.mod_eq_of_lt (by norm_num; omega)]
    split <;> unfold hiddenBit <;> omega
  · rename_i hfull
    have hfull := Decidable.not_not.1 (mt hlog.2 hfull)
    have hfit : b.significand % 2 ^ 52 = b.significand := by
      unfold hiddenBit at hfull
      omega
    rw [toNat_packComponents, hsign, if_pos hfull, BitVec.toNat_ofNat, BitVec.toNat_ofNat, hfit,
      Nat.zero_mod]
    cases b.negative <;> simp

/-! ## Unpacking -/

theorem toNat_unpackMantissa (bits : BitVec 64) :
    (@unpackMantissa Format.binary64 bits).toNat = bits.toNat % hiddenBit := by
  unfold unpackMantissa
  rw [BitVec.toNat_cast, BitVec.extractLsb_toNat, Nat.shiftRight_zero]
  rfl

/-- The exponent is the 11 bits in front of it. -/
theorem toNat_unpackExponent (bits : BitVec 64) :
    (@unpackExponent Format.binary64 bits).toNat = bits.toNat / hiddenBit % 2048 := by
  unfold unpackExponent
  rw [BitVec.toNat_cast, BitVec.extractLsb_toNat, Nat.shiftRight_eq_div_pow]
  rfl

/-- The sign is the bit in front of these. -/
theorem toNat_unpackSign (bits : BitVec 64) :
    (@unpackSign Format.binary64 bits).toNat = bits.toNat / hiddenBit / 2048 := by
  unfold unpackSign
  rw [BitVec.toNat_cast, BitVec.extractLsb_toNat, Nat.shiftRight_eq_div_pow, Nat.div_div_eq_div_mul]
  refine Nat.mod_eq_of_lt ?_
  show bits.toNat / 2 ^ 63 < 2 ^ 1
  have := bits.isLt
  omega

/-- The three fields of a code. -/
theorem Binary.Proper.code_fields {b : Binary} (hb : b.Proper) :
    b.code / hiddenBit / 2048 = (if b.negative then 1 else 0) ∧
    b.code / hiddenBit % 2048
      = (if b.significand < hiddenBit then 0 else (b.exponent + 1075).toNat) ∧
    b.code % hiddenBit
      = (if b.significand < hiddenBit then b.significand else b.significand - hiddenBit) := by
  have hsmall := hb.small
  have htop := hb.top
  unfold Binary.code
  cases b.negative <;> simp only [Bool.false_eq_true, if_true, if_false] <;> split <;>
    unfold hiddenBit at * <;> omega

/-- A proper double is unpacked from its code. -/
theorem unpack_code {b : Binary} (hb : b.Proper) {bits : BitVec 64} (h : bits.toNat = b.code) :
    UnpackedFloat.unpack Format.binary64 bits
      = .finite b.sign b.significand b.exponent hb.positive := by
  obtain ⟨hsign, hstored, hfraction⟩ := hb.code_fields
  rw [← h, ← toNat_unpackSign] at hsign
  rw [← h, ← toNat_unpackExponent] at hstored
  rw [← h, ← toNat_unpackMantissa] at hfraction
  have hleast := hb.least
  have htop := hb.top
  have hone : ∀ x : BitVec 11, x = -1#11 ↔ x.toNat = 2047 := by
    intro x
    rw [← BitVec.toNat_inj]
    rfl
  have hzero : ∀ (n : Nat) (x : BitVec n), x = 0#n ↔ x.toNat = 0 := by
    intro n x
    rw [← BitVec.toNat_inj, BitVec.toNat_zero]
  have hnegative : Sign.ofBitVec (@unpackSign Format.binary64 bits) = b.sign := by
    unfold Sign.ofBitVec Binary.sign
    cases hn : b.negative <;> rw [hn] at hsign
    · exact if_pos (by rw [hzero, hsign]; rfl)
    · exact if_neg (by rw [hzero, hsign]; decide)
  have hbias : (Format.binary64.exponentBias : Int) + (52 : Nat) = 1075 := rfl
  unfold UnpackedFloat.unpack
  dsimp only
  rw [hnegative]
  -- A stored exponent of zero marks the subnormal numbers, whose fraction has no hidden bit.
  by_cases hfull : b.significand < hiddenBit
  · rw [if_pos hfull] at hstored hfraction
    have hexponent := hb.full.resolve_right (Nat.not_le.2 hfull)
    rw [if_neg (by rw [hone, hstored]; decide), if_pos (by rw [hzero, hstored]),
      dif_neg (by rw [hzero, hfraction]; exact hb.positive.ne')]
    rw [UnpackedFloat.finite.injEq]
    refine ⟨rfl, hfraction, ?_⟩
    rw [hstored, hbias, hexponent]
    rfl
  · rw [if_neg hfull] at hstored hfraction
    rw [if_neg (by rw [hone, hstored]; omega), if_neg (by rw [hzero, hstored]; omega)]
    rw [UnpackedFloat.finite.injEq]
    refine ⟨rfl, ?_, ?_⟩
    · rw [toNat_append, hfraction]
      show 1 * 2 ^ 52 + _ = _
      unfold hiddenBit at *
      omega
    · rw [hstored, hbias]
      omega

/-! ## The content of a double -/

section

variable {x : Float} {b : Binary}

/-- A double is packed from what was taken out of it. -/
theorem eq_pack (h : Binary.ofFloat? x = some b) (hb : b.Proper) :
    x = .ofModel (.pack (.finite b.sign b.significand b.exponent hb.positive)) :=
  float_eq ((ofFloat?_some h).1.trans (toNat_pack hb).symm)

/-- What the library takes out of a double is the same. -/
theorem unpack_eq (h : Binary.ofFloat? x = some b) (hb : b.Proper) :
    x.toModel.unpack = .finite b.sign b.significand b.exponent hb.positive :=
  unpack_code hb (ofFloat?_some h).1

end

/-- To pack a number and unpack it gives the number. -/
theorem unpack_pack {b : Binary} (hb : b.Proper) :
    (Float.Model.pack (.finite b.sign b.significand b.exponent hb.positive)).unpack
      = .finite b.sign b.significand b.exponent hb.positive :=
  unpack_code hb (toNat_pack hb)

/-- The double of this magnitude, without its sign. -/
def Binary.Proper.double {b : Binary} (hb : b.Proper) : Float :=
  .ofModel (.pack (.finite .positive b.significand b.exponent hb.positive))

/-- A double is its magnitude with its sign. -/
theorem eq_double {x : Float} {b : Binary} (h : Binary.ofFloat? x = some b) (hb : b.Proper) :
    x = if b.negative then -hb.double else hb.double := by
  rw [eq_pack h hb]
  unfold Binary.sign
  cases b.negative with
  | false => rfl
  | true =>
    -- the sign is turned after unpacking
    have hpositive : Binary.Proper { b with negative := false } :=
      ⟨hb.positive, hb.small, hb.least, hb.top, hb.full, hb.gap⟩
    have hunpack := unpack_pack hpositive
    show _ = Float.ofModel (.pack (UnpackedFloat.neg (Float.Model.unpack _)))
    exact (congrArg (fun u => Float.ofModel (.pack (UnpackedFloat.neg u))) hunpack).symm

end Primer.Real
