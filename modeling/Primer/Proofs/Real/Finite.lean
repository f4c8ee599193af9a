import Primer.Proofs.Real.Nearest

/-!
# Primer.Proofs.Real.Finite — what the finite doubles are closed under.

A finite double unpacks to a zero, or to a number whose exponent is in range, and what is in range
packs into a finite double.  Main statements: `isFinite_neg`, `isFinite_toReal` and `exists_order`,
finite doubles are ordered.

Both statements about operations go through `InRange`: `inRange_unpack` opens a finite double and
`isFinite_pack` closes one again.  The order is that of the unpacked numbers, where two finite ones
are always comparable; the comparisons of doubles are read off it.
-/

namespace Primer.Real

open Float.Model Float.Model.UnpackedFloat

/-- A zero, or a number whose exponent is at most that of the greatest double. -/
def InRange : UnpackedFloat → Prop
  | .zero _ => True
  | .finite _ _ e _ => e ≤ 971
  | .infinity _ | .notANumber => False

/-- The greatest exponent that can be stored is that of the infinities. -/
theorem isFinite_iff (x : Float) :
    isFinite x = true ↔ x.toBits.toNat / hiddenBit % 2048 ≠ 2047 := by
  unfold isFinite Binary.ofFloat?
  dsimp only
  split
  · rename_i hstored
    simp [hstored]
  · rename_i hstored
    split <;> simp [hstored]

/-- A finite double unpacks to a number in range. -/
theorem inRange_unpack {x : Float} (h : isFinite x = true) : InRange x.toModel.unpack := by
  have hstored := (isFinite_iff x).1 h
  have hexponent : (@unpackExponent Format.binary64 x.toModel.toBits.toBitVec).toNat
      = x.toBits.toNat / hiddenBit % 2048 := toNat_unpackExponent _
  have hbias : (Format.binary64.exponentBias : Int)
      + (Format.binary64.mantissaBitsWithoutImplicit : Nat) = 1075 := rfl
  unfold Float.Model.unpack UnpackedFloat.unpack
  dsimp only
  rw [if_neg]
  · apply iteInduction
    · intro hzero
      rw [apply_dite InRange, dite_prop_iff_and]
      refine ⟨fun _ => trivial, fun _ => ?_⟩
      rw [hbias, hzero]
      show ((0 : Nat) : Int) - 1075 + 1 ≤ 971
      omega
    · intro
      rw [hbias, hexponent]
      show ((x.toBits.toNat / hiddenBit % 2048 : Nat) : Int) - 1075 ≤ 971
      omega
  · intro hones
    rw [hones] at hexponent
    exact hstored hexponent.symm

/-- What is in range packs to a finite double. -/
theorem isFinite_pack {u : UnpackedFloat} (h : InRange u) :
    isFinite (.ofModel (.pack u)) = true := by
  rw [isFinite_iff]
  show (UnpackedFloat.pack Format.binary64 u).toNat / hiddenBit % 2048 ≠ 2047
  -- the stored exponent is the middle one of the three components
  have hstored (sign : Sign) {exponent : BitVec 11} (fraction : BitVec 52)
      (hexponent : exponent.toNat ≠ 2047) :
      (packComponents Format.binary64 sign exponent fraction).toNat / hiddenBit % 2048
        ≠ 2047 := by
    rw [toNat_packComponents]
    have hlt := exponent.isLt
    have hfraction := fraction.isLt
    unfold hiddenBit
    omega
  cases u with
  | infinity sign => exact h.elim
  | notANumber => exact h.elim
  | zero sign => exact hstored sign _ (by decide)
  | finite sign m e hm =>
    have hrange : e ≤ 971 := h
    have hbiased : (e + (Format.binary64.exponentBias : Int)
        + (Format.binary64.mantissaBitsWithoutImplicit : Nat)).toNat ≤ 2046 := by
      show (e + 1023 + 52).toNat ≤ 2046
      omega
    unfold UnpackedFloat.pack
    dsimp only
    rw [if_neg (Nat.not_le.2 (Nat.lt_succ_of_le (Nat.succ_le_succ hbiased)))]
    split
    · apply hstored
      rw [BitVec.toNat_ofNat]
      exact ne_of_lt ((Nat.mod_le _ _).trans_lt (Nat.lt_succ_of_le hbiased))
    · exact hstored sign _ (by decide)

/-- The negation of a finite double is finite. -/
theorem isFinite_neg {x : Float} (h : isFinite x = true) : isFinite (-x) = true := by
  have hrange := inRange_unpack h
  show isFinite (.ofModel (.pack (UnpackedFloat.neg x.toModel.unpack))) = true
  apply isFinite_pack
  cases hunpack : x.toModel.unpack with
  | infinity sign => rw [hunpack] at hrange; exact hrange
  | notANumber => rw [hunpack] at hrange; exact hrange
  | zero sign => trivial
  | finite sign m e hm => rw [hunpack] at hrange; exact hrange

/-- A small whole number is a finite double. -/
theorem isFinite_ofNat {n : Nat} (hsmall : n < 2 * hiddenBit) :
    isFinite (Float.ofNat n) = true := by
  rcases Nat.eq_zero_or_pos n with rfl | hn
  · decide +kernel
  · have hproper := Binary.proper_ofNat hn hsmall
    have hnear : (Binary.ofNat n).Near (n / 10 ^ 0) := by
      rw [pow_zero, div_one, ← Binary.magnitude_ofNat hn hsmall]
      exact Binary.near_magnitude _
    have hdouble : Float.ofNat n = hproper.double :=
      ofScientific_near hproper hn hnear (Nat.zero_le _)
    rw [hdouble]
    exact isFinite_pack hproper.top

/-- An integer of the language widens to a finite double. -/
theorem isFinite_toReal (n : Integer) : isFinite n.toReal = true := by
  obtain ⟨k, hlower, hupper⟩ := n
  show isFinite (Float.ofInt k) = true
  cases k with
  | ofNat k =>
    rw [Int.ofNat_eq_natCast] at hupper
    exact isFinite_ofNat (by unfold hiddenBit; omega)
  | negSucc k =>
    rw [Int.negSucc_eq] at hlower
    exact isFinite_neg (isFinite_ofNat (by unfold hiddenBit; omega))

/-! ## Order -/

/-- Two numbers in range are ordered, and the other way round when they change places. -/
theorem exists_compare {u v : UnpackedFloat} (hu : InRange u) (hv : InRange v) :
    ∃ o : Ordering, u.compare v = some o ∧ v.compare u = some o.swap := by
  have hfields (m₁ m₂ : Nat) (e₁ e₂ : Int) :
      ((compare e₁ e₂).then (compare m₁ m₂)).swap = (compare e₂ e₁).then (compare m₂ m₁) := by
    rw [Ordering.swap_then, Int.compare_swap, Nat.compare_swap]
  cases u with
  | infinity sign => exact hu.elim
  | notANumber => exact hu.elim
  | zero sign =>
    cases v with
    | infinity sign => exact hv.elim
    | notANumber => exact hv.elim
    | zero other => exact ⟨.eq, rfl, rfl⟩
    | finite other m e hm => cases other <;> exact ⟨_, rfl, rfl⟩
  | finite sign m₁ e₁ h₁ =>
    cases v with
    | infinity sign => exact hv.elim
    | notANumber => exact hv.elim
    | zero other => cases sign <;> exact ⟨_, rfl, rfl⟩
    | finite other m₂ e₂ h₂ =>
      cases sign <;> cases other
      · refine ⟨_, rfl, ?_⟩
        rw [Ordering.swap_swap, ← hfields]
        rfl
      · exact ⟨_, rfl, rfl⟩
      · exact ⟨_, rfl, rfl⟩
      · refine ⟨_, rfl, ?_⟩
        rw [hfields]
        rfl

/-- Less, as a comparison of what is unpacked. -/
theorem lt_iff (x y : Float) :
    x < y ↔ x.toModel.unpack.compare y.toModel.unpack = some .lt := by
  show decide (x.toModel < y.toModel) = true ↔ _
  rw [decide_eq_true_iff]
  exact beq_iff_eq

/-- Equal, as a comparison of what is unpacked. -/
theorem beq_iff (x y : Float) :
    (x == y) = true ↔ x.toModel.unpack.compare y.toModel.unpack = some .eq :=
  beq_iff_eq (a := x.toModel.unpack.compare y.toModel.unpack)

/-- Two finite doubles are ordered. -/
theorem exists_order {x y : Float} (hx : isFinite x = true) (hy : isFinite y = true) :
    ∃ o, order? x y = some o := by
  obtain ⟨o, hxy, hyx⟩ := exists_compare (inRange_unpack hx) (inRange_unpack hy)
  unfold order?
  simp only [lt_iff, beq_iff, hxy, hyx]
  cases o <;> exact ⟨_, rfl⟩

end Primer.Real
