import Primer.Proofs.Real.Packing
import Primer.Real.Text

/-!
# Primer.Proofs.Real.Sign — reading digits never gives a sign.

A sign is read in front of the digits, and the digits alone are read by operations on numbers
without a sign: conversion, products and quotients.  Main statement: `readDecimal?_unsigned`.

`Plain` says of an unpacked number that it is no negative number and no negative zero, and
`Unsigned` says of a double that its first bit is not set.  Packing takes one to the other; the rest
is one lemma for each operation.
-/

namespace Primer.Real

open Float.Model Float.Model.UnpackedFloat

/-- The number has no sign in front of it. -/
def Plain : UnpackedFloat → Prop
  | .infinity sign | .zero sign | .finite sign .. => sign = .positive
  | .notANumber => True

/-- The bit of the sign is not set. -/
def Unsigned (x : Float) : Prop := x.toBits.toNat < 2048 * hiddenBit

/-- A positive sign leaves the first bit unset. -/
theorem toNat_packComponents_positive (exponent : BitVec 11) (fraction : BitVec 52) :
    (packComponents Format.binary64 .positive exponent fraction).toNat < 2048 * hiddenBit := by
  rw [toNat_packComponents]
  have hexponent := exponent.isLt
  have hfraction := fraction.isLt
  show (0 * 2048 + _) * hiddenBit + _ < _
  unfold hiddenBit
  omega

/-- A plain number packs to a double without a sign. -/
theorem unsigned_pack {u : UnpackedFloat} (h : Plain u) : Unsigned (.ofModel (.pack u)) := by
  show (UnpackedFloat.pack Format.binary64 u).toNat < _
  unfold UnpackedFloat.pack
  cases u with
  | notANumber => exact toNat_packComponents_positive _ _
  | infinity sign =>
    obtain rfl : sign = .positive := h
    exact toNat_packComponents_positive _ _
  | zero sign =>
    obtain rfl : sign = .positive := h
    exact toNat_packComponents_positive _ _
  | finite sign m e hm =>
    obtain rfl : sign = .positive := h
    dsimp only
    split
    · exact toNat_packComponents_positive _ _
    · split <;> exact toNat_packComponents_positive _ _

/-- A double without a sign unpacks to a plain number. -/
theorem plain_unpack {x : Float} (h : Unsigned x) : Plain x.toModel.unpack := by
  have hsign : Sign.ofBitVec (@unpackSign Format.binary64 x.toModel.toBits.toBitVec)
      = .positive := by
    refine if_pos (BitVec.eq_of_toNat_eq ?_)
    rw [toNat_unpackSign]
    have h : x.toModel.toBits.toBitVec.toNat < 2048 * hiddenBit := h
    unfold hiddenBit at *
    show _ = 0
    omega
  unfold Float.Model.unpack UnpackedFloat.unpack
  dsimp only
  rw [hsign]
  apply iteInduction
  · exact fun _ => iteInduction (fun _ => rfl) fun _ => trivial
  · intro
    apply iteInduction
    · intro
      rw [apply_dite Plain, dite_prop_iff_and]
      exact ⟨fun _ => rfl, fun _ => rfl⟩
    · exact fun _ => rfl

theorem plain_roundWithAccuracy (m : Nat) (e : Int) (accuracy : Accuracy) :
    Plain (roundWithAccuracy Format.binary64 .positive m e accuracy) := by
  unfold roundWithAccuracy
  dsimp only
  rw [apply_dite Plain, dite_prop_iff_and]
  exact ⟨fun _ => rfl, fun _ => rfl⟩

theorem plain_mul {u v : UnpackedFloat} (hu : Plain u) (hv : Plain v) :
    Plain (UnpackedFloat.mul Format.binary64 u v) := by
  cases u <;> cases v <;> dsimp only [Plain] at hu hv <;> subst_vars <;>
    first | trivial | exact plain_roundWithAccuracy _ _ _

theorem plain_div {u v : UnpackedFloat} (hu : Plain u) (hv : Plain v) :
    Plain (UnpackedFloat.div Format.binary64 u v) := by
  cases u <;> cases v <;> dsimp only [Plain] at hu hv <;> subst_vars <;>
    first | trivial | exact plain_roundWithAccuracy _ _ _

theorem plain_ofNat (n : Nat) : Plain (UnpackedFloat.ofNat Format.binary64 n) := by
  unfold UnpackedFloat.ofNat UnpackedFloat.ofInt UnpackedFloat.normalize
  split
  · rename_i h
    rw [Int.compare_eq_lt] at h
    omega
  · rfl
  · exact plain_roundWithAccuracy _ _ _

theorem plain_ofScientific (n : Nat) (e : Int) :
    Plain (UnpackedFloat.ofScientific Format.binary64 n e) := by
  unfold UnpackedFloat.ofScientific
  rw [apply_dite Plain, dite_prop_iff_and]
  refine ⟨fun _ => rfl, fun _ => ?_⟩
  apply iteInduction
  · exact fun _ => rfl
  · intro
    apply iteInduction
    · exact fun _ => rfl
    · exact fun _ => iteInduction (fun _ => plain_roundWithAccuracy _ _ _)
        fun _ => plain_roundWithAccuracy _ _ _

/-- The powers of ten in the table have no sign. -/
theorem unsigned_powers : ∀ x ∈ Float.exactlyRepresentablePowersOfTen.toList,
    x.toBits.toNat < 2048 * hiddenBit := by
  decide +kernel

theorem ofDecimal_unsigned (significand : Nat) (exponent : Int) :
    Unsigned (ofDecimal significand exponent) := by
  unfold ofDecimal
  split
  · unfold Unsigned
    decide +kernel
  dsimp only
  split
  · unfold Unsigned
    decide +kernel
  split
  · unfold Unsigned
    decide +kernel
  show Unsigned (Float.ofScientific significand (decide (exponent < 0)) exponent.natAbs)
  unfold Float.ofScientific
  split
  · dsimp only
    have hn : Plain (significand.toUInt64.toFloat.toModel.unpack) :=
      plain_unpack (unsigned_pack (plain_ofNat _))
    rename_i hfast
    have hindex : exponent.natAbs < Float.exactlyRepresentablePowersOfTen.size := by
      simp [Float.exactlyRepresentablePowersOfTen]
      omega
    have hpower := plain_unpack (unsigned_powers _ (Array.getElem_mem_toList hindex))
    split
    · exact unsigned_pack (plain_div hn hpower)
    · exact unsigned_pack (plain_mul hn hpower)
  · exact unsigned_pack (plain_ofScientific _ _)

/-- What is read from digits has no sign. -/
theorem readDecimal?_unsigned {cs : List Char} {x : Float} (h : readDecimal? cs = some x) :
    Unsigned x := by
  unfold readDecimal? at h
  dsimp only at h
  -- with a fraction and without one
  split at h
  all_goals
    split at h
    · cases h
    · obtain ⟨_, -, rfl⟩ := Option.map_eq_some_iff.1 h
      exact ofDecimal_unsigned _ _

end Primer.Real
