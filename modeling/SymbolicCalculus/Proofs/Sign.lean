/-
# Decimals denote numbers without a sign

The binary number nearest to a decimal never has its sign bit set (`Binary64.isNegative_ofDecimal`):
rounding keeps the sign that products and quotients of unsigned numbers have.
-/
import Mathlib
import SymbolicCalculus.Binary64

namespace SymbolicCalculus.Binary64

open Float.Model (UnpackedFloat Format)
open Float.Model.UnpackedFloat (Sign Accuracy)

/-! ## 1. Unsigned numbers -/

/-- Whether the number has no sign, as far as it can have one. -/
def IsUnsigned : UnpackedFloat → Prop
  | .notANumber => True
  | .infinity s | .zero s | .finite s _ _ _ => s = .positive

theorem isUnsigned_roundWithAccuracy (spec : Format) (m : Nat) (e : Int) (acc : Accuracy) :
    IsUnsigned (UnpackedFloat.roundWithAccuracy spec .positive m e acc) := by
  simp only [UnpackedFloat.roundWithAccuracy]
  split <;> rfl

theorem isUnsigned_mul (spec : Format) {a b : UnpackedFloat} (ha : IsUnsigned a)
    (hb : IsUnsigned b) : IsUnsigned (UnpackedFloat.mul spec a b) := by
  cases a <;> cases b <;> simp only [IsUnsigned] at ha hb <;> subst_vars
  case finite.finite => exact isUnsigned_roundWithAccuracy ..
  all_goals trivial

theorem isUnsigned_div (spec : Format) {a b : UnpackedFloat} (ha : IsUnsigned a)
    (hb : IsUnsigned b) : IsUnsigned (UnpackedFloat.div spec a b) := by
  cases a <;> cases b <;> simp only [IsUnsigned] at ha hb <;> subst_vars
  case finite.finite => exact isUnsigned_roundWithAccuracy ..
  all_goals trivial

theorem isUnsigned_ofUInt64 (spec : Format) (n : UInt64) :
    IsUnsigned (UnpackedFloat.ofUInt64 spec n) := by
  simp only [UnpackedFloat.ofUInt64, UnpackedFloat.ofNat, UnpackedFloat.ofInt,
    UnpackedFloat.normalize]
  split
  · next h => exact absurd (Int.compare_eq_lt.mp h) (by omega)
  · rfl
  · exact isUnsigned_roundWithAccuracy ..

theorem isUnsigned_ofScientific (spec : Format) (m : Nat) (e : Int) :
    IsUnsigned (UnpackedFloat.ofScientific spec m e) := by
  unfold UnpackedFloat.ofScientific
  split
  · rfl
  · split
    · rfl
    · split
      · rfl
      · split
        · exact isUnsigned_mul spec rfl rfl
        · exact isUnsigned_div spec rfl rfl

/-! ## 2. The sign bit -/

theorem getLsbD_packComponents (s : Sign) (e : BitVec Format.binary64.exponentBits)
    (m : BitVec Format.binary64.mantissaBitsWithoutImplicit) :
    (UnpackedFloat.packComponents .binary64 s e m).getLsbD 63 = s.toBitVec.getLsbD 0 := by
  have hlt : ¬63 < Format.binary64.mantissaBitsWithoutImplicit := by decide
  have hlt' : ¬63 - Format.binary64.mantissaBitsWithoutImplicit < Format.binary64.exponentBits := by
    decide
  rw [UnpackedFloat.packComponents, BitVec.getLsbD_append, if_neg hlt, BitVec.getLsbD_append,
    if_neg hlt']
  rfl

/-- The sign bit of an unsigned number is clear. -/
theorem getLsbD_pack {a : UnpackedFloat} (h : IsUnsigned a) :
    (UnpackedFloat.pack .binary64 a).getLsbD 63 = false := by
  cases a with
  | notANumber => exact getLsbD_packComponents ..
  | infinity s =>
    obtain rfl : s = .positive := h
    exact getLsbD_packComponents ..
  | zero s =>
    obtain rfl : s = .positive := h
    exact getLsbD_packComponents ..
  | finite s m e hm =>
    obtain rfl : s = .positive := h
    simp only [UnpackedFloat.pack]
    split
    · exact getLsbD_packComponents ..
    · split <;> exact getLsbD_packComponents ..

/-- A number whose sign bit is clear is unsigned. -/
theorem isUnsigned_unpack {b : BitVec Format.binary64.numBits} (h : b.getLsbD 63 = false) :
    IsUnsigned (UnpackedFloat.unpack .binary64 b) := by
  have hsign : UnpackedFloat.unpackSign b = 0#1 := by
    ext i hi
    obtain rfl : i = 0 := by omega
    simpa [UnpackedFloat.unpackSign, BitVec.getLsbD_eq_getElem] using h
  simp only [UnpackedFloat.unpack, hsign]
  split
  · split <;> trivial
  · split
    · split <;> rfl
    · rfl

/-! ## 3. Decimals -/

theorem isNegative_ofModel_pack {a : UnpackedFloat} (h : IsUnsigned a) :
    isNegative (.ofModel (.pack a)) = false :=
  getLsbD_pack h

theorem isUnsigned_unpack_pack {a : UnpackedFloat} (h : IsUnsigned a) :
    IsUnsigned (Float.Model.pack a).unpack :=
  isUnsigned_unpack (getLsbD_pack h)

/-- The powers of ten that the conversion looks up are unsigned. -/
theorem isUnsigned_power (e : Nat) (he : e < Float.exactlyRepresentablePowersOfTen.size) :
    IsUnsigned (Float.exactlyRepresentablePowersOfTen[e]).toModel.unpack := by
  have hall : ∀ x ∈ Float.exactlyRepresentablePowersOfTen.toList,
      x.toModel.toBits.toBitVec.getLsbD 63 = false := by
    decide +kernel
  exact isUnsigned_unpack (hall _ (by simp))

/-- **A decimal denotes a number without a sign.** -/
theorem isNegative_ofDecimal (d : Decimal) : isNegative (ofDecimal d) = false := by
  have hscientific (m : Nat) (s : Bool) (e : Nat) :
      isNegative (Float.ofScientific m s e) = false := by
    have hnat : IsUnsigned (m.toUInt64.toFloat).toModel.unpack :=
      isUnsigned_unpack_pack (isUnsigned_ofUInt64 _ _)
    unfold Float.ofScientific
    split
    · simp only
      split
      · exact isNegative_ofModel_pack (isUnsigned_div _ hnat (isUnsigned_power _ _))
      · exact isNegative_ofModel_pack (isUnsigned_mul _ hnat (isUnsigned_power _ _))
    · exact isNegative_ofModel_pack (isUnsigned_ofScientific ..)
  unfold ofDecimal
  split <;> exact hscientific ..

/-- A number that a decimal denotes is not written with a sign. -/
theorem form_ofDecimal_ne (d m : Decimal) : form (ofDecimal d) ≠ .finite true m := by
  unfold form
  rw [isNegative_ofDecimal]
  split
  · simp
  · simp
  · split <;> simp

end SymbolicCalculus.Binary64
