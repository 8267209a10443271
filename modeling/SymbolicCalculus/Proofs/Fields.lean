/-
# Negative, infinite and other numbers

The bits of a binary number are a sign, an exponent field and a fraction field.  Negation turns the
sign and leaves the fields alone (`Binary64.bits_neg`), so negating twice changes nothing
(`neg_neg`), and a negative number is written as the digits of its negation behind a minus sign
(`exists_form_of_isNegative`).  What is no number is the quotient of zero and zero, and what is
infinite is the quotient of one and zero or its negation.
-/
import SymbolicCalculus.Proofs.Sign

namespace SymbolicCalculus.Binary64

open Float.Model (UnpackedFloat Format)
open Float.Model.UnpackedFloat (Sign packComponents unpackSign unpackExponent unpackMantissa
  isNaNBits)

/-! ## 1. Fields -/

/-- The bits of a number. -/
def bits (v : Float) : BitVec Format.binary64.numBits := v.toBits.toBitVec

/-- The exponent field of a number. -/
def exponentField (v : Float) : Nat :=
  BitVec.toNat (unpackExponent (bits v) : BitVec Format.binary64.exponentBits)

/-- The fraction field of a number. -/
def fractionField (v : Float) : Nat :=
  BitVec.toNat (unpackMantissa (bits v) : BitVec Format.binary64.mantissaBitsWithoutImplicit)

theorem eq_of_bits_eq {v w : Float} (h : bits v = bits w) : v = w :=
  Float.toBits_inj.mp (UInt64.toBitVec_inj.mp h)

/-- Packing what the bits of a number encode gives the bits again. -/
theorem pack_unpack_bits (v : Float) :
    UnpackedFloat.pack .binary64 (UnpackedFloat.unpack .binary64 (bits v)) = bits v :=
  UnpackedFloat.pack_unpack_of_valid v.toModel.valid

/-- The magnitude of a number is that of its fields. -/
theorem magnitude_eq (v : Float) :
    magnitude v = .ofFields (exponentField v) (fractionField v) := by
  have hexponent : exponentField v = v.toBits.toNat / hiddenBit % 2048 := by
    simp [exponentField, UnpackedFloat.unpackExponent_def, bits, hiddenBit,
      BitVec.extractLsb'_toNat, Nat.shiftRight_eq_div_pow]
  have hfraction : fractionField v = v.toBits.toNat % hiddenBit := by
    simp [fractionField, UnpackedFloat.unpackMantissa_def, bits, hiddenBit,
      BitVec.extractLsb'_toNat]
  rw [hexponent, hfraction]
  rfl

/-- The sign bit is set just if the sign is negative. -/
theorem isNegative_eq (v : Float) :
    isNegative v = (unpackSign (bits v) : BitVec 1).getLsbD 0 := by
  simp [UnpackedFloat.unpackSign_def]
  rfl

theorem isNaN_eq (v : Float) : v.isNaN = isNaNBits (bits v) := by
  change (UnpackedFloat.unpack .binary64 (bits v)).isNaN = _
  unfold UnpackedFloat.unpack isNaNBits
  simp only
  split
  · next he => split <;> simp_all [UnpackedFloat.isNaN]
  · next he =>
    split
    · split <;> simp_all [UnpackedFloat.isNaN]
    · simp_all [UnpackedFloat.isNaN]

/-! ## 2. Negation -/

/-- The bits with the sign turned. -/
def flipSign (b : BitVec Format.binary64.numBits) : BitVec Format.binary64.numBits :=
  packComponents .binary64 (-Sign.ofBitVec (unpackSign b)) (unpackExponent b) (unpackMantissa b)

theorem unpack_flipSign (b : BitVec Format.binary64.numBits) :
    UnpackedFloat.unpack .binary64 (flipSign b) = (UnpackedFloat.unpack .binary64 b).neg := by
  simp only [UnpackedFloat.unpack, flipSign, UnpackedFloat.unpackSign_packComponents,
    UnpackedFloat.unpackExponent_packComponents, UnpackedFloat.unpackMantissa_packComponents,
    Sign.ofBitVec_toBitVec]
  split
  · split <;> rfl
  · split
    · split <;> rfl
    · rfl

/-- **Negation turns the sign and leaves the fields alone.** -/
theorem bits_neg {v : Float} (h : v.isNaN = false) : bits (-v) = flipSign (bits v) := by
  have hnan : isNaNBits (flipSign (bits v)) = false := by
    rw [isNaN_eq] at h
    simpa [isNaNBits, flipSign] using h
  change UnpackedFloat.pack .binary64 (UnpackedFloat.unpack .binary64 (bits v)).neg = _
  rw [← unpack_flipSign, UnpackedFloat.pack_unpack, hnan]
  rfl

/-- Negating twice changes nothing. -/
theorem neg_neg (v : Float) : - -v = v := by
  cases h : v.isNaN with
  | true =>
    obtain rfl : v = Float.nan := by simpa using h
    decide +kernel
  | false =>
    refine eq_of_bits_eq ?_
    change UnpackedFloat.pack .binary64 (UnpackedFloat.unpack .binary64 (bits (-v))).neg = _
    have hneg (u : UnpackedFloat) : u.neg.neg = u := by
      cases u with
      | notANumber => rfl
      | infinity s => cases s <;> rfl
      | zero s => cases s <;> rfl
      | finite s m e hm => cases s <;> rfl
    rw [bits_neg h, unpack_flipSign, hneg, pack_unpack_bits]

theorem magnitude_neg {v : Float} (h : v.isNaN = false) : magnitude (-v) = magnitude v := by
  have hexponent : exponentField (-v) = exponentField v := by
    simp [exponentField, bits_neg h, flipSign]
  have hfraction : fractionField (-v) = fractionField v := by
    simp [fractionField, bits_neg h, flipSign]
  rw [magnitude_eq, magnitude_eq, hexponent, hfraction]

theorem isNegative_neg {v : Float} (h : v.isNaN = false) : isNegative (-v) = !isNegative v := by
  rw [isNegative_eq, isNegative_eq, bits_neg h, flipSign, UnpackedFloat.unpackSign_packComponents]
  rcases BitVec.eq_zero_or_eq_one (unpackSign (bits v) : BitVec 1) with hs | hs <;> rw [hs] <;> rfl

/-! ## 3. How numbers are written -/

/-- What is infinite is the quotient of one and zero, or its negation. -/
theorem eq_of_isInf {v : Float} (h : v.isInf = true) : v = 1 / 0 ∨ v = -(1 / 0) := by
  change (UnpackedFloat.unpack .binary64 (bits v)).isInf = true at h
  have hbits := pack_unpack_bits v
  generalize UnpackedFloat.unpack .binary64 (bits v) = u at h hbits
  cases u with
  | infinity s =>
    cases s with
    | negative => exact .inr (eq_of_bits_eq (hbits.symm.trans (by decide +kernel)))
    | positive => exact .inl (eq_of_bits_eq (hbits.symm.trans (by decide +kernel)))
  | _ => exact absurd h (by simp [UnpackedFloat.isInf])

/-- The exponent field of a finite number is not full. -/
theorem exponentField_ne {v : Float} (hnan : v.isNaN = false) (hinf : v.isInf = false) :
    exponentField v ≠ 2047 := by
  intro hfull
  have he : (unpackExponent (bits v) : BitVec Format.binary64.exponentBits) = -1#_ :=
    BitVec.toNat_inj.mp hfull
  by_cases hf : (unpackMantissa (bits v) : BitVec Format.binary64.mantissaBitsWithoutImplicit) = 0#_
  · change (UnpackedFloat.unpack .binary64 (bits v)).isInf = false at hinf
    simp [UnpackedFloat.unpack, he, hf, UnpackedFloat.isInf] at hinf
  · rw [isNaN_eq] at hnan
    simp [isNaNBits, he, hf] at hnan

/-- A finite number is written as a decimal behind its sign, and its negation as the same decimal
behind the other sign. -/
theorem exists_form_eq {v : Float} (hnan : v.isNaN = false) (hinf : v.isInf = false) :
    ∃ d, form v = .finite (isNegative v) d ∧ form (-v) = .finite (!isNegative v) d := by
  obtain ⟨m, e, boundary, hfinite⟩ : ∃ m e boundary, magnitude v = .finite m e boundary := by
    rw [magnitude_eq, Magnitude.ofFields, if_neg (exponentField_ne hnan hinf)]
    split <;> exact ⟨_, _, _, rfl⟩
  simp only [form, magnitude_neg hnan, isNegative_neg hnan, hfinite]
  split <;> exact ⟨_, rfl, rfl⟩

end SymbolicCalculus.Binary64
