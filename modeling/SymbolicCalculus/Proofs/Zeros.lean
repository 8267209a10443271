/-
# Numbers that agree

Two numbers agree if they compare equal, or if neither of them is a number (`Binary64.Agree`).
Literals are compared in this way.  It is nearly identity: of numbers that are not the same, only
the two zeros agree (`agree_iff`).

An operation can still tell the zeros apart: one divided by them gives infinities of different
signs.  That is the one case among the operations that are computed exactly before they are rounded:

* sums, differences, products and square roots of numbers that agree do agree (`Agree.add`,
  `Agree.sub`, `Agree.mul`, `Agree.unary`);
* quotients do, unless a number other than zero is divided by zero (`Agree.div`).
-/
import Mathlib
import SymbolicCalculus.Binary64

namespace SymbolicCalculus.Binary64

open Float.Model (UnpackedFloat Format)
open Float.Model.UnpackedFloat (Sign)

variable {v v' w w' x : Float}

/-! ## 1. Agreement -/

/-- The number is a zero, of either sign. -/
def IsZero (v : Float) : Prop := v = 0 ∨ v = -0

/-- The numbers compare equal, or neither of them is a number. -/
def Agree (v w : Float) : Prop := (v == w) = true ∨ v.isNaN = true ∧ w.isNaN = true

instance : DecidableRel Agree := fun v w =>
  inferInstanceAs (Decidable ((v == w) = true ∨ v.isNaN = true ∧ w.isNaN = true))

/-- Literals are compared by agreement. -/
theorem same_iff_agree : Arithmetic.same v w = true ↔ Agree v w := by
  have hnan (u : Float) : Arithmetic.isNaN u = u.isNaN := by
    by_cases hu : u = Float.nan
    · simp [Arithmetic.isNaN, hu]
    · have hself : (u == u) = true := Float.beq_self_iff.mpr hu
      simp [Arithmetic.isNaN, hself, hu]
  simp only [Arithmetic.same, Agree, hnan, Bool.or_eq_true, Bool.and_eq_true]

/-- **Only the zeros agree without being the same.** -/
theorem agree_iff : Agree v w ↔ v = w ∨ IsZero v ∧ IsZero w := by
  simp only [Agree, IsZero, Float.beq_iff_ne_nan_and_eq, Float.isNaN_eq_decide_eq_nan,
    decide_eq_true_eq]
  constructor
  · rintro (⟨-, -, rfl | ⟨rfl, rfl⟩ | ⟨rfl, rfl⟩⟩ | ⟨rfl, rfl⟩)
    · exact .inl rfl
    · exact .inr ⟨.inl rfl, .inr rfl⟩
    · exact .inr ⟨.inr rfl, .inl rfl⟩
    · exact .inl rfl
  · have hzero : (0 : Float) ≠ Float.nan ∧ (-0 : Float) ≠ Float.nan := by decide +kernel
    rintro (rfl | ⟨rfl | rfl, rfl | rfl⟩)
    · by_cases hv : v = Float.nan
      · exact .inr ⟨hv, hv⟩
      · exact .inl ⟨hv, hv, .inl rfl⟩
    all_goals simp [hzero]

namespace Agree

theorem refl (v : Float) : Agree v v := agree_iff.mpr (.inl rfl)

theorem symm (h : Agree v w) : Agree w v := by
  rw [agree_iff] at h ⊢
  rcases h with rfl | ⟨hv, hw⟩
  · exact .inl rfl
  · exact .inr ⟨hw, hv⟩

theorem trans (h : Agree v w) (h' : Agree w x) : Agree v x := by
  rw [agree_iff] at h h' ⊢
  rcases h with rfl | ⟨hv, hw⟩
  · exact h'
  · rcases h' with rfl | ⟨-, hx⟩
    · exact .inr ⟨hv, hw⟩
    · exact .inr ⟨hv, hx⟩

/-- **A function respects agreement if it does so on the two zeros.** -/
theorem map (g : Float → Float) (hg : IsZero v → Agree (g 0) (g (-0))) (h : Agree v w) :
    Agree (g v) (g w) := by
  rcases agree_iff.mp h with rfl | ⟨hv, hw⟩
  · exact refl (g v)
  · have hzeros := hg hv
    rcases hv with rfl | rfl
    · rcases hw with rfl | rfl
      · exact refl _
      · exact hzeros
    · rcases hw with rfl | rfl
      · exact hzeros.symm
      · exact refl _

end Agree

theorem unpack_eq_zero_iff {s : Sign} : v.toModel.unpack = .zero s ↔
    v.toBits.toBitVec = UnpackedFloat.packedZero .binary64 s :=
  UnpackedFloat.unpack_eq_zero_iff_of_valid v.toModel.valid

theorem unpack_zero : (0 : Float).toModel.unpack = .zero .positive :=
  unpack_eq_zero_iff.mpr (by decide +kernel)

theorem unpack_neg_zero : (-0 : Float).toModel.unpack = .zero .negative :=
  unpack_eq_zero_iff.mpr (by decide +kernel)

/-- An operation takes the two zeros to what it takes their unpacked forms to. -/
theorem agree_pack (f : UnpackedFloat → UnpackedFloat)
    (hf : Agree (.ofModel (.pack (f (.zero .positive)))) (.ofModel (.pack (f (.zero .negative))))) :
    Agree (.ofModel (.pack (f (0 : Float).toModel.unpack)))
      (.ofModel (.pack (f (-0 : Float).toModel.unpack))) := by
  rwa [unpack_zero, unpack_neg_zero]

theorem agree_pack_zero : ∀ s t : Sign,
    Agree (.ofModel (.pack (.zero s))) (.ofModel (.pack (.zero t))) := by
  decide +kernel

/-! ## 3. Commutativity -/

/-- Addition is commutative; what is not a number has one form only. -/
protected theorem add_comm (v w : Float) : v + w = w + v := by
  change Float.ofModel (.pack _) = Float.ofModel (.pack _)
  congr 2
  generalize v.toModel.unpack = a, w.toModel.unpack = b
  cases a with
  | infinity s =>
    cases b with
    | infinity t => cases s <;> cases t <;> rfl
    | _ => rfl
  | zero s =>
    cases b with
    | zero t => cases s <;> cases t <;> rfl
    | _ => rfl
  | finite s m e hm =>
    cases b with
    | finite t n d hn =>
      simp only [UnpackedFloat.add, min_comm d e]
      rw [Int.add_comm]
    | _ => rfl
  | notANumber => cases b <;> rfl

/-- Multiplication is commutative. -/
protected theorem mul_comm (v w : Float) : v * w = w * v := by
  change Float.ofModel (.pack _) = Float.ofModel (.pack _)
  congr 2
  generalize v.toModel.unpack = a, w.toModel.unpack = b
  have hsign (s t : Sign) : s * t = t * s := by
    cases s <;> cases t <;> rfl
  cases a with
  | finite s m e hm =>
    cases b with
    | finite t n d hn =>
      simp only [UnpackedFloat.mul, hsign t s, Nat.mul_comm n m, Int.add_comm d e]
    | notANumber => rfl
    | _ => simp only [UnpackedFloat.mul, hsign]
  | notANumber => cases b <;> rfl
  | _ =>
    cases b with
    | notANumber => rfl
    | _ => simp only [UnpackedFloat.mul, hsign]

/-- What is added to a zero hides its sign. -/
theorem zero_add_agree (x : Float) : Agree (0 + x) (-0 + x) := by
  refine agree_pack (UnpackedFloat.add .binary64 · x.toModel.unpack) ?_
  cases x.toModel.unpack with
  | zero s => cases s <;> exact agree_pack_zero _ _
  | _ => exact .refl _

theorem zero_sub_agree (x : Float) : Agree (0 - x) (-0 - x) := by
  refine agree_pack (UnpackedFloat.sub .binary64 · x.toModel.unpack) ?_
  cases x.toModel.unpack with
  | zero s => cases s <;> exact agree_pack_zero _ _
  | _ => exact .refl _

theorem sub_zero_agree (x : Float) : Agree (x - 0) (x - -0) := by
  refine agree_pack (UnpackedFloat.sub .binary64 x.toModel.unpack ·) ?_
  cases x.toModel.unpack with
  | zero s => cases s <;> exact agree_pack_zero _ _
  | _ => exact .refl _

/-- A product with zero is a zero or not a number, whatever the signs are. -/
theorem zero_mul_agree (x : Float) : Agree (0 * x) (-0 * x) := by
  refine agree_pack (UnpackedFloat.mul .binary64 · x.toModel.unpack) ?_
  cases x.toModel.unpack with
  | infinity s => exact .refl _
  | notANumber => exact .refl _
  | _ => exact agree_pack_zero _ _

theorem zero_div_agree (x : Float) : Agree (0 / x) (-0 / x) := by
  refine agree_pack (UnpackedFloat.div .binary64 · x.toModel.unpack) ?_
  cases x.toModel.unpack with
  | zero s => exact .refl _
  | notANumber => exact .refl _
  | _ => exact agree_pack_zero _ _

/-- Zero divided by zero is not a number, whatever the signs are. -/
theorem div_zero_agree (h : IsZero x ∨ x.isNaN = true) : Agree (x / 0) (x / -0) := by
  rcases h with (rfl | rfl) | hnan
  · decide +kernel
  · decide +kernel
  · obtain rfl : x = Float.nan := by simpa using hnan
    decide +kernel

namespace Agree

theorem add (h : Agree v w) (h' : Agree v' w') : Agree (v + v') (w + w') := by
  refine (h.map (· + v') fun _ => zero_add_agree v').trans ?_
  rw [Binary64.add_comm w, Binary64.add_comm w]
  exact h'.map (· + w) fun _ => zero_add_agree w

theorem sub (h : Agree v w) (h' : Agree v' w') : Agree (v - v') (w - w') :=
  (h.map (· - v') fun _ => zero_sub_agree v').trans (h'.map (w - ·) fun _ => sub_zero_agree w)

theorem mul (h : Agree v w) (h' : Agree v' w') : Agree (v * v') (w * w') := by
  refine (h.map (· * v') fun _ => zero_mul_agree v').trans ?_
  rw [Binary64.mul_comm w, Binary64.mul_comm w]
  exact h'.map (· * w) fun _ => zero_mul_agree w

/-- **Quotients of numbers that agree do agree**, unless a number other than zero is divided by
zero. -/
theorem div (h : Agree v w) (h' : Agree v' w') (hzero : IsZero v' → IsZero v ∨ v.isNaN = true) :
    Agree (v / v') (w / w') := by
  have hdivisor : Agree (v / v') (v / w') :=
    h'.map (v / ·) fun hv' => div_zero_agree (hzero hv')
  exact hdivisor.trans (h.map (· / w') fun _ => zero_div_agree w')

/-- The change of sign, the absolute value, the square and the square root respect agreement. -/
theorem unary {op : UnaryOp}
    (hop : op = .neg ∨ op = .call .abs ∨ op = .call .sqr ∨ op = .call .sqrt) (h : Agree v w) :
    Agree (Binary64.unary op v) (Binary64.unary op w) := by
  refine h.map (Binary64.unary op) fun _ => ?_
  rcases hop with rfl | rfl | rfl | rfl <;> decide +kernel

end Agree

end SymbolicCalculus.Binary64
