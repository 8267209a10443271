/-
# Formulas over the real numbers

The real numbers carry the arithmetic of analysis: the operators of the field, the functions under
their usual names, `log` to base ten, and the real power.  Analysis gives all of them values
everywhere; `realOperators` keeps the values inside the domains that the functions have by right,
and `realOperators_extends` says that the arithmetic continues it.

Inside its domain a function may still fail to be smooth, as the square root does at zero.
`Func.IsSmoothAt` and `BinaryOp.IsSmoothAt` are the points where none of this happens: near such a
point the operator is defined (`Func.eventually_isDefinedAt`), and at it every function but the
absolute value has the derivative `Func.slope` (`Func.hasDerivAt_real`).
-/
import SymbolicCalculus.Proofs.Simplify.Value

namespace SymbolicCalculus

open Filter Topology

noncomputable section

/-! ## 1. Functions and powers -/

namespace Func

/-- The function on the real numbers. -/
def real : Func → ℝ → ℝ
  | abs, x => |x|
  | arcSin, x => Real.arcsin x
  | arcCos, x => Real.arccos x
  | arcTan, x => Real.arctan x
  | cos, x => Real.cos x
  | exp, x => Real.exp x
  | ln, x => Real.log x
  | log, x => Real.logb 10 x
  | sin, x => Real.sin x
  | sqr, x => x * x
  | sqrt, x => √x
  | tan, x => Real.tan x

/-- The domain of the function. -/
def IsDefinedAt : Func → ℝ → Prop
  | arcSin, x | arcCos, x => -1 ≤ x ∧ x ≤ 1
  | ln, x | log, x => 0 < x
  | sqrt, x => 0 ≤ x
  | tan, x => Real.cos x ≠ 0
  | _, _ => True

/-- The points of the domain where the function is smooth; nothing is asked of the absolute value,
which has no derivative rule. -/
def IsSmoothAt : Func → ℝ → Prop
  | arcSin, x | arcCos, x => -1 < x ∧ x < 1
  | ln, x | log, x | sqrt, x => 0 < x
  | tan, x => Real.cos x ≠ 0
  | _, _ => True

/-- The derivative of the function, as analysis states it; zero for the absolute value. -/
def slope : Func → ℝ → ℝ
  | abs, _ => 0
  | arcSin, x => 1 / √(1 - x ^ 2)
  | arcCos, x => -(1 / √(1 - x ^ 2))
  | arcTan, x => 1 / (1 + x ^ 2)
  | cos, x => -Real.sin x
  | exp, x => Real.exp x
  | ln, x => x⁻¹
  | log, x => x⁻¹ / Real.log 10
  | sin, x => Real.cos x
  | sqr, x => x + x
  | sqrt, x => 1 / (2 * √x)
  | tan, x => 1 / Real.cos x ^ 2

/-- **The slope is the derivative** of every function but the absolute value, where it is smooth. -/
theorem hasDerivAt_real {f : Func} {x : ℝ} (hf : f ≠ abs) (h : f.IsSmoothAt x) :
    HasDerivAt f.real (f.slope x) x := by
  cases f with
  | abs => exact absurd rfl hf
  | arcSin => exact Real.hasDerivAt_arcsin h.1.ne' h.2.ne
  | arcCos => exact Real.hasDerivAt_arccos h.1.ne' h.2.ne
  | arcTan => exact Real.hasDerivAt_arctan x
  | cos => exact Real.hasDerivAt_cos x
  | exp => exact Real.hasDerivAt_exp x
  | ln => exact Real.hasDerivAt_log (ne_of_gt h)
  | log => exact (Real.hasDerivAt_log (ne_of_gt h)).div_const (Real.log 10)
  | sin => exact Real.hasDerivAt_sin x
  | sqr => exact ((hasDerivAt_id' x).mul (hasDerivAt_id' x)).congr_deriv (by simp [slope])
  | sqrt => exact Real.hasDerivAt_sqrt (ne_of_gt h)
  | tan => exact Real.hasDerivAt_tan h

/-- Near a point where it is smooth, the function is defined. -/
theorem eventually_isDefinedAt {f : Func} {x : ℝ} (h : f.IsSmoothAt x) :
    ∀ᶠ y in 𝓝 x, f.IsDefinedAt y := by
  cases f with
  | arcSin | arcCos =>
    filter_upwards [eventually_gt_nhds h.1, eventually_lt_nhds h.2] with y h₁ h₂
    exact ⟨h₁.le, h₂.le⟩
  | ln | log => exact eventually_gt_nhds h
  | sqrt => exact (eventually_gt_nhds h).mono fun _ => le_of_lt
  | tan => exact Real.continuous_cos.continuousAt.eventually_ne h
  | _ => exact Eventually.of_forall fun _ => trivial

end Func

namespace BinaryOp

/-- The infix operator on the real numbers. -/
def real : BinaryOp → ℝ → ℝ → ℝ
  | add, x, y => x + y
  | sub, x, y => x - y
  | mul, x, y => x * y
  | div, x, y => x / y
  | pow, x, y => x ^ y

/-- The domain of the power: positive bases with every exponent, zero with the exponents that are
not negative, and the negative bases with the whole ones. -/
def IsPower (x y : ℝ) : Prop := 0 < x ∨ (x = 0 ∧ 0 ≤ y) ∨ (x ≠ 0 ∧ ∃ m : ℤ, y = m)

/-- The pairs of operands where the infix operator is smooth, with the exponent held fixed for a
power. -/
def IsSmoothAt : BinaryOp → ℝ → ℝ → Prop
  | div, _, y => y ≠ 0
  | pow, x, y => 0 < x ∨ (x ≠ 0 ∧ ∃ m : ℤ, y = m) ∨ ∃ n : ℕ, 2 ≤ n ∧ y = n
  | _, _, _ => True

theorem isPower_of_nat (x : ℝ) (n : ℕ) : IsPower x n := by
  by_cases hx : x = 0
  · exact .inr (.inl ⟨hx, n.cast_nonneg⟩)
  · exact .inr (.inr ⟨hx, n, by simp⟩)

/-- Near a base where the power is smooth, it is defined. -/
theorem eventually_isPower {x n : ℝ} (h : pow.IsSmoothAt x n) : ∀ᶠ y in 𝓝 x, IsPower y n := by
  rcases h with hx | ⟨hx, m, rfl⟩ | ⟨m, -, rfl⟩
  · exact (eventually_gt_nhds hx).mono fun _ => .inl
  · exact (eventually_ne_nhds hx).mono fun _ hy => .inr (.inr ⟨hy, m, rfl⟩)
  · exact Eventually.of_forall fun y => isPower_of_nat y m

/-- Where a power is smooth, the power with the next lower exponent is defined. -/
theorem isPower_sub_one {x n : ℝ} (h : pow.IsSmoothAt x n) : IsPower x (n - 1) := by
  rcases h with hx | ⟨hx, m, rfl⟩ | ⟨m, hm, rfl⟩
  · exact .inl hx
  · exact .inr (.inr ⟨hx, m - 1, by push_cast; rfl⟩)
  · rw [← Nat.cast_pred (by omega : 0 < m)]
    exact isPower_of_nat x (m - 1)

theorem hasDerivAt_power {x n : ℝ} (h : pow.IsSmoothAt x n) :
    HasDerivAt (fun y => y ^ n) (n * x ^ (n - 1)) x := by
  refine Real.hasDerivAt_rpow_const ?_
  rcases h with hx | ⟨hx, -⟩ | ⟨m, hm, rfl⟩
  · exact .inl hx.ne'
  · exact .inl hx
  · exact .inr (by exact_mod_cast (by omega : 1 ≤ m))

end BinaryOp

/-! ## 2. The arithmetic of the real numbers -/

/-- Exact arithmetic on the real numbers. -/
instance : Arithmetic ℝ where
  beq x y := decide (x = y)
  zero := 0
  one := 1
  two := 2
  half := 1 / 2
  log10e := Real.logb 10 (Real.exp 1)
  unary
    | .neg, x => -x
    | .call f, x => f.real x
  binary := BinaryOp.real

open Classical in
/-- The functions and the power of the real numbers, inside their domains. -/
def realOperators : PartialOperators ℝ where
  call f x := if f.IsDefinedAt x then some (f.real x) else none
  pow x y := if BinaryOp.IsPower x y then some (x ^ y) else none
  call_sqr x := if_pos trivial
  pow_zero x := by
    have h : BinaryOp.IsPower x 0 := by exact_mod_cast BinaryOp.isPower_of_nat x 0
    rw [if_pos h, Real.rpow_zero]
  pow_one x := by
    have h : BinaryOp.IsPower x 1 := by exact_mod_cast BinaryOp.isPower_of_nat x 1
    rw [if_pos h, Real.rpow_one]

theorem realOperators_call {f : Func} {x v : ℝ} :
    realOperators.call f x = some v ↔ f.IsDefinedAt x ∧ f.real x = v := by
  simp [realOperators]

theorem realOperators_pow {x y v : ℝ} :
    realOperators.pow x y = some v ↔ BinaryOp.IsPower x y ∧ x ^ y = v := by
  simp [realOperators]

/-- **The arithmetic of the real numbers continues the operators beyond their domains.** -/
theorem realOperators_extends : realOperators.Extends where
  beq_iff _ _ := decide_eq_true_iff
  zero := rfl
  one := rfl
  two := rfl
  unary {op x v} h := by
    cases op with
    | neg => exact Option.some.inj h
    | call f => exact (realOperators_call.mp h).2
  binary {op x y v} h := by
    cases op with
    | add | sub | mul => exact Option.some.inj h
    | div =>
      by_cases hy : y = 0
      · exact absurd h (by simp [PartialOperators.binary?, hy])
      · exact Option.some.inj ((if_neg hy).symm.trans h)
    | pow => exact (realOperators_pow.mp h).2

end

end SymbolicCalculus
