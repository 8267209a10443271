/-
# The symbolic derivative is the derivative

An expression over the real numbers, with one parameter free and the others fixed, is a function of
that parameter.  `HasSlope` says that near its value in a context this function is defined, and that
there it has a derivative.

Where every operator is smooth (`IsSmooth`), the rules of `rawDerivative` build an expression with
the value of that derivative (`HasDerivative`): there is one lemma for each operator, and they add up
to `hasDerivative_of_rawDerivative`.  Simplification keeps the value, so the simplified derivative has
it too (`eval?_derivative`).
-/
import SymbolicCalculus.Derivative
import SymbolicCalculus.Proofs.Calculus.Reals
import SymbolicCalculus.Proofs.Calculus.Rules

namespace SymbolicCalculus

open Filter Topology

/-! ## 1. Expressions as functions of one parameter -/

namespace Context

variable {ν : Type*} (c : Context ν) (p : Param)

/-- Writing the value that is there changes nothing. -/
theorem set_get : c.set p (c.get p) = c := by
  simp [set, get]

theorem get_set_self (v : ν) : (c.set p v).get p = v := by
  rw [get_set, if_pos rfl]

end Context

namespace Expr

/-- Whether every operator in the expression is smooth at the values of its operands. -/
def IsSmooth (c : Context ℝ) : Expr ℝ → Prop
  | number _ | param _ => True
  | neg u => u.IsSmooth c
  | call f u => u.IsSmooth c ∧ f.IsSmoothAt (u.eval c)
  | binary op f g => f.IsSmooth c ∧ g.IsSmooth c ∧ op.IsSmoothAt (f.eval c) (g.eval c)

/-- Near its value in the context, the expression is defined as a function of the parameter, and its
derivative there is `v`. -/
structure HasSlope (p : Param) (c : Context ℝ) (f : Expr ℝ) (v : ℝ) : Prop where
  defined : ∀ᶠ t in 𝓝 (c.get p),
    f.eval? realOperators (c.set p t) = some (f.eval (c.set p t))
  hasDerivAt : HasDerivAt (fun t => f.eval (c.set p t)) v (c.get p)

namespace HasSlope

variable {p : Param} {c : Context ℝ} {f g u : Expr ℝ} {x y : ℝ}

/-- The expression has a value in the context itself. -/
theorem eval? (h : HasSlope p c f x) : f.eval? realOperators c = some (f.eval c) := by
  have hself := h.defined.self_of_nhds
  rwa [c.set_get] at hself

/-- What holds near the value of the expression holds of its values near the context. -/
theorem eventually (h : HasSlope p c f x) {P : ℝ → Prop} (hP : ∀ᶠ y in 𝓝 (f.eval c), P y) :
    ∀ᶠ t in 𝓝 (c.get p), P (f.eval (c.set p t)) := by
  have hcont := h.hasDerivAt.continuousAt
  rw [ContinuousAt, c.set_get] at hcont
  exact hcont.eventually hP

/-- The slope of a literal is zero. -/
theorem number (v : ℝ) : HasSlope p c (number v) 0 where
  defined := Eventually.of_forall fun _ => rfl
  hasDerivAt := hasDerivAt_const _ v

/-- The slope of the parameter itself is one. -/
theorem param_self : HasSlope p c (param p) 1 where
  defined := Eventually.of_forall fun _ => rfl
  hasDerivAt := by
    simp only [eval, c.get_set_self]
    exact hasDerivAt_id' _

/-- The slope of another parameter is zero. -/
theorem param_of_ne {q : Param} (hq : q ≠ p) : HasSlope p c (param q) 0 where
  defined := Eventually.of_forall fun _ => rfl
  hasDerivAt := by
    simp only [eval, Context.get_set, if_neg hq.symm]
    exact hasDerivAt_const _ _

theorem neg (h : HasSlope p c u x) : HasSlope p c (neg u) (-x) where
  defined := h.defined.mono fun _ ht => eval?_neg.mpr ⟨_, ht, rfl⟩
  hasDerivAt := h.hasDerivAt.neg

/-- The chain rule. -/
theorem call {fn : Func} (h : HasSlope p c u x) (hfn : fn ≠ .abs)
    (hs : fn.IsSmoothAt (u.eval c)) :
    HasSlope p c (call fn u) (fn.slope (u.eval c) * x) where
  defined := by
    filter_upwards [h.defined, h.eventually (Func.eventually_isDefinedAt hs)] with t ht hdom
    exact eval?_unary_eq_some.mpr ⟨_, ht, realOperators_call.mpr ⟨hdom, rfl⟩⟩
  hasDerivAt :=
    (Func.hasDerivAt_real hfn hs).comp_of_eq _ h.hasDerivAt (by rw [c.set_get])

theorem add (hf : HasSlope p c f x) (hg : HasSlope p c g y) : HasSlope p c (add f g) (x + y) where
  defined := by
    filter_upwards [hf.defined, hg.defined] with t hft hgt
    exact eval?_add.mpr ⟨_, _, hft, hgt, rfl⟩
  hasDerivAt := hf.hasDerivAt.add hg.hasDerivAt

theorem sub (hf : HasSlope p c f x) (hg : HasSlope p c g y) : HasSlope p c (sub f g) (x - y) where
  defined := by
    filter_upwards [hf.defined, hg.defined] with t hft hgt
    exact eval?_sub.mpr ⟨_, _, hft, hgt, rfl⟩
  hasDerivAt := hf.hasDerivAt.sub hg.hasDerivAt

theorem mul (hf : HasSlope p c f x) (hg : HasSlope p c g y) :
    HasSlope p c (mul f g) (f.eval c * y + x * g.eval c) where
  defined := by
    filter_upwards [hf.defined, hg.defined] with t hft hgt
    exact eval?_mul.mpr ⟨_, _, hft, hgt, rfl⟩
  hasDerivAt := by
    refine (hf.hasDerivAt.mul hg.hasDerivAt).congr_deriv ?_
    rw [c.set_get, add_comm]

theorem div (hf : HasSlope p c f x) (hg : HasSlope p c g y) (hne : g.eval c ≠ 0) :
    HasSlope p c (div f g) ((x * g.eval c - f.eval c * y) / (g.eval c * g.eval c)) where
  defined := by
    filter_upwards [hf.defined, hg.defined, hg.eventually (eventually_ne_nhds hne)]
      with t hft hgt hnet
    exact eval?_div.mpr ⟨_, _, hft, hgt, hnet, rfl⟩
  hasDerivAt := by
    have hne' : g.eval (c.set p (c.get p)) ≠ 0 := by rwa [c.set_get]
    refine (hf.hasDerivAt.div hg.hasDerivAt hne').congr_deriv ?_
    rw [c.set_get, sq]

theorem pow {n : ℝ} (hf : HasSlope p c f x) (hs : BinaryOp.pow.IsSmoothAt (f.eval c) n) :
    HasSlope p c (pow f (.number n)) (n * f.eval c ^ (n - 1) * x) where
  defined := by
    filter_upwards [hf.defined, hf.eventually (BinaryOp.eventually_isPower hs)] with t hft hdom
    exact eval?_pow.mpr ⟨_, n, hft, rfl, realOperators_pow.mpr ⟨hdom, rfl⟩⟩
  hasDerivAt :=
    (BinaryOp.hasDerivAt_power hs).comp_of_eq _ hf.hasDerivAt (by rw [c.set_get])

end HasSlope

/-! ## 2. The rules -/

section Rules

variable {c : Context ℝ} {f f' g g' u u' : Expr ℝ} {x x' y y' : ℝ}

/-- The power that the arc sine and the arc cosine write has the value that analysis gives. -/
theorem eval?_arcSineSlope (hu : u.eval? realOperators c = some x) (h : -1 < x ∧ x < 1) :
    (arcSineSlope u).eval? realOperators c = some (1 / √(1 - x ^ 2)) := by
  have hpos : 0 < 1 - x * x := by nlinarith
  have hbase : (sub oneNumber (sqr u)).eval? realOperators c = some (1 - x * x) :=
    eval?_sub.mpr ⟨1, _, rfl, eval?_sqr.mpr ⟨x, hu, rfl⟩, rfl⟩
  refine eval?_pow.mpr ⟨_, -(1 / 2), hbase, rfl, realOperators_pow.mpr ⟨.inl hpos, ?_⟩⟩
  rw [Real.rpow_neg hpos.le, ← Real.sqrt_eq_rpow, one_div, sq]

theorem eval?_arcTangentSlope (hu : u.eval? realOperators c = some x) :
    (arcTangentSlope u).eval? realOperators c = some (1 / (1 + x ^ 2)) := by
  have hpos : 0 < 1 + x * x := add_pos_of_pos_of_nonneg one_pos (mul_self_nonneg x)
  have hbase : (add oneNumber (sqr u)).eval? realOperators c = some (1 + x * x) :=
    eval?_add.mpr ⟨1, _, rfl, eval?_sqr.mpr ⟨x, hu, rfl⟩, rfl⟩
  refine eval?_pow.mpr ⟨_, -1, hbase, rfl, realOperators_pow.mpr ⟨.inl hpos, ?_⟩⟩
  rw [Real.rpow_neg_one, one_div, sq]

/-- **The rule of a function multiplies its slope with the derivative of the operand.** -/
theorem eval?_chainRule? {fn : Func} {rule : Expr ℝ → Expr ℝ} (h : chainRule? fn u = some rule)
    (hs : fn.IsSmoothAt x) (hu : u.eval? realOperators c = some x)
    (hu' : u'.eval? realOperators c = some x') :
    (rule u').eval? realOperators c = some (fn.slope x * x') := by
  have hcall : ∀ fn' : Func, fn'.IsDefinedAt x →
      (call fn' u).eval? realOperators c = some (fn'.real x) := fun fn' hdom =>
    eval?_unary_eq_some.mpr ⟨x, hu, realOperators_call.mpr ⟨hdom, rfl⟩⟩
  cases fn with
  | abs => exact absurd h (by simp [chainRule?])
  | arcSin =>
    obtain rfl := Option.some.inj h
    exact eval?_mul.mpr ⟨_, x', eval?_arcSineSlope hu hs, hu', rfl⟩
  | arcCos =>
    obtain rfl := Option.some.inj h
    exact eval?_mul.mpr ⟨_, x', eval?_neg.mpr ⟨_, eval?_arcSineSlope hu hs, rfl⟩, hu', rfl⟩
  | arcTan =>
    obtain rfl := Option.some.inj h
    exact eval?_mul.mpr ⟨_, x', eval?_arcTangentSlope hu, hu', rfl⟩
  | cos =>
    obtain rfl := Option.some.inj h
    exact eval?_mul.mpr ⟨_, x', eval?_neg.mpr ⟨_, hcall .sin trivial, rfl⟩, hu', rfl⟩
  | exp =>
    obtain rfl := Option.some.inj h
    exact eval?_mul.mpr ⟨_, x', hcall .exp trivial, hu', rfl⟩
  | ln =>
    obtain rfl := Option.some.inj h
    exact eval?_div.mpr ⟨x', x, hu', hu, ne_of_gt hs, div_eq_inv_mul x' x⟩
  | log =>
    obtain rfl := Option.some.inj h
    refine eval?_mul.mpr ⟨_, Real.logb 10 (Real.exp 1),
      eval?_div.mpr ⟨x', x, hu', hu, ne_of_gt hs, rfl⟩, rfl, ?_⟩
    rw [Real.logb, Real.log_exp, Func.slope]
    ring
  | sin =>
    obtain rfl := Option.some.inj h
    exact eval?_mul.mpr ⟨_, x', hcall .cos trivial, hu', rfl⟩
  | sqr =>
    obtain rfl := Option.some.inj h
    refine eval?_mul.mpr ⟨2, _, rfl, eval?_mul.mpr ⟨x, x', hu, hu', rfl⟩, ?_⟩
    rw [Func.slope]
    ring
  | sqrt =>
    obtain rfl := Option.some.inj h
    have hpow : (pow u minusHalf).eval? realOperators c = some (√x)⁻¹ := by
      refine eval?_pow.mpr ⟨x, -(1 / 2), hu, rfl, realOperators_pow.mpr ⟨.inl hs, ?_⟩⟩
      rw [Real.rpow_neg (le_of_lt hs), ← Real.sqrt_eq_rpow]
    refine eval?_mul.mpr ⟨_, x', eval?_mul.mpr ⟨1 / 2, _, rfl, hpow, rfl⟩, hu', ?_⟩
    rw [Func.slope]
    ring
  | tan =>
    obtain rfl := Option.some.inj h
    refine eval?_div.mpr ⟨x', _, hu', eval?_sqr.mpr ⟨_, hcall .cos trivial, rfl⟩,
      mul_self_ne_zero.mpr hs, ?_⟩
    rw [Func.slope, Func.real]
    ring

theorem eval?_productRule (hf : f.eval? realOperators c = some x)
    (hf' : f'.eval? realOperators c = some x') (hg : g.eval? realOperators c = some y)
    (hg' : g'.eval? realOperators c = some y') :
    (productRule f f' g g').eval? realOperators c = some (x * y' + x' * y) :=
  eval?_add.mpr ⟨_, _, eval?_mul.mpr ⟨x, y', hf, hg', rfl⟩, eval?_mul.mpr ⟨x', y, hf', hg, rfl⟩,
    rfl⟩

theorem eval?_quotientRule (hf : f.eval? realOperators c = some x)
    (hf' : f'.eval? realOperators c = some x') (hg : g.eval? realOperators c = some y)
    (hg' : g'.eval? realOperators c = some y') (hne : y ≠ 0) :
    (quotientRule f f' g g').eval? realOperators c = some ((x' * y - x * y') / (y * y)) := by
  have hsub := eval?_sub.mpr ⟨_, _, eval?_mul.mpr ⟨x', y, hf', hg, rfl⟩,
    eval?_mul.mpr ⟨x, y', hf, hg', rfl⟩, rfl⟩
  exact eval?_div.mpr ⟨_, _, hsub, eval?_sqr.mpr ⟨y, hg, rfl⟩, mul_self_ne_zero.mpr hne, rfl⟩

theorem eval?_powerRule {n : ℝ} (hf : f.eval? realOperators c = some x)
    (hf' : f'.eval? realOperators c = some x') (hs : BinaryOp.pow.IsSmoothAt x n) :
    (powerRule f f' n).eval? realOperators c = some (n * x ^ (n - 1) * x') := by
  have hpow : (pow f (number (n - 1))).eval? realOperators c = some (x ^ (n - 1)) :=
    eval?_pow.mpr ⟨x, n - 1, hf, rfl,
      realOperators_pow.mpr ⟨BinaryOp.isPower_sub_one hs, rfl⟩⟩
  exact eval?_mul.mpr ⟨_, x', eval?_mul.mpr ⟨n, _, rfl, hpow, rfl⟩, hf', rfl⟩

end Rules

/-! ## 3. The derivative -/

/-- In the context, `d` has the value of the derivative of `f`. -/
def HasDerivative (p : Param) (c : Context ℝ) (f d : Expr ℝ) : Prop :=
  ∃ v, HasSlope p c f v ∧ d.eval? realOperators c = some v

namespace HasDerivative

variable {p : Param} {c : Context ℝ} {f f' g g' u u' : Expr ℝ}

theorem number (v : ℝ) : HasDerivative p c (number v) zeroNumber :=
  ⟨0, .number v, rfl⟩

theorem param (q : Param) :
    HasDerivative p c (param q) (if q = p then oneNumber else zeroNumber) := by
  by_cases hq : q = p
  · subst hq
    rw [if_pos rfl]
    exact ⟨1, .param_self, rfl⟩
  · rw [if_neg hq]
    exact ⟨0, .param_of_ne hq, rfl⟩

theorem neg (hu : HasDerivative p c u u') : HasDerivative p c (neg u) (neg u') := by
  obtain ⟨x, hx, hv⟩ := hu
  exact ⟨-x, hx.neg, eval?_neg.mpr ⟨x, hv, rfl⟩⟩

theorem call {fn : Func} {rule : Expr ℝ → Expr ℝ} (hrule : chainRule? fn u = some rule)
    (hs : fn.IsSmoothAt (u.eval c)) (hu : HasDerivative p c u u') :
    HasDerivative p c (call fn u) (rule u') := by
  obtain ⟨x, hx, hv⟩ := hu
  have hfn : fn ≠ .abs := by
    rintro rfl
    exact absurd hrule (by simp [chainRule?])
  exact ⟨_, hx.call hfn hs, eval?_chainRule? hrule hs hx.eval? hv⟩

theorem add (hf : HasDerivative p c f f') (hg : HasDerivative p c g g') :
    HasDerivative p c (add f g) (add f' g') := by
  obtain ⟨x, hx, hvx⟩ := hf
  obtain ⟨y, hy, hvy⟩ := hg
  exact ⟨x + y, hx.add hy, eval?_add.mpr ⟨x, y, hvx, hvy, rfl⟩⟩

theorem sub (hf : HasDerivative p c f f') (hg : HasDerivative p c g g') :
    HasDerivative p c (sub f g) (sub f' g') := by
  obtain ⟨x, hx, hvx⟩ := hf
  obtain ⟨y, hy, hvy⟩ := hg
  exact ⟨x - y, hx.sub hy, eval?_sub.mpr ⟨x, y, hvx, hvy, rfl⟩⟩

theorem mul (hf : HasDerivative p c f f') (hg : HasDerivative p c g g') :
    HasDerivative p c (mul f g) (productRule f f' g g') := by
  obtain ⟨x, hx, hvx⟩ := hf
  obtain ⟨y, hy, hvy⟩ := hg
  exact ⟨_, hx.mul hy, eval?_productRule hx.eval? hvx hy.eval? hvy⟩

theorem div (hf : HasDerivative p c f f') (hg : HasDerivative p c g g') (hne : g.eval c ≠ 0) :
    HasDerivative p c (div f g) (quotientRule f f' g g') := by
  obtain ⟨x, hx, hvx⟩ := hf
  obtain ⟨y, hy, hvy⟩ := hg
  exact ⟨_, hx.div hy hne, eval?_quotientRule hx.eval? hvx hy.eval? hvy hne⟩

theorem pow {n : ℝ} (hs : BinaryOp.pow.IsSmoothAt (f.eval c) n) (hf : HasDerivative p c f f') :
    HasDerivative p c (pow f (.number n)) (powerRule f f' n) := by
  obtain ⟨x, hx, hv⟩ := hf
  exact ⟨_, hx.pow hs, eval?_powerRule hx.eval? hv hs⟩

end HasDerivative

variable {p : Param} {c : Context ℝ} {f d : Expr ℝ}

/-- **The derivative that the rules build has the value of the derivative.** -/
theorem hasDerivative_of_rawDerivative (hs : f.IsSmooth c) (hd : rawDerivative p f = .ok d) :
    HasDerivative p c f d := by
  induction f generalizing d with
  | number v =>
    obtain rfl := Except.ok.inj hd
    exact .number v
  | param q =>
    obtain rfl := Except.ok.inj hd
    exact .param q
  | unary op u ih =>
    cases op with
    | neg =>
      obtain ⟨u', hu, hd⟩ := bind_eq_ok.mp hd
      obtain rfl := Except.ok.inj hd
      exact .neg (ih hs hu)
    | call fn =>
      cases hrule : chainRule? fn u with
      | none => exact absurd hd (by simp [rawDerivative, hrule])
      | some rule =>
        simp only [rawDerivative, hrule] at hd
        obtain ⟨u', hu, hd⟩ := bind_eq_ok.mp hd
        obtain rfl := Except.ok.inj hd
        exact .call hrule hs.2 (ih hs.1 hu)
  | binary op f g ihf ihg =>
    obtain ⟨hsf, hsg, hop⟩ := hs
    cases op with
    | add =>
      obtain ⟨f', hf, hd⟩ := bind_eq_ok.mp hd
      obtain ⟨g', hg, hd⟩ := bind_eq_ok.mp hd
      obtain rfl := Except.ok.inj hd
      exact .add (ihf hsf hf) (ihg hsg hg)
    | sub =>
      obtain ⟨f', hf, hd⟩ := bind_eq_ok.mp hd
      obtain ⟨g', hg, hd⟩ := bind_eq_ok.mp hd
      obtain rfl := Except.ok.inj hd
      exact .sub (ihf hsf hf) (ihg hsg hg)
    | mul =>
      obtain ⟨g', hg, hd⟩ := bind_eq_ok.mp hd
      obtain ⟨f', hf, hd⟩ := bind_eq_ok.mp hd
      obtain rfl := Except.ok.inj hd
      exact .mul (ihf hsf hf) (ihg hsg hg)
    | div =>
      obtain ⟨f', hf, hd⟩ := bind_eq_ok.mp hd
      obtain ⟨g', hg, hd⟩ := bind_eq_ok.mp hd
      obtain rfl := Except.ok.inj hd
      exact .div (ihf hsf hf) (ihg hsg hg) hop
    | pow =>
      cases g with
      | number n =>
        obtain ⟨f', hf, hd⟩ := bind_eq_ok.mp hd
        obtain rfl := Except.ok.inj hd
        exact .pow hop (ihf hsf hf)
      | _ => exact absurd hd (by simp [rawDerivative])

/-- **The symbolic derivative is the derivative.**  If the rules differentiate an expression that is
smooth in a context, then what they build has the value of the derivative there, and so does the
simplified derivative. -/
theorem eval?_derivative (hs : f.IsSmooth c) (hd : rawDerivative p f = .ok d) (k : Nat) :
    ∃ v, HasSlope p c f v ∧
      d.eval? realOperators c = some v ∧ d.eval c = v ∧
      ∃ s, derivative p k f = .ok s ∧
        s.expr.eval? realOperators c = some v ∧ s.expr.eval c = v := by
  obtain ⟨v, hslope, hv⟩ := hasDerivative_of_rawDerivative hs hd
  have hsimp : (simplifyFully k d).expr.eval? realOperators c = some v :=
    (rewrites_simplifyFully k d).eval?_eq_some realOperators_extends hv
  have hok : derivative p k f = .ok (simplifyFully k d) := by
    rw [derivative, hd]
    rfl
  exact ⟨v, hslope, hv, eval_of_eval? realOperators_extends hv, _, hok, hsimp,
    eval_of_eval? realOperators_extends hsimp⟩

/-- The derivative of `ln(x) * x^2` is one at `x = 1`, and the simplified derivative says so. -/
theorem eval_derivative_ln_mul_pow :
    let x : Param := ⟨23⟩
    let f : Expr ℝ := mul (call .ln (param x)) (pow (param x) (number 2))
    let c : Context ℝ := Context.zero.set x 1
    f.IsSmooth c ∧ HasSlope x c f 1 ∧ ∃ s, derivative x 3 f = .ok s ∧ s.expr.eval c = 1 := by
  intro x f c
  have hx : c.get x = 1 := Context.get_set_self _ _ _
  have hs : f.IsSmooth c := by
    refine ⟨⟨trivial, ?_⟩, ⟨trivial, trivial, .inl ?_⟩, trivial⟩
    · change 0 < c.get x
      rw [hx]
      exact one_pos
    · change 0 < c.get x
      rw [hx]
      exact one_pos
  have hd : rawDerivative x f =
      .ok (productRule (call .ln (param x)) (div oneNumber (param x)) (pow (param x) (number 2))
        (powerRule (param x) oneNumber 2)) := rfl
  obtain ⟨v, hslope, -, hv, s, hok, -, hsv⟩ := eval?_derivative hs hd 3
  have hone : v = 1 := by
    rw [← hv]
    change Real.log (c.get x) * (2 * c.get x ^ ((2 : ℝ) - 1) * 1)
      + 1 / c.get x * c.get x ^ (2 : ℝ) = 1
    rw [hx]
    simp
  exact ⟨hs, hone ▸ hslope, s, hok, hsv.trans hone⟩

end Expr

end SymbolicCalculus
