/-
# Simplification preserves values

Over a field, with functions and a power that are defined only where `PartialOperators` says so, an
expression has a value only if every operation in it is defined (`Expr.eval?`).  The simplifier
works with total operators; they may be any that continue the partial ones
(`PartialOperators.Extends`).

Every equation of the simplifier preserves the value of an expression that has one
(`Equation.eval?_eq_some`), and so does simplification (`Expr.eval?_simplified`).  It may give a
value to an expression that had none: `0/0` becomes `0`.
-/
import SymbolicCalculus.Proofs.Simplify.Trace

namespace SymbolicCalculus

universe u

/-! ## 1. Values that may not exist -/

/-- The functions and the power of a field, where they are defined. -/
structure PartialOperators (F : Type u) [Field F] where
  call : Func → F → Option F
  pow : F → F → Option F
  call_sqr : ∀ a, call .sqr a = some (a * a)
  pow_zero : ∀ a, pow a 0 = some 1
  pow_one : ∀ a, pow a 1 = some a

namespace PartialOperators

variable {F : Type u} [Field F] (P : PartialOperators F)

/-- The value of an operator of one operand, where it is defined. -/
def unary? : UnaryOp → F → Option F
  | .neg, a => some (-a)
  | .call f, a => P.call f a

/-- The value of an infix operator, where it is defined. -/
def binary? [DecidableEq F] : BinaryOp → F → F → Option F
  | .add, a, b => some (a + b)
  | .sub, a, b => some (a - b)
  | .mul, a, b => some (a * b)
  | .div, a, b => if b = 0 then none else some (a / b)
  | .pow, a, b => P.pow a b

/-- Commutative operators are. -/
theorem binary?_comm [DecidableEq F] {op : BinaryOp} (hop : op.isCommutative = true) (a b : F) :
    P.binary? op a b = P.binary? op b a := by
  cases op with
  | add => exact congrArg some (add_comm a b)
  | mul => exact congrArg some (mul_comm a b)
  | _ => exact absurd hop (by simp [BinaryOp.isCommutative])

/-- The arithmetic has the constants of the field and continues the partial operators. -/
structure Extends [DecidableEq F] [Arithmetic F] : Prop where
  beq_iff : ∀ a b : F, (a == b) = true ↔ a = b
  zero : (Arithmetic.zero : F) = 0
  one : (Arithmetic.one : F) = 1
  two : (Arithmetic.two : F) = 2
  unary : ∀ {op : UnaryOp} {a v : F}, P.unary? op a = some v → Arithmetic.unary op a = v
  binary : ∀ {op : BinaryOp} {a b v : F}, P.binary? op a b = some v →
    Arithmetic.binary op a b = v

/-- The arithmetic that gives zero where an operator is not defined. -/
abbrev arithmetic [DecidableEq F] (half log10e : F) : Arithmetic F where
  beq a b := decide (a = b)
  zero := 0
  one := 1
  two := 1 + 1
  half := half
  log10e := log10e
  unary op a := (P.unary? op a).getD 0
  binary op a b := (P.binary? op a b).getD 0

/-- The partial operators are continued by their arithmetic. -/
theorem extends_arithmetic [DecidableEq F] (half log10e : F) :
    @Extends F _ P _ (P.arithmetic half log10e) :=
  letI := P.arithmetic half log10e
  { beq_iff := fun _ _ => decide_eq_true_iff
    zero := rfl
    one := rfl
    two := one_add_one_eq_two
    unary := fun h => by simp only [Arithmetic.unary, h, Option.getD_some]
    binary := fun h => by simp only [Arithmetic.binary, h, Option.getD_some] }

end PartialOperators

namespace Expr

variable {F : Type u} [Field F] [DecidableEq F] (P : PartialOperators F) (c : Context F)

/-- The value of the expression in a context, if all its operations are defined. -/
def eval? : Expr F → Option F
  | number v => some v
  | param p => some (c.get p)
  | unary op a => a.eval?.bind (P.unary? op)
  | binary op a b => a.eval?.bind fun x => b.eval?.bind fun y => P.binary? op x y

variable {P c}

theorem eval?_unary_eq_some {op : UnaryOp} {a : Expr F} {v : F} :
    (unary op a).eval? P c = some v ↔ ∃ x, a.eval? P c = some x ∧ P.unary? op x = some v :=
  Option.bind_eq_some_iff

theorem eval?_binary_eq_some {op : BinaryOp} {a b : Expr F} {v : F} :
    (binary op a b).eval? P c = some v ↔
      ∃ x y, a.eval? P c = some x ∧ b.eval? P c = some y ∧ P.binary? op x y = some v := by
  simp [eval?, Option.bind_eq_some_iff]

section Operators

variable {a b : Expr F} {v : F}

theorem eval?_neg : (neg a).eval? P c = some v ↔ ∃ x, a.eval? P c = some x ∧ -x = v := by
  simp [eval?_unary_eq_some, PartialOperators.unary?]

theorem eval?_sqr : (sqr a).eval? P c = some v ↔ ∃ x, a.eval? P c = some x ∧ x * x = v := by
  simp [eval?_unary_eq_some, PartialOperators.unary?, P.call_sqr]

theorem eval?_add : (add a b).eval? P c = some v ↔
    ∃ x y, a.eval? P c = some x ∧ b.eval? P c = some y ∧ x + y = v := by
  simp [eval?_binary_eq_some, PartialOperators.binary?]

theorem eval?_sub : (sub a b).eval? P c = some v ↔
    ∃ x y, a.eval? P c = some x ∧ b.eval? P c = some y ∧ x - y = v := by
  simp [eval?_binary_eq_some, PartialOperators.binary?]

theorem eval?_mul : (mul a b).eval? P c = some v ↔
    ∃ x y, a.eval? P c = some x ∧ b.eval? P c = some y ∧ x * y = v := by
  simp [eval?_binary_eq_some, PartialOperators.binary?]

theorem eval?_div : (div a b).eval? P c = some v ↔
    ∃ x y, a.eval? P c = some x ∧ b.eval? P c = some y ∧ y ≠ 0 ∧ x / y = v := by
  simp [eval?_binary_eq_some, PartialOperators.binary?]

theorem eval?_pow : (pow a b).eval? P c = some v ↔
    ∃ x y, a.eval? P c = some x ∧ b.eval? P c = some y ∧ P.pow x y = some v :=
  eval?_binary_eq_some

end Operators

/-- An expression without parameters has the same value in every context. -/
theorem eval?_eq_of_contains_eq_false {e : Expr F} (h : e.contains .all = false)
    (c' : Context F) : e.eval? P c = e.eval? P c' := by
  induction e with
  | number v => rfl
  | param p => exact absurd h (by simp [contains, Param.Query.selects])
  | unary op a ih => rw [eval?, eval?, ih h]
  | binary op a b iha ihb =>
    simp only [contains, Bool.or_eq_false_iff] at h
    rw [eval?, eval?, iha h.1, ihb h.2]

/-! ## 2. Values and total arithmetic -/

section Extends

variable [Arithmetic F] (hP : P.Extends)

include hP

/-- Where an expression has a value, total evaluation finds it. -/
theorem eval_of_eval? {e : Expr F} {v : F} (h : e.eval? P c = some v) : e.eval c = v := by
  induction e generalizing v with
  | number w => exact Option.some.inj h
  | param p => exact Option.some.inj h
  | unary op a ih =>
    obtain ⟨x, ha, hop⟩ := eval?_unary_eq_some.mp h
    rw [eval, ih ha, hP.unary hop]
  | binary op a b iha ihb =>
    obtain ⟨x, y, ha, hb, hop⟩ := eval?_binary_eq_some.mp h
    rw [eval, iha ha, ihb hb, hP.binary hop]

/-- The comparison of literals is equality. -/
theorem eq_of_same {a b : F} (h : Arithmetic.same a b = true) : a = b := by
  have ha : Arithmetic.isNaN a = false := by
    rw [Arithmetic.isNaN, (hP.beq_iff a a).mpr rfl]
    rfl
  simp only [Arithmetic.same, ha, Bool.false_and, Bool.or_false] at h
  exact (hP.beq_iff a b).mp h

/-- Structurally equal expressions have the same value, if any. -/
theorem eval?_eq_of_beq {a b : Expr F} (h : (a == b) = true) : a.eval? P c = b.eval? P c := by
  refine induction_of_beq (P := fun a b => a.eval? P c = b.eval? P c)
    (fun hsame => congrArg some (eq_of_same hP hsame)) (fun _ => rfl) ?_ ?_ ?_ h
  · intro op a a' ha
    rw [eval?, eval?, ha]
  · intro op a a' b b' ha hb
    rw [eval?, eval?, ha, hb]
  · intro op hop a a' b b' ha hb
    rw [eval?, eval?, ha, hb]
    cases a'.eval? P c <;> cases b'.eval? P c <;> try rfl
    exact P.binary?_comm hop _ _

/-- A literal that compares equal to a number has its value. -/
theorem eval?_of_isNumber {e : Expr F} {v : F} (h : e.isNumber v = true) :
    e.eval? P c = some v := by
  cases e with
  | number w => exact congrArg some ((hP.beq_iff w v).mp h)
  | _ => exact absurd h (by simp [isNumber])

theorem eq_zero_of_isNumber {e : Expr F} {v : F} (h : e.isNumber Arithmetic.zero = true)
    (hv : e.eval? P c = some v) : v = 0 := by
  rw [eval?_of_isNumber hP h] at hv
  exact (Option.some.inj hv).symm.trans hP.zero

theorem eq_one_of_isNumber {e : Expr F} {v : F} (h : e.isNumber Arithmetic.one = true)
    (hv : e.eval? P c = some v) : v = 1 := by
  rw [eval?_of_isNumber hP h] at hv
  exact (Option.some.inj hv).symm.trans hP.one

/-- The operands of a node that are structurally equal have the same value. -/
theorem eq_of_beq {a b : Expr F} {x y : F} (h : (a == b) = true) (ha : a.eval? P c = some x)
    (hb : b.eval? P c = some y) : x = y := by
  rw [eval?_eq_of_beq hP h, hb] at ha
  exact (Option.some.inj ha).symm

end Extends

end Expr

/-! ## 3. Every equation preserves values -/

section Equations

variable {F : Type u} [Field F] [DecidableEq F] [Arithmetic F] {P : PartialOperators F}
  {c : Context F} {s : Step} {e e' : Expr F} {v : F}

open SymbolicCalculus.Expr

/-- **An equation of the simplifier preserves the value of what it is used on.** -/
theorem Equation.eval?_eq_some (hP : P.Extends) (h : Equation s e e') (hv : e.eval? P c = some v) :
    e'.eval? P c = some v := by
  cases h with
  | constantFold hfold =>
    simp only [isFoldable, Bool.and_eq_true, Bool.not_eq_true'] at hfold
    rw [eval?_eq_of_contains_eq_false hfold.2 Context.zero] at hv
    exact congrArg some (eval_of_eval? hP hv)
  | @rotateRight op hop a b d =>
    cases op with
    | add =>
      obtain ⟨x, _, ha, hbd, rfl⟩ := eval?_add.mp hv
      obtain ⟨y, z, hb, hd, rfl⟩ := eval?_add.mp hbd
      exact eval?_add.mpr ⟨z, x + y, hd, eval?_add.mpr ⟨x, y, ha, hb, rfl⟩, by ring⟩
    | mul =>
      obtain ⟨x, _, ha, hbd, rfl⟩ := eval?_mul.mp hv
      obtain ⟨y, z, hb, hd, rfl⟩ := eval?_mul.mp hbd
      exact eval?_mul.mpr ⟨z, x * y, hd, eval?_mul.mpr ⟨x, y, ha, hb, rfl⟩, by ring⟩
    | _ => exact absurd hop (by simp [BinaryOp.isCommutative])
  | @rotateLeft op hop a b d =>
    cases op with
    | add =>
      obtain ⟨_, z, hab, hd, rfl⟩ := eval?_add.mp hv
      obtain ⟨x, y, ha, hb, rfl⟩ := eval?_add.mp hab
      exact eval?_add.mpr ⟨z + x, y, eval?_add.mpr ⟨z, x, hd, ha, rfl⟩, hb, by ring⟩
    | mul =>
      obtain ⟨_, z, hab, hd, rfl⟩ := eval?_mul.mp hv
      obtain ⟨x, y, ha, hb, rfl⟩ := eval?_mul.mp hab
      exact eval?_mul.mpr ⟨z * x, y, eval?_mul.mpr ⟨z, x, hd, ha, rfl⟩, hb, by ring⟩
    | _ => exact absurd hop (by simp [BinaryOp.isCommutative])
  | @divByOne _ b hb =>
    obtain ⟨x, y, ha, hy, -, rfl⟩ := eval?_div.mp hv
    rwa [eq_one_of_isNumber hP hb hy, div_one]
  | @zeroDividend a b ha =>
    obtain ⟨x, y, hx, hy, -, rfl⟩ := eval?_div.mp hv
    obtain rfl := eq_zero_of_isNumber hP ha hx
    rwa [zero_div]
  | @divSelf a b hab =>
    obtain ⟨x, y, hx, hy, hne, rfl⟩ := eval?_div.mp hv
    obtain rfl := eq_of_beq hP hab hx hy
    rw [div_self hne, eval?, hP.one]
  | @subZero _ b hb =>
    obtain ⟨x, y, hx, hy, rfl⟩ := eval?_sub.mp hv
    rwa [eq_zero_of_isNumber hP hb hy, sub_zero]
  | @subSelf a b hab =>
    obtain ⟨x, y, hx, hy, rfl⟩ := eval?_sub.mp hv
    rw [eq_of_beq hP hab hx hy, sub_self, eval?, hP.zero]
  | subNeg a b =>
    obtain ⟨x, _, hx, hneg, rfl⟩ := eval?_sub.mp hv
    obtain ⟨y, hy, rfl⟩ := eval?_neg.mp hneg
    exact eval?_add.mpr ⟨x, y, hx, hy, (sub_neg_eq_add x y).symm⟩
  | @mulOneRight _ b hb =>
    obtain ⟨x, y, hx, hy, rfl⟩ := eval?_mul.mp hv
    rwa [eq_one_of_isNumber hP hb hy, mul_one]
  | @mulOneLeft a _ ha =>
    obtain ⟨x, y, hx, hy, rfl⟩ := eval?_mul.mp hv
    rwa [eq_one_of_isNumber hP ha hx, one_mul]
  | @mulZeroRight a b hb =>
    obtain ⟨x, y, hx, hy, rfl⟩ := eval?_mul.mp hv
    obtain rfl := eq_zero_of_isNumber hP hb hy
    rwa [mul_zero]
  | @mulZeroLeft a b ha =>
    obtain ⟨x, y, hx, hy, rfl⟩ := eval?_mul.mp hv
    obtain rfl := eq_zero_of_isNumber hP ha hx
    rwa [zero_mul]
  | @mulSelf a b hab =>
    obtain ⟨x, y, hx, hy, rfl⟩ := eval?_mul.mp hv
    exact eval?_sqr.mpr ⟨y, hy, by rw [eq_of_beq hP hab hx hy]⟩
  | @addZeroRight _ b hb =>
    obtain ⟨x, y, hx, hy, rfl⟩ := eval?_add.mp hv
    rwa [eq_zero_of_isNumber hP hb hy, add_zero]
  | @addZeroLeft a _ ha =>
    obtain ⟨x, y, hx, hy, rfl⟩ := eval?_add.mp hv
    rwa [eq_zero_of_isNumber hP ha hx, zero_add]
  | @addSelf a b hab =>
    obtain ⟨x, y, hx, hy, rfl⟩ := eval?_add.mp hv
    refine eval?_mul.mpr ⟨y, 2, hy, congrArg some hP.two, ?_⟩
    rw [eq_of_beq hP hab hx hy, mul_two]
  | addNeg a b =>
    obtain ⟨x, _, hx, hneg, rfl⟩ := eval?_add.mp hv
    obtain ⟨y, hy, rfl⟩ := eval?_neg.mp hneg
    exact eval?_sub.mpr ⟨x, y, hx, hy, sub_eq_add_neg x y⟩
  | negAdd a b =>
    obtain ⟨_, y, hneg, hy, rfl⟩ := eval?_add.mp hv
    obtain ⟨x, hx, rfl⟩ := eval?_neg.mp hneg
    exact eval?_sub.mpr ⟨y, x, hy, hx, sub_eq_neg_add y x⟩
  | @powZero a b hb =>
    obtain ⟨x, y, hx, hy, hpow⟩ := eval?_pow.mp hv
    rw [eq_zero_of_isNumber hP hb hy, P.pow_zero] at hpow
    rw [eval?, hP.one, hpow]
  | @powOne _ b hb =>
    obtain ⟨x, y, hx, hy, hpow⟩ := eval?_pow.mp hv
    rw [eq_one_of_isNumber hP hb hy, P.pow_one] at hpow
    rw [hx, hpow]
  | doubleNeg a =>
    obtain ⟨_, hneg, rfl⟩ := eval?_neg.mp hv
    obtain ⟨x, hx, rfl⟩ := eval?_neg.mp hneg
    rwa [neg_neg]

/-- Wherever the equation is used, the value is preserved. -/
theorem Rewrite.eval?_eq_some (hP : P.Extends) (h : Rewrite s e e') (hv : e.eval? P c = some v) :
    e'.eval? P c = some v := by
  induction h generalizing v with
  | root h => exact h.eval?_eq_some hP hv
  | operand op _ ih =>
    obtain ⟨x, hx, hop⟩ := eval?_unary_eq_some.mp hv
    exact eval?_unary_eq_some.mpr ⟨x, ih hx, hop⟩
  | lhs op _ b ih =>
    obtain ⟨x, y, hx, hy, hop⟩ := eval?_binary_eq_some.mp hv
    exact eval?_binary_eq_some.mpr ⟨x, y, ih hx, hy, hop⟩
  | rhs op a _ ih =>
    obtain ⟨x, y, hx, hy, hop⟩ := eval?_binary_eq_some.mp hv
    exact eval?_binary_eq_some.mpr ⟨x, y, hx, ih hy, hop⟩

theorem Rewrites.eval?_eq_some (hP : P.Extends) {steps : List Step} (h : Rewrites e steps e')
    (hv : e.eval? P c = some v) : e'.eval? P c = some v :=
  h.preserves (fun hr => hr.eval?_eq_some hP) hv

/-- **Simplification preserves the value of an expression that has one**, in one pass and to the end
with any number of extra passes. -/
theorem Expr.eval?_simplified (hP : P.Extends) (hv : e.eval? P c = some v) (k : Nat) :
    e.simplify.expr.eval? P c = some v ∧ (e.simplifyFully k).expr.eval? P c = some v :=
  ⟨e.rewrites_simplify.eval?_eq_some hP hv, (rewrites_simplifyFully k e).eval?_eq_some hP hv⟩

end Equations

/-- The squares and the powers to whole numbers over the rational numbers; no other function has
rational values throughout. -/
def rationalOperators : PartialOperators ℚ where
  call f a := if f = .sqr then some (a * a) else none
  pow a b := if b.den = 1 ∧ (a ≠ 0 ∨ 0 ≤ b) then some (a ^ b.num) else none
  call_sqr a := by simp
  pow_zero a := by simp
  pow_one a := by simp

/-- The difference of a quotient and a negated sum keeps its value. -/
theorem Expr.eval?_simplified_sub_neg :
    letI := rationalOperators.arithmetic (1 / 2) 0
    let e : Expr ℚ := .sub (.div (.param ⟨0⟩) (.param ⟨1⟩)) (.neg (.add (.param ⟨1⟩) (.param ⟨1⟩)))
    let c : Context ℚ := (Context.zero.set ⟨0⟩ 1).set ⟨1⟩ 2
    e.eval? rationalOperators c = some (9 / 2) ∧
      e.simplify.expr.eval? rationalOperators c = some (9 / 2) ∧
      (e.simplifyFully 3).expr.eval? rationalOperators c = some (9 / 2) := by
  let _ := rationalOperators.arithmetic (1 / 2) 0
  intro e c
  have hv : e.eval? rationalOperators c = some (9 / 2) := by decide +kernel
  exact ⟨hv, eval?_simplified (rationalOperators.extends_arithmetic _ _) hv 3⟩

end SymbolicCalculus
