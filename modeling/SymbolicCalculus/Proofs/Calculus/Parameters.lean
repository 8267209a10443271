/-
# The parameters of derived expressions

No symbolic operation invents a parameter.  An equation of the simplifier only uses operands that are
there (`Equation.contains_eq_false`), and a derivative rule writes nothing but literals between its
operands and their derivatives (`Expr.inheritedByRules_contains_eq_false`); not even the parameter
that is differentiated by comes in.

So a parameter that does not occur in an expression does not occur in what passes leave of it, nor in
its derivatives of whatever order (`Expr.contains_eq_false_of_symbolic`).
-/
import SymbolicCalculus.Proofs.Calculus.Rules
import SymbolicCalculus.Proofs.Simplify.Rearrangement

namespace SymbolicCalculus

universe u

variable {ν : Type u} {Q : Param.Query}

/-! ## 1. The simplifier -/

section Simplifier

variable [Arithmetic ν] {s : Step} {steps : List Step} {e e' : Expr ν}

/-- An equation of the simplifier uses only the parameters that are there. -/
theorem Equation.contains_eq_false (h : Equation s e e') (he : e.contains Q = false) :
    e'.contains Q = false := by
  cases hs : s.isRotation with
  | true => rw [← (h.rearranged hs).contains_eq, he]
  | false =>
    cases h with
    | constantFold _ => rfl
    | rotateRight _ _ _ _ => exact absurd hs (by simp [Step.isRotation])
    | rotateLeft _ _ _ _ => exact absurd hs (by simp [Step.isRotation])
    | _ => simp_all [Expr.contains]

/-- Wherever the equation is used, no parameter comes in. -/
theorem Rewrite.contains_eq_false (h : Rewrite s e e') (he : e.contains Q = false) :
    e'.contains Q = false := by
  induction h with
  | root h => exact h.contains_eq_false he
  | operand op _ ih => exact ih he
  | lhs op _ b ih =>
    rw [Expr.contains, Bool.or_eq_false_iff] at he ⊢
    exact ⟨ih he.1, he.2⟩
  | rhs op a _ ih =>
    rw [Expr.contains, Bool.or_eq_false_iff] at he ⊢
    exact ⟨he.1, ih he.2⟩

/-- **Steps of the simplifier bring no parameter in.** -/
theorem Rewrites.contains_eq_false (h : Rewrites e steps e') (he : e.contains Q = false) :
    e'.contains Q = false :=
  h.preserves (fun hr => hr.contains_eq_false) he

end Simplifier

/-! ## 2. Derivatives -/

namespace Expr

/-- The rules write only literals beside their operands. -/
theorem inheritedByRules_contains_eq_false (Q : Param.Query) :
    InheritedByRules fun a : Expr ν => a.contains Q = false where
  number _ := rfl
  unary _ _ ha := ha
  binary _ _ _ ha hb := by rw [contains, ha, hb, Bool.or_false]
  pow ha _ := by rw [contains, ha, contains, Bool.or_false]
  operand ha := ha
  operands h := by rwa [contains, Bool.or_eq_false_iff] at h

variable [Arithmetic ν] {p : Param} {e d : Expr ν}

theorem contains_eq_false_of_rawDerivative (he : e.contains Q = false)
    (h : rawDerivative p e = .ok d) : d.contains Q = false :=
  (inheritedByRules_contains_eq_false Q).rawDerivative he h

theorem contains_eq_false_of_derivative {k : Nat} {g : Simplified ν} (he : e.contains Q = false)
    (h : derivative p k e = .ok g) : g.expr.contains Q = false := by
  obtain ⟨d, hd, hg⟩ := bind_eq_ok.mp h
  obtain rfl := Except.ok.inj hg
  exact (rewrites_simplifyFully k d).contains_eq_false (contains_eq_false_of_rawDerivative he hd)

theorem contains_eq_false_of_partialDerivatives {ds : List (Param × Nat)}
    (he : e.contains Q = false) (h : partialDerivatives ds e = .ok d) : d.contains Q = false := by
  refine foldlM_preserves (P := fun f : Expr ν => f.contains Q = false) ?_ h he
  intro f f' x hf' hf
  obtain ⟨g, hg, hf'⟩ := bind_eq_ok.mp hf'
  obtain rfl := Except.ok.inj hf'
  exact contains_eq_false_of_derivative hf hg

/-- **No symbolic operation invents a parameter.**  If no parameter that the query selects occurs in
an expression, then none occurs after a pass or in what simplification to the end leaves, in a
derivative, as the rules write it or simplified, or in what any number of derivatives one after the
other come to, by whatever parameters. -/
theorem contains_eq_false_of_symbolic (he : e.contains Q = false) :
    e.simplify.expr.contains Q = false ∧
    (∀ k, (simplifyFully k e).expr.contains Q = false) ∧
    (∀ p d, rawDerivative p e = .ok d → d.contains Q = false) ∧
    (∀ p k g, derivative p k e = .ok g → g.expr.contains Q = false) ∧
    (∀ (ps : List Param) d, ps.foldlM (fun f p => rawDerivative p f) e = .ok d →
      d.contains Q = false) ∧
    ∀ ds d, partialDerivatives ds e = .ok d → d.contains Q = false := by
  refine ⟨e.rewrites_simplify.contains_eq_false he, ?_, ?_, ?_, ?_, ?_⟩
  · intro k
    exact (rewrites_simplifyFully k e).contains_eq_false he
  · intro p d hd
    exact contains_eq_false_of_rawDerivative he hd
  · intro p k g hg
    exact contains_eq_false_of_derivative he hg
  · intro ps d hd
    refine foldlM_preserves (P := fun f : Expr ν => f.contains Q = false) ?_ hd he
    intro f f' p hf' hf
    exact contains_eq_false_of_rawDerivative hf hf'
  · intro ds d hd
    exact contains_eq_false_of_partialDerivatives he hd

/-- The parameter `z` does not come into the derivatives of `ln(y) * x^3`, nor into its second ones. -/
theorem contains_eq_false_of_symbolic_ln_mul_pow :
    let x : Param := ⟨23⟩
    let y : Param := ⟨24⟩
    let z : Param.Query := .only ⟨25⟩
    let f : Expr Float := mul (call .ln (param y)) (pow (param x) (number 3))
    f.contains z = false ∧
      (∃ d, rawDerivative x f = .ok d ∧ d.contains z = false) ∧
      ∃ d, partialDerivatives [(x, 1), (y, 0)] f = .ok d ∧ d.contains z = false := by
  intro x y z f
  have hf : f.contains z = false := rfl
  have hx : (param x : Expr Float).HasRules := trivial
  have hy : (param y : Expr Float).HasRules := trivial
  have hrules : f.HasRules :=
    hasRules_binary (by simp) (hasRules_unary (by simp) hy) (hasRules_pow hx 3)
  obtain ⟨-, -, hraw, -, -, hpartial⟩ := contains_eq_false_of_symbolic hf
  obtain ⟨d, hd, -⟩ := hrules.exists_rawDerivative x
  obtain ⟨d', hd', -⟩ := hrules.exists_partialDerivatives [(x, 1), (y, 0)]
  exact ⟨hf, ⟨d, hd, hraw x d hd⟩, d', hd', hpartial _ d' hd'⟩

end Expr

end SymbolicCalculus
