/-
# Derivatives of structurally equal expressions

Structurally equal expressions have structurally equal derivatives, or neither has one
(`Expr.rawDerivative_of_beq`).

Every rule respects structural equality in the operands and in their derivatives.  Where two factors
are swapped, the two products of the product rule and the factors of each of them are swapped, so
that the sum must be matched crosswise on both levels (`Expr.productRule_beq_crosswise`).  The rule
also meets the factors in the other order then, and the error can be another one: that the
derivatives fail together is all that can be said of failures (`FailTogether`).
-/
import SymbolicCalculus.Proofs.Calculus.Rules
import SymbolicCalculus.Proofs.Zeros
import SymbolicCalculus.Expr.Equality

namespace SymbolicCalculus

universe u v

/-! ## 1. Outcomes -/

/-- Both computations fail, with whatever errors, or both succeed and their results are related. -/
inductive FailTogether {ε : Type u} {α : Type v} (R : α → α → Prop) :
    Except ε α → Except ε α → Prop where
  | failed (e e' : ε) : FailTogether R (.error e) (.error e')
  | done {a b : α} (h : R a b) : FailTogether R (.ok a) (.ok b)

namespace FailTogether

variable {ε : Type u} {α : Type v} {R : α → α → Prop} {x x' y y' : Except ε α}

theorem map {k k' : α → α} (h : FailTogether R x y) (hk : ∀ {a b}, R a b → R (k a) (k' b)) :
    FailTogether R (do return k (← x)) (do return k' (← y)) := by
  cases h with
  | failed e e' => exact .failed e e'
  | done h => exact .done (hk h)

theorem map₂ {k k' : α → α → α} (h : FailTogether R x y) (h' : FailTogether R x' y')
    (hk : ∀ {a b a' b'}, R a b → R a' b' → R (k a a') (k' b b')) :
    FailTogether R (do let a ← x; let a' ← x'; return k a a')
      (do let b ← y; let b' ← y'; return k' b b') := by
  cases h with
  | failed e e' => exact .failed e e'
  | done h =>
    cases h' with
    | failed e e' => exact .failed e e'
    | done h' => exact .done (hk h h')

/-- The order of two computations does not matter to whether both succeed. -/
theorem map₂_crosswise {k k' : α → α → α} (h : FailTogether R x y) (h' : FailTogether R x' y')
    (hk : ∀ {a b a' b'}, R a b → R a' b' → R (k a a') (k' b' b)) :
    FailTogether R (do let a ← x; let a' ← x'; return k a a')
      (do let b' ← y'; let b ← y; return k' b' b) := by
  cases h with
  | failed e e' =>
    cases h' with
    | failed d d' => exact .failed e d'
    | done _ => exact .failed e e'
  | done h =>
    cases h' with
    | failed e e' => exact .failed e e'
    | done h' => exact .done (hk h h')

end FailTogether

namespace Expr

/-! ## 2. The rules respect structural equality -/

section Rules

variable {ν : Type u} [Arithmetic ν] {f₁ f₁' f₂ f₂' g₁ g₁' g₂ g₂' : Expr ν}

/-- Structural equality is respected by everything that the rules write. -/
theorem respectedByRules_beq : RespectedByRules fun a b : Expr ν => (a == b) = true where
  number v := beq_self (number v)
  unary := fun _ _ _ h => beq_unary _ h
  binary := fun _ _ _ _ _ h h' => beq_binary _ h h'
  pow h n := beq_binary .pow h (beq_self (number n))

/-- Of a product and its swap: `f * g' + f' * g` and `g * f' + g' * f` match crosswise on both
levels. -/
theorem productRule_beq_crosswise (hf : (f₁ == g₂) = true) (hf' : (f₁' == g₂') = true)
    (hg : (g₁ == f₂) = true) (hg' : (g₁' == f₂') = true) :
    (productRule f₁ f₁' g₁ g₁' == productRule f₂ f₂' g₂ g₂') = true := by
  have hleft : (mul f₁ g₁' == mul f₂' g₂) = true := beq_crosswise rfl hf hg'
  have hright : (mul f₁' g₁ == mul f₂ g₂') = true := beq_crosswise rfl hf' hg
  exact beq_crosswise rfl hleft hright

/-- The exponents may differ, as long as they agree, and what the rule makes of them does. -/
theorem powerRule_beq {n m : ν} (hf : (f₁ == f₂) = true) (hf' : (f₁' == f₂') = true)
    (h : Arithmetic.same n m = true)
    (hpred : Arithmetic.same (Arithmetic.binary .sub n Arithmetic.one)
      (Arithmetic.binary .sub m Arithmetic.one) = true) :
    (powerRule f₁ f₁' n == powerRule f₂ f₂' m) = true := by
  refine beq_binary .mul (beq_binary .mul ?_ (beq_binary .pow hf ?_)) hf'
  · exact h
  · exact hpred

end Rules

/-! ## 3. Derivatives respect structural equality -/

/-- The results of differentiating two expressions are structurally equal, if there are any. -/
abbrev SameDerivative (p : Param) (f g : Expr Float) : Prop :=
  FailTogether (fun d d' : Expr Float => (d == d') = true) (rawDerivative p f) (rawDerivative p g)

section Nodes

variable {p : Param} {a a' b b' : Expr Float}

theorem sameDerivative_unary (op : UnaryOp) (ha : (a == a') = true) (h : SameDerivative p a a') :
    SameDerivative p (unary op a) (unary op a') := by
  cases op with
  | neg => exact h.map (beq_unary .neg)
  | call fn =>
    by_cases hfn : fn = .abs
    · subst hfn
      exact .failed _ _
    · obtain ⟨rule, rule', hrule, hrule', hresult⟩ :=
        respectedByRules_beq.exists_chainRule? hfn ha
      rw [SameDerivative, rawDerivative, rawDerivative, hrule, hrule']
      exact h.map (hresult _ _)

/-- Powers with the same exponent have the same derivative, and powers with equal exponents that
are no literals have none. -/
theorem sameDerivative_pow (ha : (a == a') = true) (hb : (b == b') = true)
    (h : SameDerivative p a a') : SameDerivative p (pow a b) (pow a' b') := by
  cases b with
  | number n =>
    obtain ⟨m, rfl, hnm⟩ := exists_of_number_beq hb
    have hpred : Binary64.Agree (n - 1) (m - 1) :=
      (Binary64.same_iff_agree.mp hnm).sub (.refl 1)
    exact h.map fun ha' => powerRule_beq ha ha' hnm (Binary64.same_iff_agree.mpr hpred)
  | param q =>
    obtain rfl := eq_of_param_beq hb
    exact .failed _ _
  | unary op c =>
    obtain ⟨c', rfl, -⟩ := exists_of_unary_beq hb
    exact .failed _ _
  | binary op c d =>
    obtain ⟨c', d', rfl, -⟩ := exists_of_binary_beq hb
    exact .failed _ _

theorem sameDerivative_binary (op : BinaryOp) (ha : (a == a') = true) (hb : (b == b') = true)
    (h : SameDerivative p a a') (h' : SameDerivative p b b') :
    SameDerivative p (binary op a b) (binary op a' b') := by
  cases op with
  | add => exact h.map₂ h' (beq_binary .add)
  | sub => exact h.map₂ h' (beq_binary .sub)
  | mul => exact h'.map₂ h fun hdb hda => respectedByRules_beq.productRule ha hda hb hdb
  | div => exact h.map₂ h' fun hda hdb => respectedByRules_beq.quotientRule ha hda hb hdb
  | pow => exact sameDerivative_pow ha hb h

theorem sameDerivative_crosswise {op : BinaryOp} (hop : op.isCommutative = true)
    (ha : (a == b') = true) (hb : (b == a') = true) (h : SameDerivative p a b')
    (h' : SameDerivative p b a') : SameDerivative p (binary op a b) (binary op a' b') := by
  cases op with
  | add => exact h.map₂_crosswise h' fun hda hdb => beq_crosswise hop hda hdb
  | mul =>
    exact h'.map₂_crosswise h fun hdb hda => productRule_beq_crosswise ha hda hb hdb
  | _ => exact absurd hop (by simp [BinaryOp.isCommutative])

end Nodes

/-- **Differentiation respects structural equality.**  Of structurally equal expressions neither can
be differentiated, or both can, and the derivatives are structurally equal. -/
theorem rawDerivative_of_beq {f g : Expr Float} (h : (f == g) = true) (p : Param) :
    FailTogether (fun d d' : Expr Float => (d == d') = true)
      (rawDerivative p f) (rawDerivative p g) := by
  -- the rules write the operands as they are, so that their equality is carried along
  refine (induction_of_beq (P := fun f g => (f == g) = true ∧ SameDerivative p f g)
    ?_ ?_ ?_ ?_ ?_ h).2
  · intro v w hvw
    exact ⟨hvw, .done (beq_self _)⟩
  · intro q
    exact ⟨beq_self _, .done (beq_self _)⟩
  · rintro op a a' ⟨ha, hda⟩
    exact ⟨beq_unary op ha, sameDerivative_unary op ha hda⟩
  · rintro op a a' b b' ⟨ha, hda⟩ ⟨hb, hdb⟩
    exact ⟨beq_binary op ha hb, sameDerivative_binary op ha hb hda hdb⟩
  · rintro op hop a a' b b' ⟨ha, hda⟩ ⟨hb, hdb⟩
    exact ⟨beq_crosswise hop ha hb, sameDerivative_crosswise hop ha hb hda hdb⟩

/-- Of `sin(x+0) * y^3` and a swap of it with a zero of the other sign. -/
theorem rawDerivative_of_beq_sin_mul_pow :
    let x : Param := ⟨23⟩
    let cube : Expr Float := pow (param ⟨24⟩) (number 3)
    let f := mul (call .sin (add (param x) (number 0))) cube
    let g := mul cube (call .sin (add (number (-0)) (param x)))
    (f == g) = true ∧
      FailTogether (fun d d' : Expr Float => (d == d') = true)
        (rawDerivative x f) (rawDerivative x g) := by
  intro x cube f g
  have h : (f == g) = true := by decide +kernel
  exact ⟨h, rawDerivative_of_beq h x⟩

-- the factor on the right is met first, and so the errors of a product and its swap differ
example (x : Param) :
    let f : Expr Float := call .abs (param x)
    let g : Expr Float := pow (param x) (param x)
    rawDerivative x (mul f g) = .error .nonConstantExponent ∧
      rawDerivative x (mul g f) = .error .noAbsoluteValueDerivative :=
  ⟨rfl, rfl⟩

end Expr

end SymbolicCalculus
