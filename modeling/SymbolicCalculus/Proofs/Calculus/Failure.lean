/-
# Which differentiations fail, and with which error

An expression has an obstacle to differentiation if the absolute value is taken somewhere in it, or
if some exponent in it is not a literal (`Expr.HasObstacle`).  Where that stands does not matter: no
rule leaves an operand out, whether it mentions the parameter or not.

An expression can have obstacles of both kinds.  The rules meet its operands in an order of their
own, and the first obstacle they meet is the error (`Expr.obstacle?`).  The parameter has no part in
this, so the outcome is the same for all parameters (`Expr.exists_error_iff_hasObstacle`).
-/
import SymbolicCalculus.Proofs.Calculus.Rules
import SymbolicCalculus.Proofs.Simplify.NormalForm

namespace SymbolicCalculus

universe u v

variable {ν : Type u}

namespace Expr

/-! ## 1. Obstacles -/

/-- The expression has an obstacle that the error tells of: the absolute value of something occurs
in it, or a power whose exponent is not a literal. -/
def HasObstacle (f : Expr ν) : DerivativeError → Prop
  | .noAbsoluteValueDerivative => ∃ u, Occurs (call .abs u) f
  | .nonConstantExponent => ∃ a b, Occurs (pow a b) f ∧ ∀ n, b ≠ number n

variable {e : DerivativeError} {f g u : Expr ν}

theorem exists_hasObstacle_iff : (∃ e, f.HasObstacle e) ↔
    (∃ u, Occurs (call .abs u) f) ∨ ∃ a b, Occurs (pow a b) f ∧ ∀ n, b ≠ number n := by
  constructor
  · rintro ⟨e, he⟩
    cases e with
    | noAbsoluteValueDerivative => exact .inl he
    | nonConstantExponent => exact .inr he
  · rintro (h | h)
    · exact ⟨.noAbsoluteValueDerivative, h⟩
    · exact ⟨.nonConstantExponent, h⟩

/-- An expression has the obstacles of everything that occurs in it. -/
theorem HasObstacle.mono (h : f.HasObstacle e) (hocc : ∀ {a}, Occurs a f → Occurs a g) :
    g.HasObstacle e := by
  cases e with
  | noAbsoluteValueDerivative =>
    obtain ⟨u, hu⟩ := h
    exact ⟨u, hocc hu⟩
  | nonConstantExponent =>
    obtain ⟨a, b, hab, hb⟩ := h
    exact ⟨a, b, hocc hab, hb⟩

theorem not_hasObstacle_of_leaf (hf : (∃ v, f = number v) ∨ ∃ p, f = param p) :
    ¬f.HasObstacle e := by
  intro h
  cases e with
  | noAbsoluteValueDerivative =>
    obtain ⟨u, hu⟩ := h
    rcases hf with ⟨v, rfl⟩ | ⟨p, rfl⟩ <;> cases hu
  | nonConstantExponent =>
    obtain ⟨a, b, hab, -⟩ := h
    rcases hf with ⟨v, rfl⟩ | ⟨p, rfl⟩ <;> cases hab

/-- An operation of one operand is an obstacle itself only if it is the absolute value. -/
theorem HasObstacle.of_unary {op : UnaryOp} (h : (unary op u).HasObstacle e) :
    op = .call .abs ∨ u.HasObstacle e := by
  cases e with
  | noAbsoluteValueDerivative =>
    obtain ⟨w, hw⟩ := h
    rcases hw.of_unary with heq | hw
    · cases heq
      exact .inl rfl
    · exact .inr ⟨w, hw⟩
  | nonConstantExponent =>
    obtain ⟨a, b, hab, hb⟩ := h
    rcases hab.of_unary with heq | hab
    · cases heq
    · exact .inr ⟨a, b, hab, hb⟩

/-- An infix operation is an obstacle itself only if it is a power and its exponent no literal. -/
theorem HasObstacle.of_binary {op : BinaryOp} (h : (binary op f g).HasObstacle e) :
    (op = .pow ∧ g.isLiteral = false) ∨ f.HasObstacle e ∨ g.HasObstacle e := by
  cases e with
  | noAbsoluteValueDerivative =>
    obtain ⟨w, hw⟩ := h
    rcases hw.of_binary with heq | hw | hw
    · cases heq
    · exact .inr (.inl ⟨w, hw⟩)
    · exact .inr (.inr ⟨w, hw⟩)
  | nonConstantExponent =>
    obtain ⟨a, b, hab, hb⟩ := h
    rcases hab.of_binary with heq | hab | hab
    · cases heq
      refine .inl ⟨rfl, ?_⟩
      cases g with
      | number n => exact absurd rfl (hb n)
      | _ => rfl
    · exact .inr (.inl ⟨a, b, hab, hb⟩)
    · exact .inr (.inr ⟨a, b, hab, hb⟩)

/-- Expressions with rules have no obstacle. -/
theorem HasRules.not_hasObstacle (hf : f.HasRules) : ¬f.HasObstacle e := by
  induction f with
  | number v => exact not_hasObstacle_of_leaf (.inl ⟨v, rfl⟩)
  | param p => exact not_hasObstacle_of_leaf (.inr ⟨p, rfl⟩)
  | unary op u ih =>
    intro h
    obtain ⟨hop, hu⟩ := hf
    rcases h.of_unary with habs | h
    · exact hop habs
    · exact ih hu h
  | binary op f g ihf ihg =>
    intro h
    obtain ⟨hf, hg, hpow⟩ := hf
    rcases h.of_binary with ⟨hop, hliteral⟩ | h | h
    · exact absurd (hpow hop) (by simp [hliteral])
    · exact ihf hf h
    · exact ihg hg h

/-! ## 2. The obstacle that is met first -/

/-- The obstacle that the rules meet first.  An operation is looked at before its operands, and of
two operands the left one comes first, except in a product. -/
def obstacle? : Expr ν → Option DerivativeError
  | number _ | param _ => none
  | call .abs _ => some .noAbsoluteValueDerivative
  | unary _ u => u.obstacle?
  | mul f g => g.obstacle?.or f.obstacle?
  | pow f (number _) => f.obstacle?
  | pow _ _ => some .nonConstantExponent
  | binary _ f g => f.obstacle?.or g.obstacle?

/-- The obstacle that is met first is there. -/
theorem hasObstacle_of_obstacle? (h : f.obstacle? = some e) : f.HasObstacle e := by
  induction f with
  | number v => cases h
  | param p => cases h
  | unary op u ih =>
    by_cases hop : op = .call .abs
    · subst hop
      cases h
      exact ⟨u, .root⟩
    · have hu : u.obstacle? = some e := by simpa [obstacle?, hop] using h
      exact (ih hu).mono (.operand op)
  | binary op f g ihf ihg =>
    have hleft (h : f.obstacle? = some e) : (binary op f g).HasObstacle e :=
      (ihf h).mono (.lhs op · g)
    have hright (h : g.obstacle? = some e) : (binary op f g).HasObstacle e :=
      (ihg h).mono (.rhs op f)
    cases op with
    | add | sub | div =>
      rcases Option.or_eq_some_iff.mp h with h | ⟨-, h⟩
      · exact hleft h
      · exact hright h
    | mul =>
      rcases Option.or_eq_some_iff.mp h with h | ⟨-, h⟩
      · exact hright h
      · exact hleft h
    | pow =>
      cases g with
      | number n => exact hleft h
      | _ =>
        cases h
        exact ⟨f, _, .root, by simp⟩

end Expr

/-! ## 3. The error of a computation -/

/-- The error that a computation ends with, if it fails. -/
def failure? {ε : Type u} {α : Type v} : Except ε α → Option ε
  | .ok _ => none
  | .error e => some e

section Failure

variable {ε : Type u} {α β : Type v} {x : Except ε α}

theorem failure?_eq_some_iff {e : ε} : failure? x = some e ↔ x = .error e := by
  cases x <;> simp [failure?]

/-- Of two computations in a row the first failure counts, where that of the second one does not
depend on the result of the first. -/
theorem failure?_bind {k : α → Except ε β} {o : Option ε} (hk : ∀ a, failure? (k a) = o) :
    failure? (x >>= k) = (failure? x).or o := by
  cases x with
  | error e => rfl
  | ok a => exact hk a

/-- A computation that is only followed by a function fails as it does itself. -/
theorem failure?_bind_pure (g : α → β) : failure? (x >>= fun a => pure (g a)) = failure? x := by
  cases x <;> rfl

end Failure

/-! ## 4. The error of a derivative -/

namespace Expr

variable [Arithmetic ν]

/-- **The error is the obstacle that is met first**, for every parameter. -/
theorem failure?_rawDerivative (p : Param) (f : Expr ν) :
    failure? (rawDerivative p f) = f.obstacle? := by
  induction f with
  | number v => rfl
  | param q => rfl
  | unary op u ih =>
    cases op with
    | neg => exact (failure?_bind_pure neg).trans ih
    | call fn =>
      cases fn with
      | abs => rfl
      | _ => exact (failure?_bind_pure _).trans ih
  | binary op f g ihf ihg =>
    cases op with
    | add =>
      simp only [obstacle?, ← ihf, ← ihg]
      exact failure?_bind fun f' => failure?_bind_pure (add f')
    | sub =>
      simp only [obstacle?, ← ihf, ← ihg]
      exact failure?_bind fun f' => failure?_bind_pure (sub f')
    | mul =>
      simp only [obstacle?, ← ihf, ← ihg]
      exact failure?_bind fun g' => failure?_bind_pure (productRule f · g g')
    | div =>
      simp only [obstacle?, ← ihf, ← ihg]
      exact failure?_bind fun f' => failure?_bind_pure (quotientRule f f' g)
    | pow =>
      cases g with
      | number n =>
        simp only [obstacle?, ← ihf]
        exact failure?_bind_pure (powerRule f · n)
      | _ => rfl

/-- Simplifying a derivative does not fail. -/
theorem failure?_derivative (p : Param) (extra : Nat) (f : Expr ν) :
    failure? (derivative p extra f) = failure? (rawDerivative p f) :=
  failure?_bind_pure (simplifyFully extra)

/-- An expression cannot be differentiated exactly if it has an obstacle. -/
theorem exists_rawDerivative_error_iff {p : Param} {f : Expr ν} :
    (∃ e, rawDerivative p f = .error e) ↔ ∃ e, f.HasObstacle e := by
  constructor
  · rintro ⟨e, he⟩
    rw [← failure?_eq_some_iff, failure?_rawDerivative] at he
    exact ⟨e, hasObstacle_of_obstacle? he⟩
  · rintro ⟨e, he⟩
    cases h : rawDerivative p f with
    | ok d => exact absurd he (hasRules_of_rawDerivative h).not_hasObstacle
    | error e => exact ⟨e, rfl⟩

/-- The simplified derivative exists exactly if the one that the rules build does. -/
theorem derivative_eq_error_iff {p : Param} {extra : Nat} {f : Expr ν} {e : DerivativeError} :
    derivative p extra f = .error e ↔ rawDerivative p f = .error e := by
  rw [← failure?_eq_some_iff, ← failure?_eq_some_iff, failure?_derivative]

/-- **Differentiation fails exactly where an obstacle occurs**: the absolute value of something, or a
power whose exponent is not a literal.  The error tells of an obstacle that is there, and whether
and how differentiation fails is the same for all parameters. -/
theorem exists_error_iff_hasObstacle (f : Expr ν) (p : Param) (extra : Nat) :
    ((∃ e, rawDerivative p f = .error e) ↔
      (∃ u, Occurs (call .abs u) f) ∨ ∃ a b, Occurs (pow a b) f ∧ ∀ n, b ≠ number n) ∧
    ((∃ e, derivative p extra f = .error e) ↔
      (∃ u, Occurs (call .abs u) f) ∨ ∃ a b, Occurs (pow a b) f ∧ ∀ n, b ≠ number n) ∧
    (∀ e, rawDerivative p f = .error e ∨ derivative p extra f = .error e → f.HasObstacle e) ∧
    ∀ (q : Param) (extra' : Nat),
      failure? (rawDerivative q f) = failure? (rawDerivative p f) ∧
      failure? (derivative q extra' f) = failure? (derivative p extra f) := by
  refine ⟨exists_rawDerivative_error_iff.trans exists_hasObstacle_iff, ?_, ?_, ?_⟩
  · simp only [derivative_eq_error_iff]
    exact exists_rawDerivative_error_iff.trans exists_hasObstacle_iff
  · intro e he
    rw [derivative_eq_error_iff, or_self, ← failure?_eq_some_iff, failure?_rawDerivative] at he
    exact hasObstacle_of_obstacle? he
  · intro q extra'
    have hsame : failure? (rawDerivative q f) = failure? (rawDerivative p f) := by
      rw [failure?_rawDerivative, failure?_rawDerivative]
    exact ⟨hsame, by rw [failure?_derivative, failure?_derivative, hsame]⟩

end Expr

end SymbolicCalculus
