/-
# Which expressions can be differentiated

Two things have no derivative rule: the absolute value, and a power whose exponent is not a literal.
An expression without them (`Expr.HasRules`) can be differentiated with respect to every parameter,
and no other expression can be with respect to any (`Expr.HasRules.exists_rawDerivative`,
`Expr.hasRules_of_rawDerivative`).

What the rules write is put together from literals, the operands and their derivatives, by a few
kinds of nodes.  A relation that these nodes respect is respected by every rule
(`Expr.RespectedByRules`), and a property that they inherit passes to the derivative
(`Expr.InheritedByRules`).

Having rules is such a property, and the simplifier keeps it: an equation uses the parts of an
expression without looking at the exponents, and a literal cannot be rewritten
(`Rewrite.hasRules`).  So an expression that can be differentiated once can be differentiated again,
any number of times (`Expr.HasRules.exists_partialDerivatives`).
-/
import SymbolicCalculus.Binary64
import SymbolicCalculus.Derivative
import SymbolicCalculus.Proofs.Simplify.Trace

namespace SymbolicCalculus

universe u v w

variable {ν : Type u}

namespace Expr

/-! ## 1. Expressions with rules -/

/-- Whether there is a derivative rule for every operator in the expression: no absolute value is
taken, and every exponent is a literal. -/
def HasRules : Expr ν → Prop
  | number _ | param _ => True
  | unary op a => op ≠ .call .abs ∧ a.HasRules
  | binary op a b => a.HasRules ∧ b.HasRules ∧ (op = .pow → b.isLiteral = true)

theorem hasRules_number (v : ν) : (number v).HasRules := trivial

theorem hasRules_unary {op : UnaryOp} (hop : op ≠ .call .abs) {a : Expr ν} (ha : a.HasRules) :
    (unary op a).HasRules :=
  ⟨hop, ha⟩

theorem hasRules_binary {op : BinaryOp} (hop : op ≠ .pow) {a b : Expr ν} (ha : a.HasRules)
    (hb : b.HasRules) : (binary op a b).HasRules :=
  ⟨ha, hb, fun h => absurd h hop⟩

theorem hasRules_pow {a : Expr ν} (ha : a.HasRules) (n : ν) : (pow a (number n)).HasRules :=
  ⟨ha, trivial, fun _ => rfl⟩

end Expr

/-! ## 2. The simplifier keeps the rules -/

section Simplifier

variable [Arithmetic ν] {s : Step} {e e' : Expr ν}

open SymbolicCalculus.Expr

/-- An equation of the simplifier writes no absolute value and no power. -/
theorem Equation.hasRules (h : Equation s e e') (he : e.HasRules) : e'.HasRules := by
  cases h with
  | constantFold _ => trivial
  | @rotateRight op hop a b c =>
    -- a chain that is rotated is not one of powers
    obtain ⟨ha, ⟨hb, hc, -⟩, hpow⟩ := he
    have hop' : op ≠ .pow := by
      rintro rfl
      exact absurd hop (by simp [BinaryOp.isCommutative])
    exact hasRules_binary hop' hc (hasRules_binary hop' ha hb)
  | @rotateLeft op hop a b c =>
    obtain ⟨⟨ha, hb, -⟩, hc, -⟩ := he
    have hop' : op ≠ .pow := by
      rintro rfl
      exact absurd hop (by simp [BinaryOp.isCommutative])
    exact hasRules_binary hop' (hasRules_binary hop' hc ha) hb
  | divByOne _ => exact he.1
  | zeroDividend _ => exact he.1
  | divSelf _ => trivial
  | subZero _ => exact he.1
  | subSelf _ => trivial
  | subNeg a b => exact hasRules_binary (by simp) he.1 he.2.1.2
  | mulOneRight _ => exact he.1
  | mulOneLeft _ => exact he.2.1
  | mulZeroRight _ => exact he.2.1
  | mulZeroLeft _ => exact he.1
  | mulSelf _ => exact hasRules_unary (by simp) he.2.1
  | addZeroRight _ => exact he.1
  | addZeroLeft _ => exact he.2.1
  | addSelf _ => exact hasRules_binary (by simp) he.2.1 (hasRules_number _)
  | addNeg a b => exact hasRules_binary (by simp) he.1 he.2.1.2
  | negAdd a b => exact hasRules_binary (by simp) he.2.1 he.1.2
  | powZero _ => trivial
  | powOne _ => exact he.1
  | doubleNeg a => exact he.2.2

/-- No equation of the simplifier applies to a literal, so nothing is rewritten there. -/
theorem Rewrite.isLiteral_eq_false (h : Rewrite s e e') : e.isLiteral = false := by
  cases h with
  | root h =>
    cases h with
    | constantFold hfold =>
      simp only [isFoldable, Bool.and_eq_true, Bool.not_eq_true'] at hfold
      exact hfold.1
    | _ => rfl
  | _ => rfl

/-- **The simplifier keeps the rules.**  An exponent is a literal and stays as it is. -/
theorem Rewrite.hasRules (h : Rewrite s e e') (he : e.HasRules) : e'.HasRules := by
  induction h with
  | root h => exact h.hasRules he
  | operand op _ ih => exact ⟨he.1, ih he.2⟩
  | lhs op _ b ih => exact ⟨ih he.1, he.2⟩
  | rhs op a h ih =>
    refine hasRules_binary ?_ he.1 (ih he.2.1)
    intro hop
    have hexponent : _ = true := he.2.2 hop
    rw [h.isLiteral_eq_false] at hexponent
    exact absurd hexponent (by simp)

theorem Expr.HasRules.simplifyFully (he : e.HasRules) (extra : Nat) :
    (simplifyFully extra e).expr.HasRules :=
  (rewrites_simplifyFully extra e).preserves (fun h => h.hasRules) he

end Simplifier

/-! ## 3. What the rules write -/

namespace Expr

/-- The relation is respected by everything that the rules write: literals, operations of one
operand but the absolute value, infix operations but powers, and powers whose exponents are
literals. -/
structure RespectedByRules (R : Expr ν → Expr ν → Prop) : Prop where
  number (v : ν) : R (number v) (number v)
  unary {op : UnaryOp} (hop : op ≠ .call .abs) {a b : Expr ν} (h : R a b) :
    R (unary op a) (unary op b)
  binary {op : BinaryOp} (hop : op ≠ .pow) {a b a' b' : Expr ν} (h : R a b) (h' : R a' b') :
    R (binary op a a') (binary op b b')
  pow {a b : Expr ν} (h : R a b) (n : ν) : R (pow a (.number n)) (pow b (.number n))

namespace RespectedByRules

variable [Arithmetic ν] {R : Expr ν → Expr ν → Prop} {u w : Expr ν}

theorem arcSineSlope (hR : RespectedByRules R) (hu : R u w) :
    R (arcSineSlope u) (arcSineSlope w) :=
  hR.pow (hR.binary (by simp) (hR.number _) (hR.unary (by simp) hu)) _

theorem arcTangentSlope (hR : RespectedByRules R) (hu : R u w) :
    R (arcTangentSlope u) (arcTangentSlope w) :=
  hR.pow (hR.binary (by simp) (hR.number _) (hR.unary (by simp) hu)) _

section BinaryRules

variable {f₁ f₁' f₂ f₂' g₁ g₁' g₂ g₂' : Expr ν}

omit [Arithmetic ν] in
theorem productRule (hR : RespectedByRules R) (hf : R f₁ f₂) (hf' : R f₁' f₂') (hg : R g₁ g₂)
    (hg' : R g₁' g₂') : R (productRule f₁ f₁' g₁ g₁') (productRule f₂ f₂' g₂ g₂') :=
  hR.binary (by simp) (hR.binary (by simp) hf hg') (hR.binary (by simp) hf' hg)

omit [Arithmetic ν] in
theorem quotientRule (hR : RespectedByRules R) (hf : R f₁ f₂) (hf' : R f₁' f₂') (hg : R g₁ g₂)
    (hg' : R g₁' g₂') : R (quotientRule f₁ f₁' g₁ g₁') (quotientRule f₂ f₂' g₂ g₂') := by
  refine hR.binary (by simp) ?_ (hR.unary (by simp) hg)
  exact hR.binary (by simp) (hR.binary (by simp) hf' hg) (hR.binary (by simp) hf hg')

theorem powerRule (hR : RespectedByRules R) (hf : R f₁ f₂) (hf' : R f₁' f₂') (n : ν) :
    R (powerRule f₁ f₁' n) (powerRule f₂ f₂' n) :=
  hR.binary (by simp) (hR.binary (by simp) (hR.number n) (hR.pow hf _)) hf'

end BinaryRules

/-- Every function but the absolute value has a chain rule, and the rule respects the relation. -/
theorem exists_chainRule? (hR : RespectedByRules R) {fn : Func} (hfn : fn ≠ .abs) (hu : R u w) :
    ∃ rule rule', chainRule? fn u = some rule ∧ chainRule? fn w = some rule' ∧
      ∀ u' w' : Expr ν, R u' w' → R (rule u') (rule' w') := by
  have hcall (fn' : Func) (h : fn' ≠ .abs) : R (call fn' u) (call fn' w) :=
    hR.unary (by simpa using h) hu
  cases fn with
  | abs => exact absurd rfl hfn
  | arcSin =>
    refine ⟨_, _, rfl, rfl, ?_⟩
    intro u' w' hu'
    exact hR.binary (by simp) (hR.arcSineSlope hu) hu'
  | arcCos =>
    refine ⟨_, _, rfl, rfl, ?_⟩
    intro u' w' hu'
    exact hR.binary (by simp) (hR.unary (by simp) (hR.arcSineSlope hu)) hu'
  | arcTan =>
    refine ⟨_, _, rfl, rfl, ?_⟩
    intro u' w' hu'
    exact hR.binary (by simp) (hR.arcTangentSlope hu) hu'
  | cos =>
    refine ⟨_, _, rfl, rfl, ?_⟩
    intro u' w' hu'
    exact hR.binary (by simp) (hR.unary (by simp) (hcall .sin (by simp))) hu'
  | exp =>
    refine ⟨_, _, rfl, rfl, ?_⟩
    intro u' w' hu'
    exact hR.binary (by simp) (hcall .exp (by simp)) hu'
  | ln =>
    refine ⟨_, _, rfl, rfl, ?_⟩
    intro u' w' hu'
    exact hR.binary (by simp) hu' hu
  | log =>
    refine ⟨_, _, rfl, rfl, ?_⟩
    intro u' w' hu'
    exact hR.binary (by simp) (hR.binary (by simp) hu' hu) (hR.number _)
  | sin =>
    refine ⟨_, _, rfl, rfl, ?_⟩
    intro u' w' hu'
    exact hR.binary (by simp) (hcall .cos (by simp)) hu'
  | sqr =>
    refine ⟨_, _, rfl, rfl, ?_⟩
    intro u' w' hu'
    exact hR.binary (by simp) (hR.number _) (hR.binary (by simp) hu hu')
  | sqrt =>
    refine ⟨_, _, rfl, rfl, ?_⟩
    intro u' w' hu'
    have hroot : R (Expr.pow u minusHalf) (Expr.pow w minusHalf) := hR.pow hu _
    exact hR.binary (by simp) (hR.binary (by simp) (hR.number _) hroot) hu'
  | tan =>
    refine ⟨_, _, rfl, rfl, ?_⟩
    intro u' w' hu'
    exact hR.binary (by simp) hu' (hR.unary (by simp) (hcall .cos (by simp)))

end RespectedByRules

/-! ## 4. Properties that pass to the derivative -/

/-- A sequence of two computations succeeds if both do. -/
theorem bind_eq_ok {ε : Type u} {α β : Type v} {x : Except ε α} {k : α → Except ε β} {b : β} :
    x >>= k = .ok b ↔ ∃ a, x = .ok a ∧ k a = .ok b := by
  cases x with
  | error e => simp [Bind.bind, Except.bind]
  | ok a => simp [Bind.bind, Except.bind]

/-- What each computation of a sequence preserves, the sequence preserves. -/
theorem foldlM_preserves {ε : Type u} {α : Type v} {β : Type w} {step : β → α → Except ε β}
    {P : β → Prop} (hstep : ∀ {b b' : β} {a : α}, step b a = .ok b' → P b → P b') {as : List α}
    {b b' : β} (h : as.foldlM step b = .ok b') (hb : P b) : P b' := by
  induction as generalizing b with
  | nil =>
    obtain rfl := Except.ok.inj h
    exact hb
  | cons a as ih =>
    obtain ⟨c, hc, h⟩ := bind_eq_ok.mp h
    exact ih h (hstep hc hb)

/-- Everything that the rules write has the property if its operands have it, and whatever has the
property has operands that have it. -/
structure InheritedByRules (P : Expr ν → Prop) : Prop where
  number (v : ν) : P (number v)
  unary {op : UnaryOp} (hop : op ≠ .call .abs) {a : Expr ν} (h : P a) : P (unary op a)
  binary {op : BinaryOp} (hop : op ≠ .pow) {a b : Expr ν} (h : P a) (h' : P b) : P (binary op a b)
  pow {a : Expr ν} (h : P a) (n : ν) : P (pow a (.number n))
  operand {op : UnaryOp} {a : Expr ν} (h : P (.unary op a)) : P a
  operands {op : BinaryOp} {a b : Expr ν} (h : P (.binary op a b)) : P a ∧ P b

/-- Being the same expression, with the property, is respected by the rules. -/
theorem InheritedByRules.respected {P : Expr ν → Prop} (hP : InheritedByRules P) :
    RespectedByRules fun a b => a = b ∧ P a where
  number v := ⟨rfl, hP.number v⟩
  unary := by
    rintro op hop a _ ⟨rfl, ha⟩
    exact ⟨rfl, hP.unary hop ha⟩
  binary := by
    rintro op hop a _ b _ ⟨rfl, ha⟩ ⟨rfl, hb⟩
    exact ⟨rfl, hP.binary hop ha hb⟩
  pow := by
    rintro a _ ⟨rfl, ha⟩ n
    exact ⟨rfl, hP.pow ha n⟩

section Derivatives

variable [Arithmetic ν] {p : Param} {f d u : Expr ν}

/-- **A property that the rules inherit passes to the derivative.** -/
theorem InheritedByRules.rawDerivative {P : Expr ν → Prop} (hP : InheritedByRules P) (hf : P f)
    (h : rawDerivative p f = .ok d) : P d := by
  induction f generalizing d with
  | number v =>
    obtain rfl := Except.ok.inj h
    exact hP.number _
  | param q =>
    obtain rfl := Except.ok.inj h
    split
    · exact hP.number _
    · exact hP.number _
  | unary op u ih =>
    have hu := hP.operand hf
    cases op with
    | neg =>
      obtain ⟨u', hu', hd⟩ := bind_eq_ok.mp h
      obtain rfl := Except.ok.inj hd
      exact hP.unary (by simp) (ih hu hu')
    | call fn =>
      by_cases hfn : fn = .abs
      · subst hfn
        cases h
      · obtain ⟨rule, rule', hrule, -, hresult⟩ := hP.respected.exists_chainRule? hfn ⟨rfl, hu⟩
        simp only [Expr.rawDerivative, hrule] at h
        obtain ⟨u', hu', hd⟩ := bind_eq_ok.mp h
        obtain rfl := Except.ok.inj hd
        exact (hresult u' u' ⟨rfl, ih hu hu'⟩).2
  | binary op f g ihf ihg =>
    obtain ⟨hl, hr⟩ := hP.operands hf
    cases op with
    | add | sub =>
      obtain ⟨f', hf', h⟩ := bind_eq_ok.mp h
      obtain ⟨g', hg', h⟩ := bind_eq_ok.mp h
      obtain rfl := Except.ok.inj h
      exact hP.binary (by simp) (ihf hl hf') (ihg hr hg')
    | mul =>
      -- the product rule begins with the right factor
      obtain ⟨g', hg', h⟩ := bind_eq_ok.mp h
      obtain ⟨f', hf', h⟩ := bind_eq_ok.mp h
      obtain rfl := Except.ok.inj h
      exact (hP.respected.productRule ⟨rfl, hl⟩ ⟨rfl, ihf hl hf'⟩ ⟨rfl, hr⟩ ⟨rfl, ihg hr hg'⟩).2
    | div =>
      obtain ⟨f', hf', h⟩ := bind_eq_ok.mp h
      obtain ⟨g', hg', h⟩ := bind_eq_ok.mp h
      obtain rfl := Except.ok.inj h
      exact (hP.respected.quotientRule ⟨rfl, hl⟩ ⟨rfl, ihf hl hf'⟩ ⟨rfl, hr⟩ ⟨rfl, ihg hr hg'⟩).2
    | pow =>
      cases g with
      | number n =>
        obtain ⟨f', hf', h⟩ := bind_eq_ok.mp h
        obtain rfl := Except.ok.inj h
        exact (hP.respected.powerRule ⟨rfl, hl⟩ ⟨rfl, ihf hl hf'⟩ n).2
      | _ => cases h

/-! ## 5. The rules keep the rules -/

omit [Arithmetic ν] in
/-- What the rules write has rules, if the operands and their derivatives have. -/
theorem inheritedByRules_hasRules : InheritedByRules (HasRules : Expr ν → Prop) where
  number := hasRules_number
  unary := hasRules_unary
  binary := hasRules_binary
  pow := hasRules_pow
  operand h := h.2
  operands h := ⟨h.1, h.2.1⟩

/-- An expression with rules can be differentiated. -/
theorem HasRules.exists_rawDerivative_eq (hf : f.HasRules) (p : Param) :
    ∃ d, rawDerivative p f = .ok d := by
  induction f with
  | number v => exact ⟨zeroNumber, rfl⟩
  | param q => exact ⟨_, rfl⟩
  | unary op u ih =>
    obtain ⟨hop, hu⟩ := hf
    obtain ⟨u', hd⟩ := ih hu
    cases op with
    | neg => exact ⟨neg u', by rw [rawDerivative, hd]; rfl⟩
    | call fn =>
      have hfn : fn ≠ .abs := fun h => hop (congrArg UnaryOp.call h)
      obtain ⟨rule, -, hrule, -, -⟩ :=
        inheritedByRules_hasRules.respected.exists_chainRule? hfn ⟨rfl, hu⟩
      exact ⟨rule u', by rw [rawDerivative, hrule, hd]; rfl⟩
  | binary op f g ihf ihg =>
    obtain ⟨hf, hg, hpow⟩ := hf
    obtain ⟨f', hdf⟩ := ihf hf
    obtain ⟨g', hdg⟩ := ihg hg
    cases op with
    | add => exact ⟨add f' g', by rw [rawDerivative, hdf, hdg]; rfl⟩
    | sub => exact ⟨sub f' g', by rw [rawDerivative, hdf, hdg]; rfl⟩
    | mul => exact ⟨productRule f f' g g', by rw [rawDerivative, hdf, hdg]; rfl⟩
    | div => exact ⟨quotientRule f f' g g', by rw [rawDerivative, hdf, hdg]; rfl⟩
    | pow =>
      cases g with
      | number n => exact ⟨powerRule f f' n, by rw [rawDerivative, hdf]; rfl⟩
      | _ => exact absurd (hpow rfl) (by simp [isLiteral])

/-- **An expression with rules has a derivative, and the derivative has rules.** -/
theorem HasRules.exists_rawDerivative (hf : f.HasRules) (p : Param) :
    ∃ d, rawDerivative p f = .ok d ∧ d.HasRules := by
  obtain ⟨d, hd⟩ := hf.exists_rawDerivative_eq p
  exact ⟨d, hd, inheritedByRules_hasRules.rawDerivative hf hd⟩

/-- **Only expressions with rules have a derivative.** -/
theorem hasRules_of_rawDerivative (h : rawDerivative p f = .ok d) : f.HasRules := by
  induction f generalizing d with
  | number v => trivial
  | param q => trivial
  | unary op u ih =>
    cases op with
    | neg =>
      obtain ⟨u', hu, -⟩ := bind_eq_ok.mp h
      exact hasRules_unary (by simp) (ih hu)
    | call fn =>
      cases hrule : chainRule? fn u with
      | none => exact absurd h (by simp [rawDerivative, hrule])
      | some rule =>
        simp only [rawDerivative, hrule] at h
        obtain ⟨u', hu, -⟩ := bind_eq_ok.mp h
        refine hasRules_unary ?_ (ih hu)
        rintro ⟨⟩
        exact absurd hrule (by simp [chainRule?])
  | binary op f g ihf ihg =>
    cases op with
    | add | sub | div =>
      obtain ⟨f', hf, h⟩ := bind_eq_ok.mp h
      obtain ⟨g', hg, -⟩ := bind_eq_ok.mp h
      exact hasRules_binary (by simp) (ihf hf) (ihg hg)
    | mul =>
      -- the product rule begins with the right factor
      obtain ⟨g', hg, h⟩ := bind_eq_ok.mp h
      obtain ⟨f', hf, -⟩ := bind_eq_ok.mp h
      exact hasRules_binary (by simp) (ihf hf) (ihg hg)
    | pow =>
      cases g with
      | number n =>
        obtain ⟨f', hf, -⟩ := bind_eq_ok.mp h
        exact hasRules_pow (ihf hf) n
      | _ => exact absurd h (by simp [rawDerivative])

/-! ## 6. Derivatives of derivatives -/

/-- The simplified derivative exists if the one that the rules build does. -/
theorem derivative_of_rawDerivative (h : rawDerivative p f = .ok d) (extra : Nat) :
    derivative p extra f = .ok (simplifyFully extra d) := by
  rw [derivative, h]
  rfl

/-- An expression with rules has a simplified derivative, and that has rules. -/
theorem HasRules.exists_derivative (hf : f.HasRules) (p : Param) (extra : Nat) :
    ∃ g, derivative p extra f = .ok g ∧ g.expr.HasRules := by
  obtain ⟨d, hd, hrules⟩ := hf.exists_rawDerivative p
  exact ⟨_, derivative_of_rawDerivative hd extra, hrules.simplifyFully extra⟩

theorem hasRules_of_derivative {extra : Nat} {g : Simplified ν}
    (h : derivative p extra f = .ok g) : f.HasRules := by
  obtain ⟨d, hd, -⟩ := bind_eq_ok.mp h
  exact hasRules_of_rawDerivative hd

/-- Partial derivatives one after the other, each with its parameter and its number of extra
passes. -/
def partialDerivatives (ds : List (Param × Nat)) (f : Expr ν) : Except DerivativeError (Expr ν) :=
  ds.foldlM (fun e d => return (← derivative d.1 d.2 e).expr) f

/-- An expression with rules has partial derivatives of every order. -/
theorem HasRules.exists_partialDerivatives (hf : f.HasRules) (ds : List (Param × Nat)) :
    ∃ e, partialDerivatives ds f = .ok e ∧ e.HasRules := by
  induction ds generalizing f with
  | nil => exact ⟨f, rfl, hf⟩
  | cons d ds ih =>
    obtain ⟨g, hg, hrules⟩ := hf.exists_derivative d.1 d.2
    obtain ⟨e, he, herules⟩ := ih hrules
    refine ⟨e, ?_, herules⟩
    rw [partialDerivatives, List.foldlM_cons, hg]
    exact he

/-- **A derivative can always be differentiated again**, with respect to every parameter, and so all
partial derivatives of every order exist once one of the first order does. -/
theorem exists_derivative_derivative {j : Nat} {g : Simplified ν} (h : derivative p j f = .ok g) :
    (∀ (q : Param) (k : Nat), ∃ g', derivative q k g.expr = .ok g') ∧
      ∀ ds : List (Param × Nat),
        (∃ e, partialDerivatives ds f = .ok e) ∧ ∃ e, partialDerivatives ds g.expr = .ok e := by
  have hf : f.HasRules := hasRules_of_derivative h
  obtain ⟨g', hg', hrules⟩ := hf.exists_derivative p j
  obtain rfl : g' = g := Except.ok.inj (hg'.symm.trans h)
  refine ⟨?_, ?_⟩
  · intro q k
    obtain ⟨d, hd, -⟩ := hrules.exists_derivative q k
    exact ⟨d, hd⟩
  · intro ds
    obtain ⟨e, he, -⟩ := hf.exists_partialDerivatives ds
    obtain ⟨e', he', -⟩ := hrules.exists_partialDerivatives ds
    exact ⟨⟨e, he⟩, ⟨e', he'⟩⟩

/-- The derivative of `ln(y) * x^3` with respect to `x` has all partial derivatives. -/
theorem exists_derivative_derivative_ln_mul_pow :
    let x : Param := ⟨23⟩
    let y : Param := ⟨24⟩
    let f : Expr Float := mul (call .ln (param y)) (pow (param x) (number 3))
    ∃ g, derivative x 2 f = .ok g ∧ (∃ g', derivative y 0 g.expr = .ok g') ∧
      ∃ e, partialDerivatives [(x, 1), (y, 0), (x, 1)] f = .ok e := by
  intro x y f
  have hd : rawDerivative x f =
      .ok (productRule (call .ln (param y)) (div zeroNumber (param y)) (pow (param x) (number 3))
        (powerRule (param x) oneNumber 3)) := rfl
  have hg := derivative_of_rawDerivative hd 2
  obtain ⟨hagain, hall⟩ := exists_derivative_derivative hg
  exact ⟨_, hg, hagain y 0, (hall _).1⟩

end Derivatives

end Expr

end SymbolicCalculus
