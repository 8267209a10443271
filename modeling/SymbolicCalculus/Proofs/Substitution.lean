/-
# Substitution

Where `Expr.substitute` replaces one parameter by an expression, an assignment replaces all
parameters at once (`Expr.assign`).  What an assignment does to an expression shows at the parameters
of the expression, one by one:

* no other parameter matters (`Expr.assign_congr`), and two assignments in a row are one
  (`Expr.assign_assign`);
* the value is that of the expression in a context that holds the values of what is assigned
  (`Expr.eval_assign`);
* the parameters are those of what is assigned (`Expr.contains_assign_iff`).

A substitution is the assignment that moves a single parameter (`Expr.substitute_eq_assign`).  So
what it means (`Expr.substitute_eval_contains`), and how two of them follow each other
(`Expr.substitute_laws`), comes down to looking at parameters.
-/
import Mathlib.Logic.Function.Basic
import SymbolicCalculus.Expr.Eval

namespace SymbolicCalculus.Expr

universe u

variable {ν : Type u} {e s t : Expr ν} {p q : Param} {σ τ : Param → Expr ν}

/-! ## 1. The parameters of an expression -/

theorem contains_param_iff : (param q : Expr ν).contains (.only p) = true ↔ p = q := by
  simp [contains, Param.Query.selects]

theorem contains_binary_iff {op : BinaryOp} {a b : Expr ν} {Q : Param.Query} :
    (binary op a b).contains Q = true ↔ a.contains Q = true ∨ b.contains Q = true := by
  rw [contains, Bool.or_eq_true]

/-- What holds of the parameters of a node holds of those of its operands. -/
theorem forall_contains_binary_iff {op : BinaryOp} {a b : Expr ν} {P : Param → Prop} :
    (∀ p, (binary op a b).contains (.only p) = true → P p) ↔
      (∀ p, a.contains (.only p) = true → P p) ∧ ∀ p, b.contains (.only p) = true → P p := by
  simp only [contains_binary_iff, or_imp, forall_and]

/-! ## 2. Assignments -/

/-- The expression with every parameter replaced by what is assigned to it, all at once. -/
def assign (σ : Param → Expr ν) : Expr ν → Expr ν
  | number v => number v
  | param p => σ p
  | unary op a => unary op (a.assign σ)
  | binary op a b => binary op (a.assign σ) (b.assign σ)

/-- Only the parameters that occur matter. -/
theorem assign_congr (h : ∀ p, e.contains (.only p) = true → σ p = τ p) :
    e.assign σ = e.assign τ := by
  induction e with
  | number v => rfl
  | param p => exact h p (contains_param_iff.mpr rfl)
  | unary op a ih =>
    have ha : a.assign σ = a.assign τ := ih h
    rw [assign, assign, ha]
  | binary op a b iha ihb =>
    obtain ⟨ha, hb⟩ := forall_contains_binary_iff.mp h
    rw [assign, assign, iha ha, ihb hb]

/-- Every parameter stands for itself. -/
theorem assign_param (e : Expr ν) : e.assign param = e := by
  induction e with
  | number v => rfl
  | param p => rfl
  | unary op a ih => rw [assign, ih]
  | binary op a b iha ihb => rw [assign, iha, ihb]

/-- An assignment that leaves the parameters of an expression alone leaves the expression alone. -/
theorem assign_eq_self (h : ∀ p, e.contains (.only p) = true → σ p = param p) :
    e.assign σ = e :=
  (assign_congr h).trans e.assign_param

/-- Two assignments in a row are one: the second goes on with what the first has assigned. -/
theorem assign_assign (e : Expr ν) (σ τ : Param → Expr ν) :
    (e.assign σ).assign τ = e.assign fun p => (σ p).assign τ := by
  induction e with
  | number v => rfl
  | param p => rfl
  | unary op a ih => rw [assign, assign, assign, ih]
  | binary op a b iha ihb => rw [assign, assign, assign, iha, ihb]

/-- **The parameters of an assigned expression** are those of what is assigned to its own. -/
theorem contains_assign_iff {Q : Param.Query} : (e.assign σ).contains Q = true ↔
    ∃ p, e.contains (.only p) = true ∧ (σ p).contains Q = true := by
  induction e with
  | number v => simp [assign, contains]
  | param p => simp [assign, contains_param_iff]
  | unary op a ih => exact ih
  | binary op a b iha ihb =>
    rw [assign, contains_binary_iff, iha, ihb]
    simp only [contains_binary_iff, or_and_right, exists_or]

/-- A query finds the parameters that it selects. -/
theorem contains_iff_exists {Q : Param.Query} :
    e.contains Q = true ↔ ∃ p, e.contains (.only p) = true ∧ Q.selects p = true := by
  have h := contains_assign_iff (e := e) (σ := param) (Q := Q)
  rwa [assign_param] at h

/-! ## 3. Values -/

section Values

variable [Arithmetic ν] {c d : Context ν}

/-- **The value of an assigned expression** is that of the expression where its parameters have the
values of what is assigned to them. -/
theorem eval_assign (h : ∀ p, e.contains (.only p) = true → d.get p = (σ p).eval c) :
    (e.assign σ).eval c = e.eval d := by
  induction e with
  | number v => rfl
  | param p => exact (h p (contains_param_iff.mpr rfl)).symm
  | unary op a ih =>
    have ha : (a.assign σ).eval c = a.eval d := ih h
    rw [assign, eval, eval, ha]
  | binary op a b iha ihb =>
    obtain ⟨ha, hb⟩ := forall_contains_binary_iff.mp h
    rw [assign, eval, eval, iha ha, ihb hb]

/-- Contexts that agree on the parameters of an expression give it the same value. -/
theorem eval_congr (h : ∀ p, e.contains (.only p) = true → c.get p = d.get p) :
    e.eval c = e.eval d := by
  have hvalue : (e.assign param).eval c = e.eval d := by
    refine eval_assign ?_
    intro p hp
    exact (h p hp).symm
  rwa [assign_param] at hvalue

end Values

/-! ## 4. Substitutions -/

open Function (update)

/-- A substitution is the assignment that moves a single parameter. -/
theorem substitute_eq_assign (e : Expr ν) (p : Param) (s : Expr ν) :
    e.substitute p s = e.assign (update param p s) := by
  induction e with
  | number v => rfl
  | param q => rw [substitute, assign, Function.update_apply]
  | unary op a ih => rw [substitute, assign, ih]
  | binary op a b iha ihb => rw [substitute, assign, iha, ihb]

/-- **Substitution is a change of the context.**  The value of the expression with `s` in the place
of `p` is that of the expression where `p` has the value of `s`; it does not matter that `s` may
mention `p` again.  What is left of the parameters are those of the expression, without `p`, and
those of `s` if `p` was one of them. -/
theorem substitute_eval_contains [Arithmetic ν] (e s : Expr ν) (p : Param) :
    (∀ c : Context ν, (e.substitute p s).eval c = e.eval (c.set p (s.eval c))) ∧
      ∀ q : Param, (e.substitute p s).contains (.only q) = true ↔
        (q ≠ p ∧ e.contains (.only q) = true) ∨
          (e.contains (.only p) = true ∧ s.contains (.only q) = true) := by
  rw [substitute_eq_assign]
  constructor
  · intro c
    refine eval_assign ?_
    intro r _
    rw [Context.get_set]
    by_cases hr : r = p
    · rw [hr, if_pos rfl, Function.update_self]
    · rw [if_neg (Ne.symm hr), Function.update_of_ne hr, eval]
  · intro q
    rw [contains_assign_iff]
    constructor
    · rintro ⟨r, hr, hq⟩
      by_cases hrp : r = p
      · subst hrp
        rw [Function.update_self] at hq
        exact .inr ⟨hr, hq⟩
      · rw [Function.update_of_ne hrp, contains_param_iff] at hq
        subst hq
        exact .inl ⟨hrp, hr⟩
    · rintro (⟨hqp, hq⟩ | ⟨hp, hq⟩)
      · refine ⟨q, hq, ?_⟩
        rw [Function.update_of_ne hqp, contains_param_iff]
      · refine ⟨p, hp, ?_⟩
        rwa [Function.update_self]

/-! ## 5. Substitutions in a row -/

/-- Nothing is substituted for a parameter that does not occur. -/
theorem substitute_of_contains_eq_false (h : e.contains (.only p) = false) (s : Expr ν) :
    e.substitute p s = e := by
  rw [substitute_eq_assign]
  refine assign_eq_self ?_
  intro q hq
  have hqp : q ≠ p := by
    rintro rfl
    exact absurd hq (by simp [h])
  exact Function.update_of_ne hqp s param

/-- What two substitutions in a row do to an expression shows at its parameters. -/
theorem substitute_substitute (e s t : Expr ν) (p q : Param) :
    (e.substitute p s).substitute q t =
      e.assign fun r => (update param p s r).substitute q t := by
  rw [substitute_eq_assign e, substitute_eq_assign, assign_assign]
  simp only [substitute_eq_assign]

theorem substitute_param_self (p : Param) (s : Expr ν) : (param p).substitute p s = s :=
  if_pos rfl

theorem substitute_param_of_ne (h : q ≠ p) (s : Expr ν) : (param q).substitute p s = param q :=
  if_neg h

/-- **Substitutions follow each other as they should.**  Two of them can change places if the second
one is made in what the first one brings in, provided that it does not bring the first parameter
back.  A parameter that is replaced by itself stays, and a parameter that is renamed to one that
does not occur can be renamed back. -/
theorem substitute_laws (e s t : Expr ν) (p q : Param) :
    (p ≠ q → t.contains (.only p) = false →
      (e.substitute p s).substitute q t = (e.substitute q t).substitute p (s.substitute q t)) ∧
    e.substitute p (param p) = e ∧
    (e.contains (.only q) = false →
      (e.substitute p (param q)).substitute q (param p) = e) := by
  refine ⟨?_, ?_, ?_⟩
  · intro hpq ht
    rw [substitute_substitute, substitute_substitute]
    refine assign_congr ?_
    intro r _
    by_cases hrp : r = p
    · rw [hrp, Function.update_self, Function.update_of_ne hpq, substitute_param_self]
    · rw [Function.update_of_ne hrp]
      by_cases hrq : r = q
      · -- here `t` comes in, and nothing of it is replaced
        rw [hrq, Function.update_self, substitute_param_self, substitute_of_contains_eq_false ht]
      · rw [Function.update_of_ne hrq, substitute_param_of_ne hrq, substitute_param_of_ne hrp]
  · rw [substitute_eq_assign, Function.update_eq_self, assign_param]
  · intro hq
    rw [substitute_substitute]
    refine assign_eq_self ?_
    intro r hr
    by_cases hrp : r = p
    · rw [hrp, Function.update_self, substitute_param_self]
    · have hrq : r ≠ q := by
        rintro rfl
        exact absurd hr (by simp [hq])
      rw [Function.update_of_ne hrp, substitute_param_of_ne hrq]

/-- In `x * sin(x)`, first `x + y` for `x` and then `y * z` for `y`, and `x` renamed to `y` and
back. -/
theorem substitute_laws_mul_sin :
    let x : Param := ⟨23⟩
    let y : Param := ⟨24⟩
    let e : Expr Float := mul (param x) (call .sin (param x))
    let s : Expr Float := add (param x) (param y)
    let t : Expr Float := mul (param y) (param ⟨25⟩)
    (x ≠ y ∧ t.contains (.only x) = false ∧ e.contains (.only y) = false) ∧
      (e.substitute x s).substitute y t = (e.substitute y t).substitute x (s.substitute y t) ∧
      (e.substitute x (param y)).substitute y (param x) = e := by
  intro x y e s t
  have hxy : x ≠ y := by decide
  have ht : t.contains (.only x) = false := rfl
  have he : e.contains (.only y) = false := rfl
  obtain ⟨hcomm, -, hback⟩ := substitute_laws e s t x y
  exact ⟨⟨hxy, ht, he⟩, hcomm hxy ht, hback he⟩

end SymbolicCalculus.Expr
