/-
# Folding

The value of an expression depends on nothing but the parameters that occur in it.  An expression in
which none occurs has a single value, and a pass replaces it by that value before it looks for
rotations and rules, of which some would find another number: `0/0`, say, is a quotient of equal
operands.  What is left is a literal, and no pass touches that again, whatever number it holds
(`Expr.simplifyFully_number`).

So simplification to the end is exact on such expressions (`Expr.eval_noninterference`), in every
arithmetic.
-/
import SymbolicCalculus.Binary64
import SymbolicCalculus.Proofs.Substitution
import SymbolicCalculus.Simplify.Full

namespace SymbolicCalculus.Expr

universe u

variable {ν : Type u} [Arithmetic ν] {e : Expr ν}

/-! ## 1. Expressions without parameters -/

omit [Arithmetic ν] in
theorem contains_only_of_contains_all_eq_false (h : e.contains .all = false) (p : Param) :
    e.contains (.only p) = false := by
  refine Bool.eq_false_iff.mpr ?_
  intro hp
  have hall : e.contains .all = true := contains_iff_exists.mpr ⟨p, hp, rfl⟩
  exact absurd hall (by simp [h])

omit [Arithmetic ν] in
/-- An expression without parameters is a literal, or it is folded. -/
theorem eq_number_or_isFoldable (h : e.contains .all = false) :
    (∃ v, e = number v) ∨ e.isLiteral = false ∧ e.isFoldable = true := by
  cases e with
  | number v => exact .inl ⟨v, rfl⟩
  | _ => exact .inr ⟨rfl, by simp [isFoldable, isLiteral, h]⟩

/-- An expression without parameters has the same value in every context. -/
theorem eval_eq_of_contains_eq_false (h : e.contains .all = false) (c d : Context ν) :
    e.eval c = e.eval d := by
  refine eval_congr ?_
  intro p hp
  exact absurd hp (by simp [contains_only_of_contains_all_eq_false h])

/-! ## 2. Literals are simplified to themselves -/

theorem simplifyUntilUnchanged_number (v : ν) :
    (number v).simplifyUntilUnchanged = ⟨number v, [], 1, 0⟩ := by
  rw [simplifyUntilUnchanged, dif_neg (by simp [Pass.changed]), simplify_number]

theorem simplifyTimes_number (n : Nat) (v : ν) :
    simplifyTimes n (number v) = ⟨number v, []⟩ := by
  induction n with
  | zero => rfl
  | succ n ih => simp [simplifyTimes, ih]

/-- **A literal is simplified to itself**, without a step. -/
theorem simplifyFully_number (k : Nat) (v : ν) :
    simplifyFully k (number v) = ⟨number v, [], 1, k⟩ := by
  rw [simplifyFully, simplifyUntilUnchanged_number, simplifyTimes_number]
  rfl

/-! ## 3. Anything else without parameters is folded -/

/-- **What can be folded is folded at once**, and that is the only step. -/
theorem simplifyFully_of_isFoldable (h : e.isFoldable = true) (k : Nat) :
    simplifyFully k e = ⟨number e.evalZero, [.constantFold], 2, k⟩ := by
  have hpass := simplify_of_isFoldable h
  have hchanged : e.simplify.changed = true := by
    rw [hpass]
    rfl
  rw [simplifyFully, simplifyUntilUnchanged, dif_pos hchanged, hpass,
    simplifyUntilUnchanged_number, simplifyTimes_number]
  rfl

/-- **Only the parameters that occur matter, and folding is exact.**  Contexts that agree on the
parameters of an expression give it the same value; and if it has none, then simplification to the
end leaves the literal of its value, in one step unless the expression is that literal already. -/
theorem eval_noninterference (e : Expr ν) :
    (∀ c d : Context ν, (∀ p, e.contains (.only p) = true → c.get p = d.get p) →
      e.eval c = e.eval d) ∧
    (e.contains .all = false → ∀ (c : Context ν) (k : Nat),
      (simplifyFully k e).expr = number (e.eval c) ∧
        (simplifyFully k e).steps = if e.isLiteral then [] else [.constantFold]) := by
  constructor
  · intro c d h
    exact eval_congr h
  · intro h c k
    rcases eq_number_or_isFoldable h with ⟨v, rfl⟩ | ⟨hliteral, hfold⟩
    · rw [simplifyFully_number]
      exact ⟨rfl, rfl⟩
    · rw [simplifyFully_of_isFoldable hfold, eval_eq_of_contains_eq_false h c Context.zero, hliteral]
      exact ⟨rfl, rfl⟩

/-- In `x - sin(x)` the value of `y` does not matter, and `0/0 - 0/0` is folded to its value, where
the rules for equal operands and for zero dividends would have found zero. -/
theorem eval_noninterference_nan :
    let x : Param := ⟨23⟩
    let y : Param := ⟨24⟩
    let e : Expr Float := sub (param x) (call .sin (param x))
    let c : Context Float := Context.zero.set x 1
    let f : Expr Float := sub (div (number 0) (number 0)) (div (number 0) (number 0))
    (∀ p, e.contains (.only p) = true → c.get p = (c.set y 2).get p) ∧
      e.eval c = e.eval (c.set y 2) ∧
      f.contains .all = false ∧
      (simplifyFully 3 f).expr = number (0 / 0 - 0 / 0) ∧
      (simplifyFully 3 f).steps = [.constantFold] := by
  intro x y e c f
  have hagree : ∀ p, e.contains (.only p) = true → c.get p = (c.set y 2).get p := by
    intro p hp
    have hy : y ≠ p := by
      rintro rfl
      exact absurd hp (by decide)
    rw [c.get_set, if_neg hy]
  have hf : f.contains .all = false := rfl
  obtain ⟨hexpr, hsteps⟩ := (eval_noninterference f).2 hf Context.zero 3
  exact ⟨hagree, (eval_noninterference e).1 c _ hagree, hf, hexpr, hsteps⟩

end SymbolicCalculus.Expr
