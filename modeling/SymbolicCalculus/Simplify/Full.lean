/-
# Simplification to the end

One pass can make room for another, so `Expr.simplifyFully` repeats passes until one changes
nothing.  Rotations do not count as changes but can still bring operands together, so a number of
extra passes follow.

The repetition ends because a pass that changes something makes the expression lighter.
-/
import SymbolicCalculus.Simplify.Pass

namespace SymbolicCalculus

universe u

/-- The result of simplifying to the end. -/
structure Simplified (ν : Type u) where
  /-- The simplified expression. -/
  expr : Expr ν
  /-- The steps of all passes in order. -/
  steps : List Step
  /-- The number of passes up to the first that changed nothing. -/
  passes : Nat
  /-- The number of passes after that. -/
  extra : Nat

namespace Expr

variable {ν : Type u} [Arithmetic ν]

/-- A pass that changes something makes the expression lighter. -/
theorem simplify_weight_lt {e : Expr ν} (h : e.simplify.changed = true) :
    e.simplify.expr.weight < e.weight := by
  have := simplify_weight e
  have := e.simplify.changed_iff.mp h
  omega

/-- Passes over the expression until one changes nothing. -/
def simplifyUntilUnchanged (e : Expr ν) : Simplified ν :=
  if _h : e.simplify.changed then
    let r := e.simplify.expr.simplifyUntilUnchanged
    { r with steps := e.simplify.steps ++ r.steps, passes := r.passes + 1 }
  else ⟨e.simplify.expr, e.simplify.steps, 1, 0⟩
termination_by e.weight
decreasing_by exact simplify_weight_lt (by assumption)

/-- A fixed number of passes over the expression. -/
def simplifyTimes : Nat → Expr ν → Pass ν
  | 0, e => ⟨e, []⟩
  | n + 1, e =>
    let r := simplifyTimes n e.simplify.expr
    ⟨r.expr, e.simplify.steps ++ r.steps⟩

/-- Passes over the expression until one changes nothing, and `extra` passes more. -/
def simplifyFully (extra : Nat) (e : Expr ν) : Simplified ν :=
  let r := e.simplifyUntilUnchanged
  let more := simplifyTimes extra r.expr
  ⟨more.expr, r.steps ++ more.steps, r.passes, extra⟩

end Expr

end SymbolicCalculus
