/-
# Rotations

A chain of `+` (or of `*`) is rotated so that operands of nested nodes move up and meet other
operands: `a+(b+c) = c+(a+b)`, and then `(a+b)+c = (c+a)+b`.  Both rotations may happen at one node.

A rotation keeps the weight of the tree (`rotate_weight`) and takes no step that changes it
(`rotate_changes`).
-/
import SymbolicCalculus.Expr.Basic
import SymbolicCalculus.Simplify.Step

namespace SymbolicCalculus.Expr

universe u

variable {ν : Type u}

/-- The operands of a node of the operator. -/
def operandsOf? (op : BinaryOp) : Expr ν → Option (Expr ν × Expr ν)
  | binary op' a b => if op' = op then some (a, b) else none
  | _ => none

/-- The equation `a∘(b∘c) = c∘(a∘b)` on the operands of a node. -/
def rotateRight (op : BinaryOp) (lhs rhs : Expr ν) : (Expr ν × Expr ν) × List Step :=
  match rhs.operandsOf? op with
  | some (b, c) => ((c, binary op lhs b), [.rotateRight])
  | none => ((lhs, rhs), [])

/-- The equation `(a∘b)∘c = (c∘a)∘b` on the operands of a node. -/
def rotateLeft (op : BinaryOp) (lhs rhs : Expr ν) : (Expr ν × Expr ν) × List Step :=
  match lhs.operandsOf? op with
  | some (a, b) => ((binary op rhs a, b), [.rotateLeft])
  | none => ((lhs, rhs), [])

/-- The expression with the chain at its root rotated, and the rotations. -/
def rotate : Expr ν → Expr ν × List Step
  | binary op lhs rhs =>
    if op.isCommutative then
      let right := rotateRight op lhs rhs
      let left := rotateLeft op right.1.1 right.1.2
      (binary op left.1.1 left.1.2, right.2 ++ left.2)
    else (binary op lhs rhs, [])
  | e => (e, [])

/-! ## Rotations keep the weight -/

theorem eq_binary_of_operandsOf? {op : BinaryOp} {e a b : Expr ν}
    (h : e.operandsOf? op = some (a, b)) : e = binary op a b := by
  unfold operandsOf? at h
  split at h
  · split at h
    · next ho => simp_all
    · exact absurd h (by simp)
  · exact absurd h (by simp)

theorem rotateRight_weight (op : BinaryOp) (lhs rhs : Expr ν) :
    (rotateRight op lhs rhs).1.1.weight + (rotateRight op lhs rhs).1.2.weight
      = lhs.weight + rhs.weight := by
  unfold rotateRight
  split
  · next h =>
    rw [eq_binary_of_operandsOf? h]
    simp only [weight]
    omega
  · rfl

theorem rotateLeft_weight (op : BinaryOp) (lhs rhs : Expr ν) :
    (rotateLeft op lhs rhs).1.1.weight + (rotateLeft op lhs rhs).1.2.weight
      = lhs.weight + rhs.weight := by
  unfold rotateLeft
  split
  · next h =>
    rw [eq_binary_of_operandsOf? h]
    simp only [weight]
    omega
  · rfl

/-- Rotations keep the weight. -/
theorem rotate_weight (e : Expr ν) : e.rotate.1.weight = e.weight := by
  unfold rotate
  split
  · next op lhs rhs =>
    split
    · have hr := rotateRight_weight op lhs rhs
      have hl := rotateLeft_weight op (rotateRight op lhs rhs).1.1 (rotateRight op lhs rhs).1.2
      simp only [weight]
      omega
    · rfl
  · rfl

/-- Rotations do not count as changes. -/
theorem rotate_changes (e : Expr ν) : Step.changes e.rotate.2 = 0 := by
  unfold rotate
  split
  · split
    · simp only [rotateRight, rotateLeft]
      split <;> split <;> simp [Step.isRotation]
    · rfl
  · rfl

end SymbolicCalculus.Expr
