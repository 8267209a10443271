/-
# One pass of the simplifier

`Expr.simplify` walks over an expression once.  At every node it first folds the node into a
number if it mentions no parameter, then rotates the chain at the node, and then tries the rules; if
none applies, it simplifies the operands.  What a rule leaves is simplified in the same pass.

The sum or difference that some rules leave is simplified again *after* its operands have been, so
the recursion is not on the tree.  It is on the weight, and needs to know at the same time that
simplified operands are no heavier than before: `simplifyWithin` returns the bound
`result weight + changes ≤ weight` along with the result (`simplify_weight`).

The equations of a pass are `simplify_of_isFoldable`, `simplify_of_rule?` and
`simplify_of_rule?_eq_none`: one for each way in which a node can be treated.  Leaves are left as
they are.
-/
import SymbolicCalculus.Expr.Eval
import SymbolicCalculus.Simplify.Rotation
import SymbolicCalculus.Simplify.Rule

namespace SymbolicCalculus

universe u

/-! ## 1. The pass -/

/-- The result of a pass: the new expression, and the steps taken in order. -/
structure Pass (ν : Type u) where
  expr : Expr ν
  steps : List Step

/-- Whether the pass took a step that is not a rotation. -/
def Pass.changed {ν : Type u} (p : Pass ν) : Bool := p.steps.any (fun s => !s.isRotation)

theorem Pass.changed_iff {ν : Type u} (p : Pass ν) :
    p.changed = true ↔ 0 < Step.changes p.steps := by
  simp [Pass.changed, Step.changes, List.countP_pos_iff]

namespace Expr

variable {ν : Type u} [Arithmetic ν]

/-- Whether the expression is to be replaced by its value. -/
def isFoldable (e : Expr ν) : Bool := !e.isLiteral && !e.contains .all

omit [Arithmetic ν] in
theorem weight_of_isFoldable {e : Expr ν} (h : e.isFoldable = true) : 4 ≤ e.weight := by
  cases e with
  | number v => simp [isFoldable, isLiteral] at h
  | param p => simp [isFoldable, contains, Param.Query.selects] at h
  | unary op a =>
    have := two_le_weight a
    simp only [weight]; omega
  | binary op a b =>
    have := weight_binary_ge op a b
    have := two_le_weight a
    omega

omit [Arithmetic ν] in
/-- Folding is one change. -/
theorem weight_fold_le {e : Expr ν} (h : e.isFoldable = true) (v : ν) :
    (number v).weight + Step.changes [.constantFold] ≤ e.weight := by
  have := weight_of_isFoldable h
  simp only [weight, Step.changes_cons, Step.changes_nil, Step.isRotation]
  simp only [Bool.false_eq_true, if_false]
  omega

section Bounds

variable {ν : Type u} {a b x y : Expr ν} {rs ss xs ys : List Step} {s : Step} {w : Nat}

theorem weight_operand_lt (op : UnaryOp) (a : Expr ν) : a.weight < (unary op a).weight := by
  simp only [weight]
  omega

theorem weight_lhs_lt (op : BinaryOp) (a b : Expr ν) : a.weight < (binary op a b).weight := by
  have := weight_binary_ge op a b
  omega

theorem weight_rhs_lt (op : BinaryOp) (a b : Expr ν) : b.weight < (binary op a b).weight := by
  have := weight_binary_ge op a b
  omega

/-- Rotations in front, and then a rule, are one change more. -/
theorem weight_rewrite_le (hr : Step.changes rs = 0) (hs : s.isRotation = false)
    (h : x.weight + Step.changes ss < w) : x.weight + Step.changes (rs ++ s :: ss) ≤ w := by
  simp only [Step.changes_append, Step.changes_cons, hr, hs]
  simp only [Bool.false_eq_true, if_false]
  omega

/-- Rotations in front are no change. -/
theorem weight_rotate_le (hr : Step.changes rs = 0) (h : x.weight + Step.changes ss ≤ w) :
    x.weight + Step.changes (rs ++ ss) ≤ w := by
  simp only [Step.changes_append, hr]
  omega

theorem weight_leaf_le (hr : Step.changes rs = 0) (h : x.weight = w) :
    x.weight + Step.changes rs ≤ w := by
  omega

/-- The changes to an operand make the node lighter. -/
theorem weight_unary_le (op : UnaryOp) (hx : x.weight + Step.changes xs ≤ a.weight) :
    (unary op x).weight + Step.changes xs ≤ (unary op a).weight := by
  simp only [weight]
  omega

/-- The changes to both operands make the node lighter. -/
theorem weight_binary_le (op : BinaryOp) (hx : x.weight + Step.changes xs ≤ a.weight)
    (hy : y.weight + Step.changes ys ≤ b.weight) :
    (binary op x y).weight + Step.changes (xs ++ ys) ≤ (binary op a b).weight := by
  simp only [weight, Step.changes_append]
  split <;> omega

theorem weight_double_le (v : ν) (hx : x.weight + Step.changes xs ≤ a.weight) :
    (mul x (number v)).weight + Step.changes xs ≤ (Contractum.double a).weight := by
  simp only [weight, Contractum.weight, reduceCtorEq, if_false]
  omega

/-- The changes of two passes in a row add up. -/
theorem weight_again_le (hx : x.weight + Step.changes xs ≤ w)
    (hy : y.weight + Step.changes ys ≤ x.weight) :
    y.weight + Step.changes (xs ++ ys) ≤ w := by
  simp only [Step.changes_append]
  omega

end Bounds

/-- One pass over the expression, with the proof that the result is lighter by at least the number
of changes. -/
def simplifyWithin (e : Expr ν) :
    { p : Pass ν // p.expr.weight + Step.changes p.steps ≤ e.weight } :=
  if hf : e.isFoldable then
    ⟨⟨number e.evalZero, [.constantFold]⟩, weight_fold_le hf e.evalZero⟩
  else
    have hw := e.rotate_weight
    have hc := e.rotate_changes
    match hr : e.rotate.1.rule? with
    | some (s, c) =>
      have hlt : c.weight < e.weight := Nat.lt_of_lt_of_eq (rule?_weight hr) hw
      have hs := rule?_isRotation hr
      match c, hlt with
      | .done r, hlt => ⟨⟨r, e.rotate.2 ++ [s]⟩, weight_rewrite_le hc hs hlt⟩
      | .again a, hlt =>
        let x := simplifyWithin a
        ⟨⟨x.1.expr, e.rotate.2 ++ s :: x.1.steps⟩,
          weight_rewrite_le hc hs (Nat.lt_of_le_of_lt x.2 hlt)⟩
      | .square a, hlt =>
        have : a.weight < e.weight := Nat.lt_trans (weight_operand_lt (.call .sqr) a) hlt
        let x := simplifyWithin a
        have hx := weight_unary_le (.call .sqr) x.2
        ⟨⟨sqr x.1.expr, e.rotate.2 ++ s :: x.1.steps⟩,
          weight_rewrite_le hc hs (Nat.lt_of_le_of_lt hx hlt)⟩
      | .double a, hlt =>
        have : a.weight < e.weight := Nat.lt_of_le_of_lt (Nat.le_add_right a.weight 4) hlt
        let x := simplifyWithin a
        have hx := weight_double_le Arithmetic.two x.2
        ⟨⟨mul x.1.expr (number Arithmetic.two), e.rotate.2 ++ s :: x.1.steps⟩,
          weight_rewrite_le hc hs (Nat.lt_of_le_of_lt hx hlt)⟩
      | .sum a b, hlt =>
        have : a.weight < e.weight := Nat.lt_trans (weight_lhs_lt .add a b) hlt
        let x := simplifyWithin a
        have : b.weight < e.weight := Nat.lt_trans (weight_rhs_lt .add a b) hlt
        let y := simplifyWithin b
        have hxy := weight_binary_le .add x.2 y.2
        have : (add x.1.expr y.1.expr).weight < e.weight :=
          Nat.lt_of_le_of_lt (Nat.le_of_add_right_le hxy) hlt
        let z := simplifyWithin (add x.1.expr y.1.expr)
        ⟨⟨z.1.expr, e.rotate.2 ++ s :: (x.1.steps ++ y.1.steps ++ z.1.steps)⟩,
          weight_rewrite_le hc hs (Nat.lt_of_le_of_lt (weight_again_le hxy z.2) hlt)⟩
      | .difference a b, hlt =>
        have : a.weight < e.weight := Nat.lt_trans (weight_lhs_lt .sub a b) hlt
        let x := simplifyWithin a
        have : b.weight < e.weight := Nat.lt_trans (weight_rhs_lt .sub a b) hlt
        let y := simplifyWithin b
        have hxy := weight_binary_le .sub x.2 y.2
        have : (sub x.1.expr y.1.expr).weight < e.weight :=
          Nat.lt_of_le_of_lt (Nat.le_of_add_right_le hxy) hlt
        let z := simplifyWithin (sub x.1.expr y.1.expr)
        ⟨⟨z.1.expr, e.rotate.2 ++ s :: (x.1.steps ++ y.1.steps ++ z.1.steps)⟩,
          weight_rewrite_le hc hs (Nat.lt_of_le_of_lt (weight_again_le hxy z.2) hlt)⟩
    | none =>
      match he : e.rotate.1 with
      | number v => ⟨⟨number v, e.rotate.2⟩, weight_leaf_le hc (he ▸ hw)⟩
      | param p => ⟨⟨param p, e.rotate.2⟩, weight_leaf_le hc (he ▸ hw)⟩
      | unary op a =>
        have hw : (unary op a).weight = e.weight := he ▸ hw
        have : a.weight < e.weight := Nat.lt_of_lt_of_eq (weight_operand_lt op a) hw
        let x := simplifyWithin a
        ⟨⟨unary op x.1.expr, e.rotate.2 ++ x.1.steps⟩,
          weight_rotate_le hc (hw ▸ weight_unary_le op x.2)⟩
      | binary op a b =>
        have hw : (binary op a b).weight = e.weight := he ▸ hw
        have : a.weight < e.weight := Nat.lt_of_lt_of_eq (weight_lhs_lt op a b) hw
        let x := simplifyWithin a
        have : b.weight < e.weight := Nat.lt_of_lt_of_eq (weight_rhs_lt op a b) hw
        let y := simplifyWithin b
        ⟨⟨binary op x.1.expr y.1.expr, e.rotate.2 ++ (x.1.steps ++ y.1.steps)⟩,
          weight_rotate_le hc (hw ▸ weight_binary_le op x.2 y.2)⟩
termination_by e.weight

/-- One pass over the expression. -/
def simplify (e : Expr ν) : Pass ν := e.simplifyWithin.1

/-- A pass makes the expression lighter by at least the number of its changes. -/
theorem simplify_weight (e : Expr ν) :
    e.simplify.expr.weight + Step.changes e.simplify.steps ≤ e.weight := e.simplifyWithin.2

end Expr

/-! ## 2. The equations of a pass -/

/-- What becomes of the rest of a node, and the steps it takes. -/
def Contractum.simplify {ν : Type u} [Arithmetic ν] : Contractum ν → Pass ν
  | done e => ⟨e, []⟩
  | again a => a.simplify
  | square a => ⟨.sqr a.simplify.expr, a.simplify.steps⟩
  | double a => ⟨.mul a.simplify.expr (.number Arithmetic.two), a.simplify.steps⟩
  | sum a b =>
    let z := (Expr.add a.simplify.expr b.simplify.expr).simplify
    ⟨z.expr, a.simplify.steps ++ b.simplify.steps ++ z.steps⟩
  | difference a b =>
    let z := (Expr.sub a.simplify.expr b.simplify.expr).simplify
    ⟨z.expr, a.simplify.steps ++ b.simplify.steps ++ z.steps⟩

/-- What becomes of a node to which no rule applies. -/
def Expr.simplifyOperands {ν : Type u} [Arithmetic ν] : Expr ν → Pass ν
  | .number v => ⟨.number v, []⟩
  | .param p => ⟨.param p, []⟩
  | .unary op a => ⟨.unary op a.simplify.expr, a.simplify.steps⟩
  | .binary op a b =>
    ⟨.binary op a.simplify.expr b.simplify.expr, a.simplify.steps ++ b.simplify.steps⟩

namespace Expr

variable {ν : Type u} [Arithmetic ν]

/-- A node without parameters is folded. -/
theorem simplify_of_isFoldable {e : Expr ν} (h : e.isFoldable = true) :
    e.simplify = ⟨number e.evalZero, [.constantFold]⟩ := by
  rw [simplify, simplifyWithin, dif_pos h]

/-- A rule that applies to the rotated node decides what becomes of it. -/
theorem simplify_of_rule? {e : Expr ν} {s : Step} {c : Contractum ν}
    (h : e.isFoldable = false) (hr : e.rotate.1.rule? = some (s, c)) :
    e.simplify = ⟨c.simplify.expr, e.rotate.2 ++ s :: c.simplify.steps⟩ := by
  rw [simplify, simplifyWithin, dif_neg (by simp [h])]
  split
  · next hr' =>
    rw [hr] at hr'
    simp only [Option.some.injEq, Prod.mk.injEq] at hr'
    obtain ⟨rfl, rfl⟩ := hr'
    cases c <;> rfl
  · next hr' => exact absurd (hr.symm.trans hr') (by simp)

/-- Without a rule, the operands of the rotated node are simplified. -/
theorem simplify_of_rule?_eq_none {e : Expr ν} (h : e.isFoldable = false)
    (hr : e.rotate.1.rule? = none) :
    e.simplify =
      ⟨e.rotate.1.simplifyOperands.expr,
        e.rotate.2 ++ e.rotate.1.simplifyOperands.steps⟩ := by
  rw [simplify, simplifyWithin, dif_neg (by simp [h])]
  split
  · next hr' => exact absurd (hr.symm.trans hr') (by simp)
  · split
    · next he => rw [congrArg simplifyOperands he]; simp only [simplifyOperands, List.append_nil]
    · next he => rw [congrArg simplifyOperands he]; simp only [simplifyOperands, List.append_nil]
    · next he => rw [congrArg simplifyOperands he]; rfl
    · next he => rw [congrArg simplifyOperands he]; rfl

/-- A literal is left as it is. -/
@[simp] theorem simplify_number (v : ν) : (number v).simplify = ⟨number v, []⟩ :=
  simplify_of_rule?_eq_none rfl rfl

/-- A parameter is left as it is. -/
@[simp] theorem simplify_param (p : Param) : (param p : Expr ν).simplify = ⟨param p, []⟩ :=
  simplify_of_rule?_eq_none rfl rfl

end Expr

end SymbolicCalculus
