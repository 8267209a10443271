/-
# What a pass reports as a change

A pass reports a change if it took a step that is no rotation.  Rotations only group and order the
operands of `+` and of `*` anew (`Rearranged`): the leaves stay, each as often as before, and so
does every node of another operator.  Any other step makes the expression lighter, and expressions
that are structurally equal weigh the same (`Expr.weight_eq_of_beq`).

So the report is exact (`Expr.simplify_changed_exact`): where there is none, nothing but groups and
order has changed, and where there is one, the result is another expression, and a smaller one.
-/
import SymbolicCalculus.Proofs.Simplify.Work

namespace SymbolicCalculus

universe u

variable {ν : Type u}

/-! ## 1. Rearranged expressions -/

/-- The expressions differ only in how the operands of `+` and of `*` are grouped and ordered. -/
inductive Rearranged : Expr ν → Expr ν → Prop where
  | refl (e : Expr ν) : Rearranged e e
  | symm {e e' : Expr ν} (h : Rearranged e e') : Rearranged e' e
  | trans {e e' e'' : Expr ν} (h : Rearranged e e') (h' : Rearranged e' e'') : Rearranged e e''
  | comm {op : BinaryOp} (hop : op.isCommutative = true) (a b : Expr ν) :
      Rearranged (.binary op a b) (.binary op b a)
  | assoc {op : BinaryOp} (hop : op.isCommutative = true) (a b c : Expr ν) :
      Rearranged (.binary op (.binary op a b) c) (.binary op a (.binary op b c))
  | unary (op : UnaryOp) {a a' : Expr ν} (h : Rearranged a a') :
      Rearranged (.unary op a) (.unary op a')
  | binary (op : BinaryOp) {a a' b b' : Expr ν} (h : Rearranged a a') (h' : Rearranged b b') :
      Rearranged (.binary op a b) (.binary op a' b')

/-- The literals and parameters of the expression, each as often as it occurs. -/
def Expr.leaves : Expr ν → Multiset (Expr ν)
  | number v => {number v}
  | param p => {param p}
  | unary _ a => a.leaves
  | binary _ a b => a.leaves + b.leaves

namespace Rearranged

variable {e e' : Expr ν}

/-- Rearranged expressions have the same leaves, each equally often. -/
theorem leaves_eq (h : Rearranged e e') : e.leaves = e'.leaves := by
  induction h with
  | refl e => rfl
  | symm _ ih => exact ih.symm
  | trans _ _ ih ih' => exact ih.trans ih'
  | comm _ a b => exact add_comm a.leaves b.leaves
  | assoc _ a b c => exact add_assoc a.leaves b.leaves c.leaves
  | unary op _ ih => exact ih
  | binary op _ _ ih ih' => rw [Expr.leaves, Expr.leaves, ih, ih']

/-- Rearranged expressions mention the same parameters. -/
theorem contains_eq (h : Rearranged e e') (q : Param.Query) : e.contains q = e'.contains q := by
  induction h with
  | refl e => rfl
  | symm _ ih => exact ih.symm
  | trans _ _ ih ih' => exact ih.trans ih'
  | comm _ a b => exact Bool.or_comm _ _
  | assoc _ a b c => exact Bool.or_assoc _ _ _
  | unary op _ ih => exact ih
  | binary op _ _ ih ih' => rw [Expr.contains, Expr.contains, ih, ih']

end Rearranged

/-! ## 2. Rotations rearrange -/

section Rotations

variable [Arithmetic ν] {e e' : Expr ν} {s : Step} {steps : List Step}

/-- A rotation rearranges the operands of a node. -/
theorem Equation.rearranged (h : Equation s e e') (hs : s.isRotation = true) :
    Rearranged e e' := by
  cases h with
  | rotateRight hop a b c => exact (Rearranged.assoc hop a b c).symm.trans (.comm hop _ c)
  | rotateLeft hop a b c => exact (Rearranged.comm hop _ c).trans (Rearranged.assoc hop c a b).symm
  | _ => exact absurd hs (by simp [Step.isRotation])

theorem Rewrite.rearranged (h : Rewrite s e e') (hs : s.isRotation = true) : Rearranged e e' := by
  induction h with
  | root h => exact h.rearranged hs
  | operand op _ ih => exact ih.unary op
  | lhs op _ b ih => exact ih.binary op (.refl b)
  | rhs op a _ ih => exact (Rearranged.refl a).binary op ih

/-- **Steps that are all rotations rearrange the expression.** -/
theorem Rewrites.rearranged (h : Rewrites e steps e') (hs : Step.changes steps = 0) :
    Rearranged e e' := by
  induction h with
  | refl e => exact .refl e
  | head h _ ih =>
    simp only [Step.changes_cons, Nat.add_eq_zero_iff, ite_eq_left_iff] at hs
    obtain ⟨hrest, hfirst⟩ := hs
    exact (h.rearranged (by simpa using hfirst)).trans (ih hrest)

/-- Without steps nothing is rewritten. -/
theorem Rewrites.eq_of_nil (h : Rewrites e [] e') : e' = e := by
  cases h
  rfl

omit [Arithmetic ν] in
theorem Pass.changed_eq_false_iff {p : Pass ν} :
    p.changed = false ↔ Step.changes p.steps = 0 := by
  rw [← Bool.not_eq_true, p.changed_iff, Nat.pos_iff_ne_zero, not_not]

namespace Expr

theorem rearranged_rotate (e : Expr ν) : Rearranged e e.rotate.1 :=
  e.rewrites_rotate.rearranged e.rotate_changes

/-- A pass that reports no change rearranges the expression. -/
theorem rearranged_simplify (h : e.simplify.changed = false) : Rearranged e e.simplify.expr :=
  e.rewrites_simplify.rearranged (Pass.changed_eq_false_iff.mp h)

end Expr

end Rotations

/-! ## 3. Structurally equal expressions -/

namespace Expr

variable [Arithmetic ν] {a b : Expr ν}

theorem weight_eq_of_beq (h : (a == b) = true) : a.weight = b.weight := by
  refine induction_of_beq (P := fun a b => a.weight = b.weight) (fun _ => rfl) (fun _ => rfl)
    ?_ ?_ ?_ h
  · intro op a a' ha
    simp only [weight, ha]
  · intro op a a' b b' ha hb
    simp only [weight, ha, hb]
  · intro op _ a a' b b' ha hb
    simp only [weight, ha, hb, Nat.add_comm b'.weight]

/-! ## 4. The report is exact -/

/-- **A pass reports a change exactly if it makes one.**  Without a report the result is the
expression up to the groups and the order of the operands of `+` and of `*`, with the same leaves,
and if no step was taken at all, it is the very same tree.  With a report the result is not
structurally equal to the expression, and it has fewer nodes, or equally many and fewer
additions. -/
theorem simplify_changed_exact (e : Expr ν) :
    match e.simplify.changed with
    | false => Rearranged e e.simplify.expr ∧ e.simplify.expr.leaves = e.leaves ∧
        (e.simplify.steps = [] → e.simplify.expr = e)
    | true => (e.simplify.expr == e) = false ∧ (e == e.simplify.expr) = false ∧
        (e.simplify.expr.nodes < e.nodes ∨
          e.simplify.expr.nodes = e.nodes ∧ e.simplify.expr.additions < e.additions) := by
  cases hchanged : e.simplify.changed with
  | false =>
    have hrearranged := rearranged_simplify hchanged
    refine ⟨hrearranged, hrearranged.leaves_eq.symm, fun hsteps => ?_⟩
    have hrewrites := e.rewrites_simplify
    rw [hsteps] at hrewrites
    exact hrewrites.eq_of_nil
  | true =>
    have hlt := simplify_weight_lt hchanged
    refine ⟨?_, ?_, ?_⟩
    · refine Bool.eq_false_iff.mpr fun h => ?_
      exact absurd (weight_eq_of_beq h) (Nat.ne_of_lt hlt)
    · refine Bool.eq_false_iff.mpr fun h => ?_
      exact absurd (weight_eq_of_beq h) (Nat.ne_of_gt hlt)
    · have hnodes := e.rewrites_simplify.nodes_le
      rw [weight_eq, e.weight_eq] at hlt
      omega

end Expr

end SymbolicCalculus
