/-
# What the simplifier does, step by step

Every step of the simplifier stands for an equation that is used from left to right: `Equation` says
which, at the root of an expression.  A `Rewrite` uses the equation of a step at one subterm, and
`Rewrites` uses the equations of several steps one after the other.

A pass is such a sequence, with exactly the steps that it records (`Expr.rewrites_simplify`), and so
is simplification to the end (`Expr.rewrites_simplifyFully`).  What every equation preserves is
therefore preserved by the simplifier, and whoever has the steps can replay them, tree by tree
(`Expr.exists_replay_simplifyFully`).
-/
import Mathlib
import SymbolicCalculus.Simplify.Full

namespace SymbolicCalculus

universe u

variable {ν : Type u} [Arithmetic ν]

open Arithmetic

/-! ## 1. Equations -/

/-- The equation of a step, used from left to right. -/
inductive Equation : Step → Expr ν → Expr ν → Prop where
  | constantFold {e : Expr ν} (h : e.isFoldable = true) :
      Equation .constantFold e (.number e.evalZero)
  | rotateRight {op : BinaryOp} (hop : op.isCommutative = true) (a b c : Expr ν) :
      Equation .rotateRight (.binary op a (.binary op b c)) (.binary op c (.binary op a b))
  | rotateLeft {op : BinaryOp} (hop : op.isCommutative = true) (a b c : Expr ν) :
      Equation .rotateLeft (.binary op (.binary op a b) c) (.binary op (.binary op c a) b)
  | divByOne {a b : Expr ν} (hb : b.isNumber one = true) : Equation .divByOne (.div a b) a
  | zeroDividend {a b : Expr ν} (ha : a.isNumber zero = true) :
      Equation .zeroDividend (.div a b) a
  | divSelf {a b : Expr ν} (h : (a == b) = true) :
      Equation .divSelf (.div a b) (.number one)
  | subZero {a b : Expr ν} (hb : b.isNumber zero = true) : Equation .subZero (.sub a b) a
  | subSelf {a b : Expr ν} (h : (a == b) = true) :
      Equation .subSelf (.sub a b) (.number zero)
  | subNeg (a b : Expr ν) : Equation .subNeg (.sub a (.neg b)) (.add a b)
  | mulOneRight {a b : Expr ν} (hb : b.isNumber one = true) : Equation .mulOne (.mul a b) a
  | mulOneLeft {a b : Expr ν} (ha : a.isNumber one = true) : Equation .mulOne (.mul a b) b
  | mulZeroRight {a b : Expr ν} (hb : b.isNumber zero = true) : Equation .mulZero (.mul a b) b
  | mulZeroLeft {a b : Expr ν} (ha : a.isNumber zero = true) : Equation .mulZero (.mul a b) a
  | mulSelf {a b : Expr ν} (h : (a == b) = true) : Equation .mulSelf (.mul a b) (.sqr b)
  | addZeroRight {a b : Expr ν} (hb : b.isNumber zero = true) : Equation .addZero (.add a b) a
  | addZeroLeft {a b : Expr ν} (ha : a.isNumber zero = true) : Equation .addZero (.add a b) b
  | addSelf {a b : Expr ν} (h : (a == b) = true) :
      Equation .addSelf (.add a b) (.mul b (.number two))
  | addNeg (a b : Expr ν) : Equation .addNeg (.add a (.neg b)) (.sub a b)
  | negAdd (a b : Expr ν) : Equation .negAdd (.add (.neg a) b) (.sub b a)
  | powZero {a b : Expr ν} (hb : b.isNumber zero = true) :
      Equation .powZero (.pow a b) (.number one)
  | powOne {a b : Expr ν} (hb : b.isNumber one = true) : Equation .powOne (.pow a b) a
  | doubleNeg (a : Expr ν) : Equation .doubleNeg (.neg (.neg a)) a

/-! ## 2. Rewriting -/

/-- The equation of a step is used at one subterm. -/
inductive Rewrite (s : Step) : Expr ν → Expr ν → Prop where
  | root {e e' : Expr ν} (h : Equation s e e') : Rewrite s e e'
  | operand (op : UnaryOp) {a a' : Expr ν} (h : Rewrite s a a') :
      Rewrite s (.unary op a) (.unary op a')
  | lhs (op : BinaryOp) {a a' : Expr ν} (h : Rewrite s a a') (b : Expr ν) :
      Rewrite s (.binary op a b) (.binary op a' b)
  | rhs (op : BinaryOp) (a : Expr ν) {b b' : Expr ν} (h : Rewrite s b b') :
      Rewrite s (.binary op a b) (.binary op a b')

/-- The equations of the steps are used in order. -/
inductive Rewrites : Expr ν → List Step → Expr ν → Prop where
  | refl (e : Expr ν) : Rewrites e [] e
  | head {e e' e'' : Expr ν} {s : Step} {steps : List Step} (h : Rewrite s e e')
      (hs : Rewrites e' steps e'') : Rewrites e (s :: steps) e''

namespace Rewrites

variable {e e' e'' a a' b b' : Expr ν} {s : Step} {steps steps' : List Step}

theorem trans (h : Rewrites e steps e') (h' : Rewrites e' steps' e'') :
    Rewrites e (steps ++ steps') e'' := by
  induction h with
  | refl e => exact h'
  | head h _ ih => exact .head h (ih h')

theorem root (h : Equation s e e') : Rewrites e [s] e' := .head (.root h) (.refl e')

theorem operand (op : UnaryOp) (h : Rewrites a steps a') :
    Rewrites (.unary op a) steps (.unary op a') := by
  induction h with
  | refl a => exact .refl _
  | head h _ ih => exact .head (.operand op h) ih

theorem lhs (op : BinaryOp) (h : Rewrites a steps a') (b : Expr ν) :
    Rewrites (.binary op a b) steps (.binary op a' b) := by
  induction h with
  | refl a => exact .refl _
  | head h _ ih => exact .head (.lhs op h b) ih

theorem rhs (op : BinaryOp) (a : Expr ν) (h : Rewrites b steps b') :
    Rewrites (.binary op a b) steps (.binary op a b') := by
  induction h with
  | refl b => exact .refl _
  | head h _ ih => exact .head (.rhs op a h) ih

/-- The operands of a node are rewritten one after the other. -/
theorem binary (op : BinaryOp) (h : Rewrites a steps a') (h' : Rewrites b steps' b') :
    Rewrites (.binary op a b) (steps ++ steps') (.binary op a' b') :=
  (h.lhs op b).trans (h'.rhs op a')

/-- What every equation preserves at every subterm is preserved by a sequence of them. -/
theorem preserves {Inv : Expr ν → Prop} (step : ∀ {s e e'}, Rewrite s e e' → Inv e → Inv e')
    (h : Rewrites e steps e') (he : Inv e) : Inv e' := by
  induction h with
  | refl e => exact he
  | head h _ ih => exact ih (step h he)

end Rewrites

/-! ## 3. Rotations and rules use their equations -/

/-- The expression that is left, before its parts are simplified. -/
def Contractum.expr : Contractum ν → Expr ν
  | done e | again e => e
  | square e => .sqr e
  | double e => .mul e (.number two)
  | sum a b => .add a b
  | difference a b => .sub a b

namespace Expr

omit [Arithmetic ν] in
theorem eq_neg_of_negated? {e a : Expr ν} (h : e.negated? = some a) : e = neg a := by
  unfold negated? at h
  split at h
  · exact congrArg neg (Option.some.inj h)
  · exact absurd h (by simp)

theorem rewrites_rotateRight {op : BinaryOp} (hop : op.isCommutative = true) (a b : Expr ν) :
    Rewrites (binary op a b) (rotateRight op a b).2
      (binary op (rotateRight op a b).1.1 (rotateRight op a b).1.2) := by
  unfold rotateRight
  split
  · next h =>
    rw [eq_binary_of_operandsOf? h]
    exact .root (.rotateRight hop _ _ _)
  · exact .refl _

theorem rewrites_rotateLeft {op : BinaryOp} (hop : op.isCommutative = true) (a b : Expr ν) :
    Rewrites (binary op a b) (rotateLeft op a b).2
      (binary op (rotateLeft op a b).1.1 (rotateLeft op a b).1.2) := by
  unfold rotateLeft
  split
  · next h =>
    rw [eq_binary_of_operandsOf? h]
    exact .root (.rotateLeft hop _ _ _)
  · exact .refl _

/-- A rotation uses the equations that it records. -/
theorem rewrites_rotate (e : Expr ν) : Rewrites e e.rotate.2 e.rotate.1 := by
  unfold rotate
  split
  · next op a b =>
    split
    · next hop => exact (rewrites_rotateRight hop a b).trans (rewrites_rotateLeft hop _ _)
    · exact .refl _
  · exact .refl _

section Rules

variable {a b : Expr ν} {s : Step} {c : Contractum ν}

theorem equation_of_divRule? (h : divRule? a b = some (s, c)) : Equation s (div a b) c.expr := by
  unfold divRule? at h
  repeat' split at h
  all_goals simp only [Option.some.injEq, Prod.mk.injEq, reduceCtorEq] at h
  all_goals obtain ⟨rfl, rfl⟩ := h
  · exact .divByOne ‹_›
  · exact .zeroDividend ‹_›
  · exact .divSelf ‹_›

theorem equation_of_subRule? (h : subRule? a b = some (s, c)) : Equation s (sub a b) c.expr := by
  unfold subRule? at h
  repeat' split at h
  · obtain ⟨rfl, rfl⟩ : .subZero = s ∧ .again a = c := by simpa using h
    exact .subZero ‹_›
  · obtain ⟨rfl, rfl⟩ : .subSelf = s ∧ .done (number zero) = c := by simpa using h
    exact .subSelf ‹_›
  · obtain ⟨b', hb, hrule⟩ := Option.map_eq_some_iff.mp h
    obtain ⟨rfl, rfl⟩ : .subNeg = s ∧ .sum a b' = c := by simpa using hrule
    rw [eq_neg_of_negated? hb]
    exact .subNeg a b'

theorem equation_of_mulRule? (h : mulRule? a b = some (s, c)) : Equation s (mul a b) c.expr := by
  unfold mulRule? at h
  repeat' split at h
  all_goals simp only [Option.some.injEq, Prod.mk.injEq, reduceCtorEq] at h
  all_goals obtain ⟨rfl, rfl⟩ := h
  · exact .mulOneRight ‹_›
  · exact .mulZeroRight ‹_›
  · exact .mulOneLeft ‹_›
  · exact .mulZeroLeft ‹_›
  · exact .mulSelf ‹_›

theorem equation_of_addRule? (h : addRule? a b = some (s, c)) : Equation s (add a b) c.expr := by
  unfold addRule? at h
  repeat' split at h
  all_goals simp only [Option.some.injEq, Prod.mk.injEq, reduceCtorEq] at h
  all_goals obtain ⟨rfl, rfl⟩ := h
  · exact .addZeroRight ‹_›
  · exact .addZeroLeft ‹_›
  · exact .addSelf ‹_›
  · next hb =>
    rw [eq_neg_of_negated? hb]
    exact .addNeg a _
  · next ha =>
    rw [eq_neg_of_negated? ha]
    exact .negAdd _ b

theorem equation_of_powRule? (h : powRule? a b = some (s, c)) : Equation s (pow a b) c.expr := by
  unfold powRule? at h
  repeat' split at h
  all_goals simp only [Option.some.injEq, Prod.mk.injEq, reduceCtorEq] at h
  all_goals obtain ⟨rfl, rfl⟩ := h
  · exact .powZero ‹_›
  · exact .powOne ‹_›

theorem equation_of_negRule? (h : negRule? a = some (s, c)) : Equation s (neg a) c.expr := by
  obtain ⟨a', ha, hrule⟩ := Option.map_eq_some_iff.mp h
  obtain ⟨rfl, rfl⟩ : .doubleNeg = s ∧ .again a' = c := by simpa using hrule
  rw [eq_neg_of_negated? ha]
  exact .doubleNeg a'

/-- **A rule uses the equation of its step.** -/
theorem equation_of_rule? {e : Expr ν} (h : e.rule? = some (s, c)) : Equation s e c.expr := by
  unfold rule? at h
  split at h
  · exact equation_of_addRule? h
  · exact equation_of_subRule? h
  · exact equation_of_mulRule? h
  · exact equation_of_divRule? h
  · exact equation_of_powRule? h
  · exact equation_of_negRule? h
  · exact absurd h (by simp)

end Rules

end Expr

/-! ## 4. Passes are sequences of rewritings -/

/-- The rest of a node is simplified by the steps that it takes, if every lighter expression is. -/
theorem Contractum.rewrites_simplify (c : Contractum ν)
    (ih : ∀ e : Expr ν, e.weight ≤ c.weight → Rewrites e e.simplify.steps e.simplify.expr) :
    Rewrites c.expr c.simplify.steps c.simplify.expr := by
  cases c with
  | done e => exact .refl e
  | again e => exact ih e (Nat.le_refl _)
  | square e => exact (ih e (Nat.le_add_right _ _)).operand (.call .sqr)
  | double e => exact (ih e (Nat.le_add_right _ _)).lhs .mul (.number two)
  | sum a b =>
    have ha := ih a (by simp only [weight]; omega)
    have hb := ih b (by simp only [weight]; omega)
    refine (ha.binary .add hb).trans (ih _ ?_)
    have := a.simplify_weight
    have := b.simplify_weight
    simp only [weight, Expr.weight, if_true]
    omega
  | difference a b =>
    have ha := ih a (by simp only [weight]; omega)
    have hb := ih b (by simp only [weight]; omega)
    refine (ha.binary .sub hb).trans (ih _ ?_)
    have := a.simplify_weight
    have := b.simplify_weight
    simp only [weight, Expr.weight, reduceCtorEq, if_false]
    omega

namespace Expr

/-- The operands of a node are simplified by the steps that they take, if every lighter expression
is. -/
theorem rewrites_simplifyOperands (e : Expr ν)
    (ih : ∀ e' : Expr ν, e'.weight < e.weight → Rewrites e' e'.simplify.steps e'.simplify.expr) :
    Rewrites e e.simplifyOperands.steps e.simplifyOperands.expr := by
  cases e with
  | number v => exact .refl _
  | param p => exact .refl _
  | unary op a => exact (ih a (by simp only [weight]; omega)).operand op
  | binary op a b =>
    have := weight_binary_ge op a b
    exact (ih a (by omega)).binary op (ih b (by omega))

/-- **A pass uses exactly the equations of its steps**, in order. -/
theorem rewrites_simplify (e : Expr ν) : Rewrites e e.simplify.steps e.simplify.expr := by
  cases hf : e.isFoldable with
  | true =>
    rw [simplify_of_isFoldable hf]
    exact .root (.constantFold hf)
  | false =>
    have hw := e.rotate_weight
    cases hr : e.rotate.1.rule? with
    | some rule =>
      obtain ⟨s, c⟩ := rule
      have hc := rule?_weight hr
      rw [simplify_of_rule? hf hr]
      refine e.rewrites_rotate.trans (.head (.root (equation_of_rule? hr)) ?_)
      exact c.rewrites_simplify fun e' he' =>
        have : e'.weight < e.weight := by omega
        e'.rewrites_simplify
    | none =>
      rw [simplify_of_rule?_eq_none hf hr]
      refine e.rewrites_rotate.trans (e.rotate.1.rewrites_simplifyOperands fun e' he' => ?_)
      have : e'.weight < e.weight := by omega
      exact e'.rewrites_simplify
termination_by e.weight

theorem rewrites_simplifyUntilUnchanged (e : Expr ν) :
    Rewrites e e.simplifyUntilUnchanged.steps e.simplifyUntilUnchanged.expr := by
  induction e using simplifyUntilUnchanged.induct with
  | case1 e h ih =>
    rw [simplifyUntilUnchanged, dif_pos h]
    exact e.rewrites_simplify.trans ih
  | case2 e h =>
    rw [simplifyUntilUnchanged, dif_neg h]
    exact e.rewrites_simplify

theorem rewrites_simplifyTimes (n : Nat) (e : Expr ν) :
    Rewrites e (simplifyTimes n e).steps (simplifyTimes n e).expr := by
  induction n generalizing e with
  | zero => exact .refl e
  | succ n ih => exact e.rewrites_simplify.trans (ih _)

/-- **Simplification to the end uses exactly the equations of its steps**, in order. -/
theorem rewrites_simplifyFully (extra : Nat) (e : Expr ν) :
    Rewrites e (simplifyFully extra e).steps (simplifyFully extra e).expr :=
  e.rewrites_simplifyUntilUnchanged.trans (rewrites_simplifyTimes extra _)

end Expr

/-! ## 5. Replays -/

/-- The trees of a replay: the first is the expression before the steps, the last is the one behind
them, and every step uses its equation at one subterm of a tree and leaves the next tree. -/
structure Replay (e : Expr ν) (steps : List Step) (e' : Expr ν)
    (tree : Fin (steps.length + 1) → Expr ν) : Prop where
  first : tree 0 = e
  last : tree (Fin.last steps.length) = e'
  rewrite : ∀ i : Fin steps.length, Rewrite (steps.get i) (tree i.castSucc) (tree i.succ)

/-- Equations that are used in order can be replayed. -/
theorem Rewrites.exists_replay {e e' : Expr ν} {steps : List Step} (h : Rewrites e steps e') :
    ∃ tree, Replay e steps e' tree := by
  induction h with
  | refl e => exact ⟨fun _ => e, rfl, rfl, fun i => i.elim0⟩
  | @head e e' e'' s steps h _ ih =>
    obtain ⟨tree, htree⟩ := ih
    refine ⟨Fin.cons e tree, rfl, htree.last, ?_⟩
    intro i
    cases i using Fin.cases with
    | zero =>
      have hfirst : tree 0 = e' := htree.first
      rw [← hfirst] at h
      exact h
    | succ i => exact htree.rewrite i

/-- **The steps of a simplification to the end are a replayable trace.**  There are trees, one more
than steps, that lead from the expression to the result, and each step uses its equation at exactly
one subterm of a tree and leaves the next one: no step is missing, and none is made up. -/
theorem Expr.exists_replay_simplifyFully (extra : Nat) (e : Expr ν) :
    ∃ tree, Replay e (simplifyFully extra e).steps (simplifyFully extra e).expr tree :=
  (rewrites_simplifyFully extra e).exists_replay

end SymbolicCalculus
