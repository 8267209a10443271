/-
# The literals of a chain

A chain is built from literals and parameters with `+` alone, or with `*` alone (`Expr.IsChain`).
Passes rotate it, and literals that come to stand side by side are folded into one.

A chain of distinct parameters stays one through all passes, and no pass adds a literal
(`Expr.IsChain.leavesChain_simplify`).  In the cycle that the extra passes end in, either at most
one literal is left, or literals never stand side by side (`Expr.IsChain.simplifyFully_literals`).
The rotations bring any two of three leaves together, so that short chains end with at most one
literal.  They do not bring any two of four leaves together (`Expr.apart_literals`).
-/
import SymbolicCalculus.Binary64
import SymbolicCalculus.Proofs.Simplify.Cycle

namespace SymbolicCalculus

universe u

variable {ν : Type u}

open Arithmetic

/-! ## 1. Chains -/

namespace Expr

/-- The expression is built from literals and parameters with the operator alone. -/
inductive IsChain (op : BinaryOp) : Expr ν → Prop where
  | number (v : ν) : IsChain op (.number v)
  | param (p : Param) : IsChain op (.param p)
  | node {a b : Expr ν} (ha : IsChain op a) (hb : IsChain op b) : IsChain op (.binary op a b)

/-- The parameter that the expression is. -/
def asParam? : Expr ν → Option Param
  | param p => some p
  | _ => none

/-- The parameters of the expression, each as often as it occurs. -/
def params (e : Expr ν) : Multiset Param := e.leaves.filterMap asParam?

/-- The number of literals in the expression. -/
def literalCount (e : Expr ν) : Nat := e.leaves.countP fun a => a.isLiteral = true

section Leaves

variable {op : BinaryOp} {a b e : Expr ν}

@[simp] theorem params_number (v : ν) : (number v).params = 0 := rfl

@[simp] theorem params_param (p : Param) : (param p : Expr ν).params = {p} := rfl

@[simp] theorem params_unary (op : UnaryOp) (a : Expr ν) : (unary op a).params = a.params := rfl

@[simp] theorem params_binary (op : BinaryOp) (a b : Expr ν) :
    (binary op a b).params = a.params + b.params :=
  Multiset.filterMap_add asParam? a.leaves b.leaves

@[simp] theorem literalCount_binary (op : BinaryOp) (a b : Expr ν) :
    (binary op a b).literalCount = a.literalCount + b.literalCount :=
  Multiset.countP_add _ a.leaves b.leaves

theorem one_le_card_leaves (e : Expr ν) : 1 ≤ e.leaves.card := by
  induction e with
  | number v => exact Nat.le_refl 1
  | param p => exact Nat.le_refl 1
  | unary op a ih => exact ih
  | binary op a b iha _ =>
    rw [leaves, Multiset.card_add]
    omega

/-- A leaf is a literal or a parameter. -/
theorem card_leaves (e : Expr ν) : e.leaves.card = e.params.card + e.literalCount := by
  induction e with
  | number v => rfl
  | param p => rfl
  | unary op a ih => exact ih
  | binary op a b iha ihb =>
    rw [leaves, Multiset.card_add, iha, ihb, params_binary, literalCount_binary, Multiset.card_add]
    omega

theorem contains_all_eq_false_iff : e.contains .all = false ↔ e.params = 0 := by
  induction e with
  | number v => simp [contains]
  | param p => simp [contains, Param.Query.selects]
  | unary op a ih => simpa [contains] using ih
  | binary op a b iha ihb => simp [contains, iha, ihb]

theorem isChain_binary_iff {op' : BinaryOp} :
    (binary op' a b).IsChain op ↔ op' = op ∧ a.IsChain op ∧ b.IsChain op := by
  constructor
  · rintro (_ | _ | ⟨ha, hb⟩)
    exact ⟨rfl, ha, hb⟩
  · rintro ⟨rfl, ha, hb⟩
    exact .node ha hb

theorem not_isChain_unary {op' : UnaryOp} : ¬(unary op' a).IsChain op := by
  intro h
  cases h

end Leaves

end Expr

namespace Rearranged

variable {op : BinaryOp} {e e' : Expr ν}

theorem isChain_iff (h : Rearranged e e') : e.IsChain op ↔ e'.IsChain op := by
  induction h with
  | refl e => exact Iff.rfl
  | symm _ ih => exact ih.symm
  | trans _ _ ih ih' => exact ih.trans ih'
  | comm _ a b => simp only [Expr.isChain_binary_iff, and_comm]
  | assoc _ a b c =>
    simp only [Expr.isChain_binary_iff]
    tauto
  | unary op' _ _ => exact iff_of_false Expr.not_isChain_unary Expr.not_isChain_unary
  | binary op' _ _ ih ih' => rw [Expr.isChain_binary_iff, Expr.isChain_binary_iff, ih, ih']

theorem params_eq (h : Rearranged e e') : e.params = e'.params := by
  rw [Expr.params, Expr.params, h.leaves_eq]

theorem literalCount_eq (h : Rearranged e e') : e.literalCount = e'.literalCount := by
  rw [Expr.literalCount, Expr.literalCount, h.leaves_eq]

end Rearranged

/-! ## 2. A pass over a chain -/

namespace Expr

/-- The second expression is a chain with no other parameters and no more literals than the
first. -/
structure LeavesChain (op : BinaryOp) (e e' : Expr ν) : Prop where
  isChain : e'.IsChain op
  params_le : e'.params ≤ e.params
  literalCount_le : e'.literalCount ≤ e.literalCount

namespace LeavesChain

variable {op : BinaryOp} {a a' b b' e e' e'' : Expr ν}

theorem refl (he : e.IsChain op) : LeavesChain op e e := ⟨he, le_rfl, le_rfl⟩

theorem trans (h : LeavesChain op e e') (h' : LeavesChain op e' e'') : LeavesChain op e e'' :=
  ⟨h'.isChain, h'.params_le.trans h.params_le, h'.literalCount_le.trans h.literalCount_le⟩

theorem of_rearranged (h : Rearranged e e') (he : e.IsChain op) : LeavesChain op e e' :=
  ⟨h.isChain_iff.mp he, h.params_eq.ge, h.literalCount_eq.ge⟩

theorem lhs (h : (binary op a b).IsChain op) : LeavesChain op (binary op a b) a := by
  obtain ⟨-, ha, -⟩ := isChain_binary_iff.mp h
  exact ⟨ha, by simp, by simp⟩

theorem rhs (h : (binary op a b).IsChain op) : LeavesChain op (binary op a b) b := by
  obtain ⟨-, -, hb⟩ := isChain_binary_iff.mp h
  exact ⟨hb, by simp, by simp⟩

theorem binary (h : LeavesChain op a a') (h' : LeavesChain op b b') :
    LeavesChain op (.binary op a b) (.binary op a' b') where
  isChain := .node h.isChain h'.isChain
  params_le := by
    rw [params_binary, params_binary]
    exact add_le_add h.params_le h'.params_le
  literalCount_le := by
    rw [literalCount_binary, literalCount_binary]
    exact add_le_add h.literalCount_le h'.literalCount_le

end LeavesChain

section Pass

variable [Arithmetic ν] {op : BinaryOp} {a b e : Expr ν}

omit [Arithmetic ν] in
/-- An expression without parameters has a literal. -/
theorem one_le_literalCount (hparams : e.params = 0) : 1 ≤ e.literalCount := by
  have hcard := e.card_leaves
  rw [hparams, Multiset.card_zero, Nat.zero_add] at hcard
  exact hcard ▸ e.one_le_card_leaves

/-- Structurally equal expressions have the same parameters. -/
theorem params_eq_of_beq (h : (a == b) = true) : a.params = b.params := by
  refine induction_of_beq (P := fun a b => a.params = b.params) (fun _ => rfl) (fun _ => rfl)
    ?_ ?_ ?_ h
  · intro op a a' ha
    rw [params_unary, params_unary, ha]
  · intro op a a' b b' ha hb
    rw [params_binary, params_binary, ha, hb]
  · intro op _ a a' b b' ha hb
    rw [params_binary, params_binary, ha, hb, add_comm]

/-- The operands of a node whose parameters are distinct differ, unless it mentions none. -/
theorem beq_eq_false_of_nodup (hparams : (binary op a b).params.Nodup)
    (hfold : (binary op a b).isFoldable = false) : (a == b) = false := by
  refine Bool.eq_false_iff.mpr fun heq => ?_
  rw [params_binary, params_eq_of_beq heq, Multiset.nodup_add, disjoint_self] at hparams
  obtain ⟨-, -, hnone⟩ := hparams
  have hcontains : (binary op a b).contains .all = false := by
    rw [contains_all_eq_false_iff, params_binary, params_eq_of_beq heq, hnone]
    rfl
  exact absurd hfold (by simp [isFoldable, isLiteral, hcontains])

omit [Arithmetic ν] in
theorem IsChain.negated?_eq_none (he : e.IsChain op) : e.negated? = none := by
  cases he <;> rfl

/-- **What a rule makes of a chain** of distinct parameters: it drops an operand that is a
literal, or takes one for the whole. -/
theorem IsChain.exists_again_of_rule? {s : Step} {c : Contractum ν} (he : e.IsChain op)
    (hop : op = .add ∨ op = .mul) (hparams : e.params.Nodup) (hfold : e.isFoldable = false)
    (hrule : e.rule? = some (s, c)) : ∃ a, c = .again a ∧ LeavesChain op e a := by
  cases he with
  | number v => exact absurd hrule (by simp [rule?])
  | param p => exact absurd hrule (by simp [rule?])
  | @node a b ha hb =>
    have hne := beq_eq_false_of_nodup hparams hfold
    have hlhs := LeavesChain.lhs (ha.node hb)
    have hrhs := LeavesChain.rhs (ha.node hb)
    rcases hop with rfl | rfl
    · simp only [rule?, addRule?, hne, ha.negated?_eq_none, hb.negated?_eq_none,
        Bool.false_eq_true, if_false] at hrule
      split_ifs at hrule
      · cases hrule
        exact ⟨a, rfl, hlhs⟩
      · cases hrule
        exact ⟨b, rfl, hrhs⟩
    · simp only [rule?, mulRule?, hne, Bool.false_eq_true, if_false] at hrule
      split_ifs at hrule
      · cases hrule
        exact ⟨a, rfl, hlhs⟩
      · cases hrule
        exact ⟨b, rfl, hrhs⟩
      · cases hrule
        exact ⟨b, rfl, hrhs⟩
      · cases hrule
        exact ⟨a, rfl, hlhs⟩

/-- **A pass over a chain of distinct parameters leaves a chain**, with no other parameters and no
more literals. -/
theorem IsChain.leavesChain_simplify {op : BinaryOp} {e : Expr ν} (he : e.IsChain op)
    (hop : op = .add ∨ op = .mul) (hparams : e.params.Nodup) :
    LeavesChain op e e.simplify.expr := by
  cases hfold : e.isFoldable with
  | true =>
    rw [simplify_of_isFoldable hfold]
    have hnone : e.params = 0 := by
      rw [isFoldable, Bool.and_eq_true, Bool.not_eq_true', Bool.not_eq_true'] at hfold
      exact contains_all_eq_false_iff.mp hfold.2
    exact ⟨.number _, Multiset.zero_le _, one_le_literalCount hnone⟩
  | false =>
    have hw := e.rotate_weight
    have hrotate := LeavesChain.of_rearranged e.rearranged_rotate he
    have hparams' := Multiset.nodup_of_le hrotate.params_le hparams
    cases hrule : e.rotate.1.rule? with
    | some rule =>
      obtain ⟨s, c⟩ := rule
      rw [simplify_of_rule? hfold hrule]
      obtain ⟨a, rfl, ha⟩ := hrotate.isChain.exists_again_of_rule? hop hparams'
        (e.isFoldable_rotate.trans hfold) hrule
      have hlt : a.weight < e.weight := Nat.lt_of_lt_of_eq (rule?_weight hrule) hw
      have hpass := ha.isChain.leavesChain_simplify hop (Multiset.nodup_of_le ha.params_le hparams')
      exact (hrotate.trans ha).trans hpass
    | none =>
      rw [simplify_of_rule?_eq_none hfold hrule]
      refine hrotate.trans ?_
      cases hf : e.rotate.1 with
      | number v => exact .refl (.number v)
      | param p => exact .refl (.param p)
      | unary op' a => exact absurd (hf ▸ hrotate.isChain) not_isChain_unary
      | binary op' a b =>
        rw [hf] at hw hrotate hparams'
        obtain ⟨rfl, ha, hb⟩ := isChain_binary_iff.mp hrotate.isChain
        rw [params_binary, Multiset.nodup_add] at hparams'
        have hlt : a.weight < e.weight := Nat.lt_of_lt_of_eq (weight_lhs_lt op' a b) hw
        have hlt' : b.weight < e.weight := Nat.lt_of_lt_of_eq (weight_rhs_lt op' a b) hw
        exact (ha.leavesChain_simplify hop hparams'.1).binary
          (hb.leavesChain_simplify hop hparams'.2.1)
termination_by e.weight

theorem IsChain.leavesChain_simplifyTimes (he : e.IsChain op) (hop : op = .add ∨ op = .mul)
    (hparams : e.params.Nodup) (n : Nat) : LeavesChain op e (simplifyTimes n e).expr := by
  induction n with
  | zero => exact .refl he
  | succ n ih =>
    rw [simplifyTimes_expr_succ]
    exact ih.trans (ih.isChain.leavesChain_simplify hop (Multiset.nodup_of_le ih.params_le hparams))

theorem IsChain.leavesChain_simplifyFully (he : e.IsChain op) (hop : op = .add ∨ op = .mul)
    (hparams : e.params.Nodup) (k : Nat) : LeavesChain op e (simplifyFully k e).expr := by
  obtain ⟨n, -, hexpr⟩ := e.exists_simplifyFully_expr
  rw [hexpr]
  exact he.leavesChain_simplifyTimes hop hparams _

end Pass

/-! ## 3. Chains of three leaves -/

/-- The expression is a literal or a parameter. -/
def IsLeaf : Expr ν → Prop
  | number _ | param _ => True
  | unary _ _ | binary _ _ _ => False

/-- Two literals meet in the expression: they are the operands of one node. -/
def LiteralsMeet (e : Expr ν) : Prop :=
  ∃ op v w, Occurs (binary op (number v) (number w)) e

section Leaves

variable [Arithmetic ν] {op : BinaryOp} {a b c e : Expr ν}

theorem IsLeaf.simplify_expr (h : a.IsLeaf) : a.simplify.expr = a := by
  cases a with
  | number v => rw [simplify_number]
  | param p => rw [simplify_param]
  | unary op a => exact h.elim
  | binary op a b => exact h.elim

omit [Arithmetic ν] in
theorem IsLeaf.literalCount_le_one (h : a.IsLeaf) : a.literalCount ≤ 1 := by
  cases a with
  | number v => exact Nat.le_refl 1
  | param p => exact Nat.zero_le 1
  | unary op a => exact h.elim
  | binary op a b => exact h.elim

omit [Arithmetic ν] in
theorem IsLeaf.operandsOf?_eq_none (h : a.IsLeaf) : a.operandsOf? op = none := by
  cases a with
  | number v => rfl
  | param p => rfl
  | unary op a => exact h.elim
  | binary op a b => exact h.elim

omit [Arithmetic ν] in
theorem IsChain.isLeaf_or_node (he : e.IsChain op) :
    e.IsLeaf ∨ ∃ a b, e = binary op a b ∧ a.IsChain op ∧ b.IsChain op := by
  cases he with
  | number v => exact .inl trivial
  | param p => exact .inl trivial
  | @node a b ha hb => exact .inr ⟨a, b, rfl, ha, hb⟩

omit [Arithmetic ν] in
theorem IsChain.isLeaf (he : e.IsChain op) (hcard : e.leaves.card ≤ 1) : e.IsLeaf := by
  rcases he.isLeaf_or_node with hleaf | ⟨a, b, rfl, -, -⟩
  · exact hleaf
  · have := a.one_le_card_leaves
    have := b.one_le_card_leaves
    rw [leaves, Multiset.card_add] at hcard
    omega

/-- Literals do not meet in a normal expression. -/
theorem IsNormal.not_literalsMeet (h : e.IsNormal) : ¬e.LiteralsMeet := by
  rintro ⟨op, v, w, hocc⟩
  exact h _ hocc (.value rfl rfl)

/-- A normal expression without parameters is a literal. -/
theorem IsNormal.isLeaf (h : e.IsNormal) (hparams : e.params = 0) : e.IsLeaf := by
  have hnot := h e .root
  cases e with
  | number v => trivial
  | param p => trivial
  | unary op a => exact hnot (.value rfl (contains_all_eq_false_iff.mpr hparams))
  | binary op a b => exact hnot (.value rfl (contains_all_eq_false_iff.mpr hparams))

/-- Of two leaves that are the operands of one node, one is no literal unless literals meet. -/
theorem IsNormal.literalCount_le_one (h : e.IsNormal) (ha : a.IsLeaf) (hb : b.IsLeaf)
    (hocc : Occurs (.binary op a b) e) : a.literalCount + b.literalCount ≤ 1 := by
  cases a with
  | number v =>
    cases b with
    | number w => exact absurd ⟨op, v, w, hocc⟩ h.not_literalsMeet
    | param q => exact Nat.le_refl 1
    | _ => exact hb.elim
  | param p =>
    cases b with
    | number w => exact Nat.le_refl 1
    | param q => exact Nat.zero_le 1
    | _ => exact hb.elim
  | _ => exact ha.elim

omit [Arithmetic ν] in
@[simp] theorem operandsOf?_binary (op : BinaryOp) (a b : Expr ν) :
    (binary op a b).operandsOf? op = some (a, b) := if_pos rfl

theorem simplify_pair (ha : a.IsLeaf) (hb : b.IsLeaf)
    (h : (binary op a b).simplify.changed = false) :
    (binary op a b).simplify.expr = binary op a b := by
  have hrotate : (binary op a b).rotate.1 = binary op a b := by
    simp [rotate, rotateRight, rotateLeft, ha.operandsOf?_eq_none, hb.operandsOf?_eq_none]
  obtain ⟨-, -, -, hexpr⟩ := of_unchanged h
  rw [hexpr, hrotate, simplifyOperands, ha.simplify_expr, hb.simplify_expr]

/-- Three leaves that are grouped to the left take turns. -/
theorem simplify_left (hop : op.isCommutative = true) (ha : a.IsLeaf) (hb : b.IsLeaf)
    (hc : c.IsLeaf) (h : (binary op (binary op a b) c).simplify.changed = false) :
    (binary op (binary op a b) c).simplify.expr = binary op (binary op c a) b := by
  have hrotate : (binary op (binary op a b) c).rotate.1 = binary op (binary op c a) b := by
    simp [rotate, rotateRight, rotateLeft, hop, hc.operandsOf?_eq_none]
  obtain ⟨-, -, hoperands, hexpr⟩ := of_unchanged h
  rw [hrotate] at hoperands hexpr
  have hpair := hoperands (binary op c a) (List.mem_cons_self ..)
  rw [hexpr, simplifyOperands, hb.simplify_expr, simplify_pair hc ha hpair]

/-- Three leaves that are grouped to the right take turns. -/
theorem simplify_right (hop : op.isCommutative = true) (ha : a.IsLeaf) (hb : b.IsLeaf)
    (hc : c.IsLeaf) (h : (binary op a (binary op b c)).simplify.changed = false) :
    (binary op a (binary op b c)).simplify.expr = binary op c (binary op a b) := by
  have hrotate : (binary op a (binary op b c)).rotate.1 = binary op c (binary op a b) := by
    simp [rotate, rotateRight, rotateLeft, hop, hc.operandsOf?_eq_none]
  obtain ⟨-, -, hoperands, hexpr⟩ := of_unchanged h
  rw [hrotate] at hoperands hexpr
  have hpair := hoperands (binary op a b) (List.mem_pair.mpr (.inr rfl))
  rw [hexpr, simplifyOperands, hc.simplify_expr, simplify_pair ha hb hpair]

/-- **The rotations bring any two of three leaves together**: if two passes leave settled
expressions, at most one of the leaves is a literal. -/
theorem IsChain.literalCount_le_one {t : Expr ν} (ht : t.IsChain op) (hop : op.isCommutative = true)
    (hcard : t.leaves.card ≤ 3) (h : t.IsSettled) (h' : t.simplify.expr.IsSettled)
    (h'' : t.simplify.expr.simplify.expr.IsSettled) : t.literalCount ≤ 1 := by
  rcases ht.isLeaf_or_node with hleaf | ⟨a, b, rfl, ha, hb⟩
  · exact hleaf.literalCount_le_one
  rw [leaves, Multiset.card_add] at hcard
  have hcarda := a.one_le_card_leaves
  have hcardb := b.one_le_card_leaves
  rcases ha.isLeaf_or_node with haleaf | ⟨a₁, a₂, rfl, ha₁, ha₂⟩
  · rcases hb.isLeaf_or_node with hbleaf | ⟨b₁, b₂, rfl, hb₁, hb₂⟩
    · exact (literalCount_binary op a b).trans_le
        (h.isNormal.literalCount_le_one haleaf hbleaf .root)
    · -- the pairs are `b₁, b₂`, then `a, b₁`, and then `b₂, a`
      rw [leaves, Multiset.card_add] at hcard
      have hcardb₁ := b₁.one_le_card_leaves
      have hcardb₂ := b₂.one_le_card_leaves
      replace hb₁ := hb₁.isLeaf (by omega)
      replace hb₂ := hb₂.isLeaf (by omega)
      rw [simplify_right hop haleaf hb₁ hb₂ h.unchanged] at h' h''
      rw [simplify_right hop hb₂ haleaf hb₁ h'.unchanged] at h''
      have hpair := h.isNormal.literalCount_le_one hb₁ hb₂ (.rhs _ _ .root)
      have hpair' := h'.isNormal.literalCount_le_one haleaf hb₁ (.rhs _ _ .root)
      have hpair'' := h''.isNormal.literalCount_le_one hb₂ haleaf (.rhs _ _ .root)
      rw [literalCount_binary, literalCount_binary]
      omega
  · -- the pairs are `a₁, a₂`, then `b, a₁`, and then `a₂, b`
    rw [leaves, Multiset.card_add] at hcard
    have hcarda₁ := a₁.one_le_card_leaves
    have hcarda₂ := a₂.one_le_card_leaves
    replace ha₁ := ha₁.isLeaf (by omega)
    replace ha₂ := ha₂.isLeaf (by omega)
    replace hb := hb.isLeaf (by omega)
    rw [simplify_left hop ha₁ ha₂ hb h.unchanged] at h' h''
    rw [simplify_left hop hb ha₁ ha₂ h'.unchanged] at h''
    have hpair := h.isNormal.literalCount_le_one ha₁ ha₂ (.lhs _ .root _)
    have hpair' := h'.isNormal.literalCount_le_one hb ha₁ (.lhs _ .root _)
    have hpair'' := h''.isNormal.literalCount_le_one ha₂ hb (.lhs _ .root _)
    rw [literalCount_binary, literalCount_binary]
    omega

end Leaves

/-! ## 4. What becomes of the literals of a chain -/

section Literals

variable [Arithmetic ν] {op : BinaryOp} {e : Expr ν}

/-- **A chain of distinct parameters stays one, and the extra passes end with at most one literal or
in a cycle in which literals never meet.**  No pass adds a literal.  In the cycle nothing is folded,
and after `d` passes the same tree is back.  A chain of at most three leaves, or without parameters,
ends with at most one literal. -/
theorem IsChain.simplifyFully_literals (he : e.IsChain op) (hop : op = .add ∨ op = .mul)
    (hparams : e.params.Nodup) :
    (∀ k, LeavesChain op e (simplifyFully k e).expr ∧
      (simplifyFully (k + 1) e).expr.literalCount ≤ (simplifyFully k e).expr.literalCount) ∧
    (∃ k₀, (∀ k ≥ k₀, (simplifyFully k e).expr.literalCount ≤ 1) ∨
      ∃ d > 0, ∀ k ≥ k₀, 2 ≤ (simplifyFully k e).expr.literalCount ∧
        ¬(simplifyFully k e).expr.LiteralsMeet ∧
        (simplifyFully k e).expr.simplify.changed = false ∧
        (simplifyFully (k + d) e).expr = (simplifyFully k e).expr) ∧
    (e.leaves.card ≤ 3 ∨ e.params = 0 →
      ∃ k₀, ∀ k ≥ k₀, (simplifyFully k e).expr.literalCount ≤ 1) := by
  have hchain := he.leavesChain_simplifyFully hop hparams
  obtain ⟨k₀, d, hd, hcycle⟩ := e.exists_simplifyFully_cycle
  refine ⟨fun k => ⟨hchain k, ?_⟩, ⟨k₀, ?_⟩, fun hshort => ⟨k₀, fun k hk => ?_⟩⟩
  · rw [simplifyFully_expr_succ]
    have hparams' := Multiset.nodup_of_le (hchain k).params_le hparams
    exact ((hchain k).isChain.leavesChain_simplify hop hparams').literalCount_le
  · -- in the cycle the number of literals stays
    have hcount (k : Nat) (hk : k ≥ k₀) :
        (simplifyFully k e).expr.literalCount = (simplifyFully k₀ e).expr.literalCount := by
      induction k, hk using Nat.le_induction with
      | base => rfl
      | succ k hk ih =>
        rw [simplifyFully_expr_succ, ← ih]
        exact (rearranged_simplify (hcycle k hk).1.unchanged).literalCount_eq.symm
    by_cases hone : (simplifyFully k₀ e).expr.literalCount ≤ 1
    · exact .inl fun k hk => (hcount k hk).trans_le hone
    · refine .inr ⟨d, hd, fun k hk => ?_⟩
      obtain ⟨hsettled, hback⟩ := hcycle k hk
      rw [hcount k hk]
      exact ⟨Nat.lt_of_not_le hone, hsettled.isNormal.not_literalsMeet, hsettled.unchanged, hback⟩
  · obtain ⟨hsettled, -⟩ := hcycle k hk
    rcases hshort with hcard | hnone
    · have hop' : op.isCommutative = true := by rcases hop with rfl | rfl <;> rfl
      obtain ⟨hsettled', -⟩ := hcycle (k + 1) (by omega)
      obtain ⟨hsettled'', -⟩ := hcycle (k + 1 + 1) (by omega)
      rw [simplifyFully_expr_succ] at hsettled' hsettled''
      rw [simplifyFully_expr_succ] at hsettled''
      refine (hchain k).isChain.literalCount_le_one hop' ?_ hsettled hsettled' hsettled''
      have hparams' := Multiset.card_le_card (hchain k).params_le
      have hcount := (hchain k).literalCount_le
      rw [card_leaves] at hcard ⊢
      omega
    · have hnone' : (simplifyFully k e).expr.params = 0 :=
        Multiset.le_zero.mp ((hchain k).params_le.trans hnone.le)
      exact (hsettled.isNormal.isLeaf hnone').literalCount_le_one

/-- The literals of `1+(x+2)` meet. -/
theorem simplifyFully_literals_three :
    let e : Expr Float := add (number 1) (add (param ⟨23⟩) (number 2))
    e.IsChain .add ∧ e.params.Nodup ∧
      ∃ k₀, ∀ k ≥ k₀, (simplifyFully k e).expr.literalCount ≤ 1 := by
  intro e
  have he : e.IsChain .add := .node (.number 1) (.node (.param ⟨23⟩) (.number 2))
  have hparams : e.params.Nodup := Multiset.nodup_singleton _
  obtain ⟨-, -, hshort⟩ := he.simplifyFully_literals (.inl rfl) hparams
  exact ⟨he, hparams, hshort (.inl (by decide))⟩

end Literals

/-! ## 5. Literals that never meet -/

section Apart

/-- The sum of two literals and two parameters `v+(p+(q+w))`. -/
def apart (v w : ν) (p q : Param) : Expr ν :=
  add (number v) (add (param p) (add (param q) (number w)))

variable [Arithmetic ν]

/-- Five passes over `v+(p+(q+w))` leave it as it is.  On the way stand `((q+v)+p)+w`,
`(v+(w+q))+p`, `(p+v)+(w+q)` and `q+((w+p)+v)`. -/
theorem simplifyTimes_apart {v w : ν} {p q : Param} (hv : (number v).isNumber zero = false)
    (hw : (number w).isNumber zero = false) (hpq : p ≠ q) :
    (simplifyTimes 5 (apart v w p q)).expr = apart v w p q := by
  have hbeq (a b : Expr ν) : (a == b) = a.beq b := rfl
  rw [isNumber] at hv hw
  simp [apart, simplifyTimes, simplify_of_rule?_eq_none, simplifyOperands, isFoldable, isLiteral,
    contains, Param.Query.selects, rotate, rotateRight, rotateLeft, BinaryOp.isCommutative,
    operandsOf?, rule?, addRule?, isNumber, hbeq, Expr.beq, negated?, hv, hw, hpq]

/-- **Not all literals of a chain meet**: `2+(x+(y+3))` keeps both of its literals in some result,
however many extra passes there are. -/
theorem apart_literals :
    let e : Expr Float := apart 2 3 ⟨23⟩ ⟨24⟩
    e.IsChain .add ∧ e.params.Nodup ∧
      ¬∃ k₀, ∀ k ≥ k₀, (simplifyFully k e).expr.literalCount ≤ 1 := by
  intro e
  refine ⟨.node (.number 2) (.node (.param _) (.node (.param _) (.number 3))), by decide, ?_⟩
  rintro ⟨k₀, hone⟩
  have hfive : (simplifyTimes 5 e).expr = e :=
    simplifyTimes_apart (by decide +kernel) (by decide +kernel) (by decide)
  have hback (m : Nat) : (simplifyTimes (5 * m) e).expr = e := by
    induction m with
    | zero => rfl
    | succ m ih => rw [Nat.mul_succ, simplifyTimes_expr_add, ih, hfive]
  obtain ⟨n, -, hexpr⟩ := e.exists_simplifyFully_expr
  have h := hone (5 * (n + 1 + k₀) - (n + 1)) (by omega)
  rw [hexpr, Nat.add_sub_cancel' (by omega), hback] at h
  exact absurd h (by decide)

end Apart

end Expr

end SymbolicCalculus
