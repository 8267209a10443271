/-
# The work of the simplifier

A pass over an expression is made of the passes over other expressions, its calls
(`Expr.simplifyBy_eq`), and the recursion ends because every call is on a lighter expression
(`Expr.wellFounded_calls`).  The calls are not all on subterms: some rules simplify the sum or the
difference of operands that have been simplified before, and what bounds those is the pass itself.

The weight, twice the number of nodes plus the number of additions (`Expr.weight_eq`), is a budget:
every step but a rotation spends some of it, in a pass (`Expr.simplify_weight`) and in any number of
passes (`Expr.simplifyTimes_weight`).  So passes that change something come to an end, and
simplification to the end is a number of passes that the weight bounds
(`Expr.exists_settlesAfter`).  No step adds a node (`Equation.nodes_le`).
-/
import SymbolicCalculus.Proofs.Simplify.Trace

namespace SymbolicCalculus

universe u

variable {ν : Type u}

/-! ## 1. Sizes -/

namespace Expr

/-- The number of additions in the expression. -/
def additions : Expr ν → Nat
  | number _ | param _ => 0
  | unary _ a => a.additions
  | binary op a b => a.additions + b.additions + if op = .add then 1 else 0

/-- The weight is twice the number of nodes, plus the number of additions. -/
theorem weight_eq (e : Expr ν) : e.weight = 2 * e.nodes + e.additions := by
  induction e with
  | number v => rfl
  | param p => rfl
  | unary op a ih =>
    simp only [weight, nodes, additions, ih]
    omega
  | binary op a b iha ihb =>
    simp only [weight, nodes, additions, iha, ihb]
    split <;> omega

theorem one_le_nodes (e : Expr ν) : 1 ≤ e.nodes := by
  cases e <;> simp [nodes]

end Expr

/-! ## 2. No step adds a node -/

section Nodes

variable [Arithmetic ν] {e e' : Expr ν} {s : Step}

/-- **An equation of the simplifier adds no node.** -/
theorem Equation.nodes_le (h : Equation s e e') : e'.nodes ≤ e.nodes := by
  cases h with
  | constantFold _ => exact e.one_le_nodes
  | @addSelf a b _ =>
    -- the copy that is dropped leaves room for the literal two
    have := a.one_le_nodes
    simp only [Expr.nodes]
    omega
  | _ =>
    simp only [Expr.nodes]
    omega

/-- Wherever the equation is used, no node is added. -/
theorem Rewrite.nodes_le (h : Rewrite s e e') : e'.nodes ≤ e.nodes := by
  induction h with
  | root h => exact h.nodes_le
  | operand op _ ih => exact Nat.succ_le_succ ih
  | lhs op _ b ih =>
    simp only [Expr.nodes]
    omega
  | rhs op a _ ih =>
    simp only [Expr.nodes]
    omega

theorem Rewrites.nodes_le {steps : List Step} (h : Rewrites e steps e') : e'.nodes ≤ e.nodes :=
  h.preserves (fun hr hn => Nat.le_trans hr.nodes_le hn) (Nat.le_refl e.nodes)

end Nodes

/-! ## 3. The calls of a pass -/

variable [Arithmetic ν]

/-- `Contractum.simplify`, with `r` in the place of the pass. -/
def Contractum.simplifyBy (r : Expr ν → Pass ν) : Contractum ν → Pass ν
  | done e => ⟨e, []⟩
  | again a => r a
  | square a => ⟨.sqr (r a).expr, (r a).steps⟩
  | double a => ⟨.mul (r a).expr (.number Arithmetic.two), (r a).steps⟩
  | sum a b =>
    let z := r (.add (r a).expr (r b).expr)
    ⟨z.expr, (r a).steps ++ (r b).steps ++ z.steps⟩
  | difference a b =>
    let z := r (.sub (r a).expr (r b).expr)
    ⟨z.expr, (r a).steps ++ (r b).steps ++ z.steps⟩

/-- The expressions that are simplified for the rest of a node.  The last one of a sum or of a
difference is made of operands that are simplified already. -/
def Contractum.calls : Contractum ν → List (Expr ν)
  | done _ => []
  | again a | square a | double a => [a]
  | sum a b => [a, b, .add a.simplify.expr b.simplify.expr]
  | difference a b => [a, b, .sub a.simplify.expr b.simplify.expr]

/-- Nothing but the calls matters for the rest of a node. -/
theorem Contractum.simplifyBy_eq {r : Expr ν → Pass ν} {c : Contractum ν}
    (h : ∀ a ∈ c.calls, r a = a.simplify) : c.simplifyBy r = c.simplify := by
  cases c with
  | done e => rfl
  | again a => exact h a (List.mem_singleton_self a)
  | square a =>
    rw [simplifyBy, h a (List.mem_singleton_self a)]
    rfl
  | double a =>
    rw [simplifyBy, h a (List.mem_singleton_self a)]
    rfl
  | sum a b =>
    obtain ⟨ha, hb, hab⟩ : r a = a.simplify ∧ r b = b.simplify ∧ _ := by simpa [calls] using h
    rw [simplifyBy, ha, hb, hab]
    rfl
  | difference a b =>
    obtain ⟨ha, hb, hab⟩ : r a = a.simplify ∧ r b = b.simplify ∧ _ := by simpa [calls] using h
    rw [simplifyBy, ha, hb, hab]
    rfl

/-- The simplified operands of a node are no heavier than the operands. -/
theorem Contractum.weight_le_of_mem_calls {c : Contractum ν} {a : Expr ν} (h : a ∈ c.calls) :
    a.weight ≤ c.weight := by
  cases c with
  | done e => exact absurd h List.not_mem_nil
  | again e =>
    obtain rfl := List.mem_singleton.mp h
    exact Nat.le_refl _
  | square e =>
    obtain rfl := List.mem_singleton.mp h
    exact Nat.le_add_right _ _
  | double e =>
    obtain rfl := List.mem_singleton.mp h
    exact Nat.le_add_right _ _
  | sum x y =>
    -- the last call is on operands that passes have made no heavier
    have hx := x.simplify_weight
    have hy := y.simplify_weight
    simp only [calls, List.mem_cons, List.not_mem_nil, or_false] at h
    rcases h with rfl | rfl | rfl
    · simp only [weight]; omega
    · simp only [weight]; omega
    · simp only [weight, Expr.weight, if_true]; omega
  | difference x y =>
    have hx := x.simplify_weight
    have hy := y.simplify_weight
    simp only [calls, List.mem_cons, List.not_mem_nil, or_false] at h
    rcases h with rfl | rfl | rfl
    · simp only [weight]; omega
    · simp only [weight]; omega
    · simp only [weight, Expr.weight, reduceCtorEq, if_false]; omega

namespace Expr

/-- The operands of a node. -/
def operands : Expr ν → List (Expr ν)
  | number _ | param _ => []
  | unary _ a => [a]
  | binary _ a b => [a, b]

omit [Arithmetic ν] in
theorem weight_lt_of_mem_operands {e a : Expr ν} (h : a ∈ e.operands) : a.weight < e.weight := by
  cases e with
  | number v => exact absurd h List.not_mem_nil
  | param p => exact absurd h List.not_mem_nil
  | unary op b =>
    obtain rfl := List.mem_singleton.mp h
    exact weight_operand_lt op a
  | binary op b c =>
    rcases List.mem_pair.mp h with rfl | rfl
    · exact weight_lhs_lt op a c
    · exact weight_rhs_lt op b a

/-- `Expr.simplifyOperands`, with `r` in the place of the pass. -/
def simplifyOperandsBy (r : Expr ν → Pass ν) : Expr ν → Pass ν
  | number v => ⟨number v, []⟩
  | param p => ⟨param p, []⟩
  | unary op a => ⟨unary op (r a).expr, (r a).steps⟩
  | binary op a b => ⟨binary op (r a).expr (r b).expr, (r a).steps ++ (r b).steps⟩

theorem simplifyOperandsBy_eq {r : Expr ν → Pass ν} {e : Expr ν}
    (h : ∀ a ∈ e.operands, r a = a.simplify) : e.simplifyOperandsBy r = e.simplifyOperands := by
  cases e with
  | number v => rfl
  | param p => rfl
  | unary op a =>
    rw [simplifyOperandsBy, h a (List.mem_singleton_self a)]
    rfl
  | binary op a b =>
    obtain ⟨ha, hb⟩ : r a = a.simplify ∧ r b = b.simplify := by simpa [operands] using h
    rw [simplifyOperandsBy, ha, hb]
    rfl

/-- The body of a pass, with `r` in the place of the calls. -/
def simplifyBy (r : Expr ν → Pass ν) (e : Expr ν) : Pass ν :=
  if e.isFoldable then ⟨number e.evalZero, [.constantFold]⟩
  else
    match e.rotate.1.rule? with
    | some (s, c) => ⟨(c.simplifyBy r).expr, e.rotate.2 ++ s :: (c.simplifyBy r).steps⟩
    | none =>
      let x := e.rotate.1.simplifyOperandsBy r
      ⟨x.expr, e.rotate.2 ++ x.steps⟩

/-- The expressions on which the pass over an expression calls itself. -/
def calls (e : Expr ν) : List (Expr ν) :=
  if e.isFoldable then []
  else
    match e.rotate.1.rule? with
    | some (_, c) => c.calls
    | none => e.rotate.1.operands

/-- **The pass over an expression is its body over the passes of its calls**, and needs no
others. -/
theorem simplifyBy_eq {r : Expr ν → Pass ν} {e : Expr ν} (h : ∀ a ∈ e.calls, r a = a.simplify) :
    e.simplifyBy r = e.simplify := by
  cases hfold : e.isFoldable with
  | true => rw [simplifyBy, if_pos hfold, simplify_of_isFoldable hfold]
  | false =>
    rw [simplifyBy, if_neg (by simp [hfold])]
    rw [calls, if_neg (by simp [hfold])] at h
    cases hr : e.rotate.1.rule? with
    | some sc =>
      obtain ⟨s, c⟩ := sc
      rw [hr] at h
      rw [simplify_of_rule? hfold hr, ← Contractum.simplifyBy_eq h]
    | none =>
      rw [hr] at h
      rw [simplify_of_rule?_eq_none hfold hr, ← simplifyOperandsBy_eq h]

/-- Every call of a pass is on a lighter expression. -/
theorem weight_lt_of_mem_calls {e a : Expr ν} (h : a ∈ e.calls) : a.weight < e.weight := by
  have hw := e.rotate_weight
  unfold calls at h
  split at h
  · exact absurd h List.not_mem_nil
  · split at h
    · next s c hr =>
      have hc := rule?_weight hr
      have ha := Contractum.weight_le_of_mem_calls h
      omega
    · have ha := weight_lt_of_mem_operands h
      omega

/-- **The recursion of a pass is well founded.** -/
theorem wellFounded_calls : WellFounded (fun a e : Expr ν => a ∈ e.calls) :=
  Subrelation.wf weight_lt_of_mem_calls (InvImage.wf weight Nat.lt_wfRel.wf)

/-! ## 4. Passes in a row -/

/-- **The changes of any number of passes are paid from the weight.** -/
theorem simplifyTimes_weight (n : Nat) (e : Expr ν) :
    (simplifyTimes n e).expr.weight + Step.changes (simplifyTimes n e).steps ≤ e.weight := by
  induction n generalizing e with
  | zero => exact Nat.le_refl _
  | succ n ih => exact weight_again_le e.simplify_weight (ih e.simplify.expr)

/-- Passes in a row are passes over what the first of them left. -/
theorem simplifyTimes_add (m n : Nat) (e : Expr ν) :
    simplifyTimes (m + n) e =
      ⟨(simplifyTimes n (simplifyTimes m e).expr).expr,
        (simplifyTimes m e).steps ++ (simplifyTimes n (simplifyTimes m e).expr).steps⟩ := by
  induction m generalizing e with
  | zero => simp [simplifyTimes]
  | succ m ih =>
    rw [Nat.succ_add, simplifyTimes, ih]
    simp only [simplifyTimes, List.append_assoc]

theorem simplifyTimes_expr_add (m n : Nat) (e : Expr ν) :
    (simplifyTimes (m + n) e).expr = (simplifyTimes n (simplifyTimes m e).expr).expr := by
  rw [simplifyTimes_add]

theorem simplifyTimes_expr_succ (n : Nat) (e : Expr ν) :
    (simplifyTimes (n + 1) e).expr = (simplifyTimes n e).expr.simplify.expr :=
  simplifyTimes_expr_add n 1 e

/-- The first `n` passes all change something, and the one behind them does not. -/
structure SettlesAfter (e : Expr ν) (n : Nat) : Prop where
  changed : ∀ i < n, (simplifyTimes i e).expr.simplify.changed = true
  unchanged : (simplifyTimes n e).expr.simplify.changed = false

/-- A pass that changes something comes before those that follow it. -/
theorem SettlesAfter.succ {e : Expr ν} {n : Nat} (he : e.simplify.changed = true)
    (h : SettlesAfter e.simplify.expr n) : SettlesAfter e (n + 1) where
  changed i hi := by
    cases i with
    | zero => exact he
    | succ i => exact h.changed i (by omega)
  unchanged := h.unchanged

/-- **Passes settle**, after no more of them than the weight, and passing until nothing changes is
passing that often and once more. -/
theorem exists_settlesAfter (e : Expr ν) :
    ∃ n, SettlesAfter e n ∧ n ≤ e.weight ∧ e.simplifyUntilUnchanged =
      ⟨(simplifyTimes (n + 1) e).expr, (simplifyTimes (n + 1) e).steps, n + 1, 0⟩ := by
  induction e using simplifyUntilUnchanged.induct with
  | case1 e h ih =>
    obtain ⟨n, hn, hle, heq⟩ := ih
    have hlt := simplify_weight_lt h
    refine ⟨n + 1, hn.succ h, by omega, ?_⟩
    rw [simplifyUntilUnchanged, dif_pos h, heq]
    rfl
  | case2 e h =>
    refine ⟨0, ⟨?_, Bool.eq_false_iff.mpr h⟩, Nat.zero_le _, ?_⟩
    · intro i hi
      exact absurd hi (Nat.not_lt_zero i)
    · rw [simplifyUntilUnchanged, dif_neg h]
      simp [simplifyTimes]

/-- Simplification to the end leaves what some number of passes leave, and the last pass but the
extra ones changes nothing. -/
theorem exists_simplifyFully_expr (e : Expr ν) :
    ∃ n, SettlesAfter e n ∧
      ∀ k, (simplifyFully k e).expr = (simplifyTimes (n + 1 + k) e).expr := by
  obtain ⟨n, hn, -, heq⟩ := e.exists_settlesAfter
  refine ⟨n, hn, fun k => ?_⟩
  rw [simplifyFully, heq]
  exact (simplifyTimes_expr_add (n + 1) k e).symm

/-- **Simplification ends, and its work is linear in the size of the expression.**  The recursion of
a pass is well founded: its calls are, and the pass is made of them.  A pass spends the budget
`2 * nodes + additions` on its changes, and adds no node.  Simplification to the end is a number of
passes, of which those up to the first that changes nothing are at most one more than the budget,
and all changes together are paid from it. -/
theorem simplifyFully_work (k : Nat) (e : Expr ν) :
    (WellFounded (fun a e : Expr ν => a ∈ e.calls) ∧
      ∀ r : Expr ν → Pass ν, (∀ a ∈ e.calls, r a = a.simplify) → e.simplifyBy r = e.simplify) ∧
    (2 * e.simplify.expr.nodes + e.simplify.expr.additions + Step.changes e.simplify.steps
        ≤ 2 * e.nodes + e.additions ∧
      e.simplify.expr.nodes ≤ e.nodes) ∧
    (∃ n, SettlesAfter e n ∧ (simplifyFully k e).passes = n + 1 ∧
      n + 1 ≤ 2 * e.nodes + e.additions + 1 ∧
      simplifyTimes (n + 1 + k) e = ⟨(simplifyFully k e).expr, (simplifyFully k e).steps⟩) ∧
    Step.changes (simplifyFully k e).steps ≤ 2 * e.nodes + e.additions := by
  obtain ⟨n, hn, hle, heq⟩ := e.exists_settlesAfter
  have hpasses : simplifyTimes (n + 1 + k) e =
      ⟨(simplifyFully k e).expr, (simplifyFully k e).steps⟩ := by
    rw [simplifyTimes_add, simplifyFully, heq]
  have hall := simplifyTimes_weight (n + 1 + k) e
  rw [hpasses] at hall
  have hone := e.simplify_weight
  rw [weight_eq, e.weight_eq] at hone
  rw [e.weight_eq] at hle hall
  refine ⟨⟨wellFounded_calls, fun _ => simplifyBy_eq⟩, ⟨hone, e.rewrites_simplify.nodes_le⟩,
    ⟨n, hn, ?_, Nat.succ_le_succ hle, hpasses⟩, Nat.le_of_add_left_le hall⟩
  rw [simplifyFully, heq]

end Expr

end SymbolicCalculus
