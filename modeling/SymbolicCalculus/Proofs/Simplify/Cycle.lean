/-
# The cycle that passes end in

A change makes an expression lighter, so from some pass on nothing is changed any more
(`Expr.exists_forall_unchanged`).  Such passes still rearrange the expression, but there are only
finitely many expressions of a size over given leaves (`Expr.finite_of_leaves`).  So what passes
leave repeats itself in the end, and the extra passes of simplification to the end go round a cycle
of normal expressions (`Expr.IsSettled`, `Expr.exists_simplifyFully_cycle`).
-/
import SymbolicCalculus.Proofs.Simplify.NormalForm

namespace SymbolicCalculus

universe u

variable {ν : Type u}

/-! ## 1. Finitely many expressions -/

instance : Finite Func :=
  Set.finite_univ_iff.mp ((List.finite_toSet Func.all).subset fun f _ => f.mem_all)

instance : Finite UnaryOp := by
  refine Set.finite_univ_iff.mp (((Set.finite_range UnaryOp.call).insert .neg).subset ?_)
  intro op _
  cases op with
  | neg => exact .inl rfl
  | call f => exact .inr ⟨f, rfl⟩

instance : Finite BinaryOp := by
  refine Set.finite_univ_iff.mp
    ((List.finite_toSet [BinaryOp.add, .sub, .mul, .div, .pow]).subset ?_)
  intro op _
  cases op <;> simp

namespace Expr

/-- There are finitely many expressions of a size over given leaves. -/
theorem finite_of_leaves (s : Multiset (Expr ν)) (n : Nat) :
    {e : Expr ν | (∀ a ∈ e.leaves, a ∈ s) ∧ e.nodes ≤ n}.Finite := by
  induction n with
  | zero =>
    refine Set.Finite.subset Set.finite_empty ?_
    rintro e ⟨-, hnodes⟩
    exact absurd hnodes (Nat.not_le_of_lt e.one_le_nodes)
  | succ n ih =>
    have hunary := Set.finite_iUnion fun op => ih.image (unary op)
    have hbinary := Set.finite_iUnion fun op => ih.image2 (binary op) ih
    refine (s.finite_toSet.union (hunary.union hbinary)).subset ?_
    rintro e ⟨hleaves, hnodes⟩
    cases e with
    | number v => exact .inl (hleaves _ (Multiset.mem_singleton_self _))
    | param p => exact .inl (hleaves _ (Multiset.mem_singleton_self _))
    | unary op a =>
      refine .inr (.inl (Set.mem_iUnion.mpr ⟨op, a, ⟨hleaves, ?_⟩, rfl⟩))
      exact Nat.le_of_succ_le_succ hnodes
    | binary op a b =>
      rw [nodes] at hnodes
      have ha : ∀ c ∈ a.leaves, c ∈ s := fun c hc => hleaves c (Multiset.mem_add.mpr (.inl hc))
      have hb : ∀ c ∈ b.leaves, c ∈ s := fun c hc => hleaves c (Multiset.mem_add.mpr (.inr hc))
      exact .inr (.inr (Set.mem_iUnion.mpr ⟨op, a, ⟨ha, by omega⟩, b, ⟨hb, by omega⟩, rfl⟩))

/-! ## 2. Passes end in a cycle -/

variable [Arithmetic ν]

/-- **Passes come to change nothing any more.** -/
theorem exists_forall_unchanged (e : Expr ν) :
    ∃ n, ∀ m ≥ n, (simplifyTimes m e).expr.simplify.changed = false := by
  -- from the lightest result on, since a change would make a lighter one
  obtain ⟨n, hn⟩ : ∃ n, ∀ m, (simplifyTimes n e).expr.weight ≤ (simplifyTimes m e).expr.weight :=
    ⟨_, fun m => Function.argmin_le (fun m => (simplifyTimes m e).expr.weight) m⟩
  refine ⟨n, fun m hm => ?_⟩
  by_contra hchanged
  have hlt := simplify_weight_lt (Bool.of_not_eq_false hchanged)
  have hmin := hn (m + 1)
  rw [simplifyTimes_expr_succ] at hmin
  obtain ⟨k, rfl⟩ := Nat.exists_eq_add_of_le hm
  have hle := simplifyTimes_weight k (simplifyTimes n e).expr
  rw [← simplifyTimes_expr_add] at hle
  omega

/-- Passes that change nothing rearrange the expression. -/
theorem rearranged_simplifyTimes {e : Expr ν} {n : Nat}
    (h : ∀ i < n, (simplifyTimes i e).expr.simplify.changed = false) :
    Rearranged e (simplifyTimes n e).expr := by
  induction n with
  | zero => exact .refl e
  | succ n ih =>
    rw [simplifyTimes_expr_succ]
    have hbefore := ih fun i hi => h i (Nat.lt_succ_of_lt hi)
    exact hbefore.trans (rearranged_simplify (h n (Nat.lt_succ_self n)))

/-- **Passes end in a cycle** that changes nothing. -/
theorem exists_cycle (e : Expr ν) :
    ∃ n, (∀ m ≥ n, (simplifyTimes m e).expr.simplify.changed = false) ∧
      ∃ d > 0, ∀ m ≥ n, (simplifyTimes (m + d) e).expr = (simplifyTimes m e).expr := by
  obtain ⟨n, hn⟩ := e.exists_forall_unchanged
  let t := (simplifyTimes n e).expr
  have hmem (k : Nat) : (simplifyTimes k t).expr ∈
      {e' : Expr ν | (∀ a ∈ e'.leaves, a ∈ t.leaves) ∧ e'.nodes ≤ t.nodes} := by
    refine ⟨fun a ha => ?_, (t.rewrites_simplifyTimes k).nodes_le⟩
    have hrearranged : Rearranged t (simplifyTimes k t).expr := by
      refine rearranged_simplifyTimes fun i _ => ?_
      rw [← simplifyTimes_expr_add]
      exact hn (n + i) (Nat.le_add_right n i)
    rwa [hrearranged.leaves_eq]
  obtain ⟨i, j, hij, heq⟩ :=
    Set.Finite.exists_lt_map_eq_of_forall_mem hmem (finite_of_leaves t.leaves t.nodes)
  refine ⟨n + i, fun m hm => hn m (by omega), j - i, Nat.sub_pos_of_lt hij, fun m hm => ?_⟩
  obtain ⟨k, rfl⟩ := Nat.exists_eq_add_of_le hm
  have hlater : n + i + k + (j - i) = n + j + k := by omega
  rw [hlater, simplifyTimes_expr_add (n + j), simplifyTimes_expr_add n j,
    simplifyTimes_expr_add (n + i), simplifyTimes_expr_add n i, heq]

/-- A further extra pass is a pass over the result. -/
theorem simplifyFully_expr_succ (k : Nat) (e : Expr ν) :
    (simplifyFully (k + 1) e).expr = (simplifyFully k e).expr.simplify.expr :=
  simplifyTimes_expr_succ k e.simplifyUntilUnchanged.expr

/-- The expression is normal, and the next pass changes nothing. -/
structure IsSettled (e : Expr ν) : Prop where
  isNormal : e.IsNormal
  unchanged : e.simplify.changed = false

/-- **Extra passes end in a cycle of settled expressions.** -/
theorem exists_simplifyFully_cycle (e : Expr ν) :
    ∃ k₀, ∃ d > 0, ∀ k ≥ k₀, (simplifyFully k e).expr.IsSettled ∧
      (simplifyFully (k + d) e).expr = (simplifyFully k e).expr := by
  obtain ⟨n, -, hexpr⟩ := e.exists_simplifyFully_expr
  obtain ⟨k₀, hunchanged, d, hd, hcycle⟩ := e.exists_cycle
  refine ⟨k₀, d, hd, fun k hk => ⟨⟨?_, ?_⟩, ?_⟩⟩
  · rw [hexpr, Nat.add_right_comm, simplifyTimes_expr_succ]
    exact isNormal_of_unchanged (hunchanged _ (by omega))
  · rw [hexpr]
    exact hunchanged _ (by omega)
  · rw [hexpr, hexpr, ← Nat.add_assoc]
    exact hcycle _ (by omega)

end Expr

end SymbolicCalculus
