/-
# Structural equality

Two expressions are structurally equal if they have the same shape, where the operands of `+` and
of `*` may stand in either order at every node.  Literals agree as `Arithmetic.same` says, so that
every expression equals itself (`beq_self`).

Every operator respects structural equality (`beq_unary`, `beq_binary`), and where the `==` of
numbers is symmetric and transitive, so is it (`beq_symm`, `beq_trans`).
-/
import SymbolicCalculus.Expr.Basic

namespace SymbolicCalculus.Expr

universe u

variable {ν : Type u} [Arithmetic ν]

/-- Structural equality, up to the order of the operands of commutative operators. -/
protected def beq : Expr ν → Expr ν → Bool
  | number a, number b => Arithmetic.same a b
  | param p, param q => p == q
  | unary op a, unary op' b => op == op' && a.beq b
  | binary op a b, binary op' c d =>
    op == op' && ((a.beq c && b.beq d) || (op.isCommutative && a.beq d && b.beq c))
  | _, _ => false

instance : BEq (Expr ν) := ⟨Expr.beq⟩

/-- Every expression is structurally equal to itself. -/
theorem beq_self (e : Expr ν) : (e == e) = true := by
  show e.beq e = true
  induction e with
  | number v => exact Arithmetic.same_self v
  | param p => simp [Expr.beq]
  | unary op a ih => simp [Expr.beq, ih]
  | binary op a b iha ihb => simp [Expr.beq, iha, ihb]

/-! ## 1. Every operator respects it -/

theorem beq_unary (op : UnaryOp) {a a' : Expr ν} (h : (a == a') = true) :
    (unary op a == unary op a') = true := by
  change a.beq a' = true at h
  show (unary op a).beq (unary op a') = true
  simp [Expr.beq, h]

theorem beq_binary (op : BinaryOp) {a a' b b' : Expr ν} (h : (a == a') = true)
    (h' : (b == b') = true) : (binary op a b == binary op a' b') = true := by
  change a.beq a' = true at h
  change b.beq b' = true at h'
  show (binary op a b).beq (binary op a' b') = true
  simp [Expr.beq, h, h']

/-- Commutative operators respect it crosswise, too. -/
theorem beq_crosswise {op : BinaryOp} (hop : op.isCommutative = true) {a a' b b' : Expr ν}
    (h : (a == b') = true) (h' : (b == a') = true) : (binary op a b == binary op a' b') = true := by
  change a.beq b' = true at h
  change b.beq a' = true at h'
  show (binary op a b).beq (binary op a' b') = true
  simp [Expr.beq, hop, h, h']

/-! ## 2. What an expression is equal to -/

theorem exists_of_number_beq {v : ν} {e : Expr ν} (h : (number v == e) = true) :
    ∃ w, e = number w ∧ Arithmetic.same v w = true := by
  change (number v).beq e = true at h
  cases e with
  | number w => exact ⟨w, rfl, h⟩
  | _ => exact absurd h (by simp [Expr.beq])

theorem eq_of_param_beq {p : Param} {e : Expr ν} (h : (param p == e) = true) : e = param p := by
  change (param p).beq e = true at h
  cases e with
  | param q => simp_all [Expr.beq]
  | _ => exact absurd h (by simp [Expr.beq])

theorem exists_of_unary_beq {op : UnaryOp} {a e : Expr ν} (h : (unary op a == e) = true) :
    ∃ a', e = unary op a' ∧ (a == a') = true := by
  change (unary op a).beq e = true at h
  cases e with
  | unary op' a' =>
    simp only [Expr.beq, Bool.and_eq_true, beq_iff_eq] at h
    obtain ⟨rfl, h⟩ := h
    exact ⟨a', rfl, h⟩
  | _ => exact absurd h (by simp [Expr.beq])

theorem exists_of_binary_beq {op : BinaryOp} {a b e : Expr ν} (h : (binary op a b == e) = true) :
    ∃ a' b', e = binary op a' b' ∧ ((a == a') = true ∧ (b == b') = true ∨
      op.isCommutative = true ∧ (a == b') = true ∧ (b == a') = true) := by
  change (binary op a b).beq e = true at h
  cases e with
  | binary op' a' b' =>
    simp only [Expr.beq, Bool.and_eq_true, Bool.or_eq_true, beq_iff_eq, and_assoc] at h
    obtain ⟨rfl, h⟩ := h
    exact ⟨a', b', rfl, h⟩
  | _ => exact absurd h (by simp [Expr.beq])

/-! ## 3. An equivalence -/

/-- What holds of leaves that agree, and of nodes if it holds of their operands, one by one or
crosswise, holds of structurally equal expressions. -/
theorem induction_of_beq {P : Expr ν → Expr ν → Prop}
    (hnumber : ∀ {v w}, Arithmetic.same v w = true → P (number v) (number w))
    (hparam : ∀ p, P (param p) (param p))
    (hunary : ∀ op {a a'}, P a a' → P (unary op a) (unary op a'))
    (hbinary : ∀ op {a a' b b'}, P a a' → P b b' → P (binary op a b) (binary op a' b'))
    (hcrosswise : ∀ {op}, op.isCommutative = true →
      ∀ {a a' b b'}, P a b' → P b a' → P (binary op a b) (binary op a' b'))
    {a b : Expr ν} (h : (a == b) = true) : P a b := by
  induction a generalizing b with
  | number v =>
    obtain ⟨w, rfl, hvw⟩ := exists_of_number_beq h
    exact hnumber hvw
  | param p =>
    obtain rfl := eq_of_param_beq h
    exact hparam p
  | unary op a ih =>
    obtain ⟨a', rfl, ha⟩ := exists_of_unary_beq h
    exact hunary op (ih ha)
  | binary op a₁ a₂ ih₁ ih₂ =>
    obtain ⟨b₁, b₂, rfl, ⟨h₁, h₂⟩ | ⟨hop, h₁, h₂⟩⟩ := exists_of_binary_beq h
    · exact hbinary op (ih₁ h₁) (ih₂ h₂)
    · exact hcrosswise hop (ih₁ h₁) (ih₂ h₂)

section PartialEquiv

variable [PartialEquivBEq ν] {a b c : Expr ν}

theorem beq_symm (h : (a == b) = true) : (b == a) = true := by
  refine induction_of_beq (P := fun a b => (b == a) = true) Arithmetic.same_symm ?_ ?_ ?_ ?_ h
  · intro p
    exact beq_self (param p)
  · intro op a b hba
    exact beq_unary op hba
  · intro op a c b d hca hdb
    exact beq_binary op hca hdb
  · intro op hop a c b d hda hcb
    exact beq_crosswise hop hcb hda

/-- Two matchings of operands, one after the other, are a matching: positional if both are or
neither is, crosswise if one of them is. -/
theorem beq_trans (h : (a == b) = true) (h' : (b == c) = true) : (a == c) = true := by
  refine induction_of_beq (P := fun a b => ∀ c, (b == c) = true → (a == c) = true)
    ?_ ?_ ?_ ?_ ?_ h c h'
  · intro v w hvw c h'
    obtain ⟨x, rfl, hwx⟩ := exists_of_number_beq h'
    exact Arithmetic.same_trans hvw hwx
  · intro p c h'
    exact h'
  · intro op a a' ha c h'
    obtain ⟨a'', rfl, ha'⟩ := exists_of_unary_beq h'
    exact beq_unary op (ha a'' ha')
  · intro op a a' b b' ha hb c h'
    obtain ⟨a'', b'', rfl, ⟨ha', hb'⟩ | ⟨hop, ha', hb'⟩⟩ := exists_of_binary_beq h'
    · exact beq_binary op (ha a'' ha') (hb b'' hb')
    · exact beq_crosswise hop (ha b'' ha') (hb a'' hb')
  · intro op hop a a' b b' ha hb c h'
    obtain ⟨a'', b'', rfl, ⟨ha', hb'⟩ | ⟨-, ha', hb'⟩⟩ := exists_of_binary_beq h'
    · exact beq_crosswise hop (ha b'' hb') (hb a'' ha')
    · exact beq_binary op (ha a'' hb') (hb b'' ha')

end PartialEquiv

end SymbolicCalculus.Expr
