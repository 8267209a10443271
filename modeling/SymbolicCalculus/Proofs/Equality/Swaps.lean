/-
# Structural equality is equality up to swaps

Structural equality compares the operands of `+` and of `*` one by one and crosswise, at every node
anew.  So it finds every choice of swaps that makes two expressions alike: they are structurally
equal exactly if the operands of some sums and products of the first can be swapped (`Swaps`) so
that it has the shape, the operators and the parameters of the second, and literals that agree
(`Alike`).

On binary numbers it is an equivalence that every operator respects
(`Expr.beq_iff_exists_swaps`).
-/
import SymbolicCalculus.Proofs.Zeros
import SymbolicCalculus.Expr.Equality

namespace SymbolicCalculus

universe u

variable {ν : Type u}

/-! ## 1. Swaps -/

/-- The second expression is the first one with the operands of some sums and products swapped. -/
inductive Swaps : Expr ν → Expr ν → Prop where
  | number (v : ν) : Swaps (.number v) (.number v)
  | param (p : Param) : Swaps (.param p) (.param p)
  | unary (op : UnaryOp) {a a' : Expr ν} (h : Swaps a a') : Swaps (.unary op a) (.unary op a')
  | keep (op : BinaryOp) {a a' b b' : Expr ν} (h : Swaps a a') (h' : Swaps b b') :
      Swaps (.binary op a b) (.binary op a' b')
  | swap {op : BinaryOp} (hop : op = .add ∨ op = .mul) {a a' b b' : Expr ν} (h : Swaps a a')
      (h' : Swaps b b') : Swaps (.binary op a b) (.binary op b' a')

/-- The expressions have the same shape, operators and parameters, and literals at the same places
are related. -/
inductive Alike (R : ν → ν → Prop) : Expr ν → Expr ν → Prop where
  | number {v w : ν} (h : R v w) : Alike R (.number v) (.number w)
  | param (p : Param) : Alike R (.param p) (.param p)
  | unary (op : UnaryOp) {a a' : Expr ν} (h : Alike R a a') : Alike R (.unary op a) (.unary op a')
  | binary (op : BinaryOp) {a a' b b' : Expr ν} (h : Alike R a a') (h' : Alike R b b') :
      Alike R (.binary op a b) (.binary op a' b')

theorem BinaryOp.isCommutative_iff {op : BinaryOp} :
    op.isCommutative = true ↔ op = .add ∨ op = .mul := by
  cases op <;> simp [BinaryOp.isCommutative]

namespace Expr

variable [Arithmetic ν] {a a' b : Expr ν}

/-! ## 2. Comparing and swapping -/

/-- What the comparison finds is a choice of swaps. -/
theorem exists_swaps_of_beq (h : (a == b) = true) :
    ∃ a', Swaps a a' ∧ Alike (fun v w => Arithmetic.same v w = true) a' b := by
  refine induction_of_beq
    (P := fun a b => ∃ a', Swaps a a' ∧ Alike (fun v w => Arithmetic.same v w = true) a' b)
    ?_ ?_ ?_ ?_ ?_ h
  · intro v w hvw
    exact ⟨number v, .number v, .number hvw⟩
  · intro p
    exact ⟨param p, .param p, .param p⟩
  · rintro op a b ⟨a', ha, hb⟩
    exact ⟨unary op a', .unary op ha, .unary op hb⟩
  · rintro op a c b d ⟨a', ha, hc⟩ ⟨b', hb, hd⟩
    exact ⟨binary op a' b', .keep op ha hb, .binary op hc hd⟩
  · rintro op hop a c b d ⟨a', ha, hd⟩ ⟨b', hb, hc⟩
    exact ⟨binary op b' a', .swap (BinaryOp.isCommutative_iff.mp hop) ha hb, .binary op hc hd⟩

/-- The comparison finds every choice of swaps: what is swapped below a node does not matter to how
its operands are matched. -/
theorem beq_of_swaps (h : Swaps a a')
    (h' : Alike (fun v w => Arithmetic.same v w = true) a' b) : (a == b) = true := by
  induction h generalizing b with
  | number v =>
    cases h' with
    | number hvw => exact hvw
  | param p =>
    cases h' with
    | param _ => exact beq_self (param p)
  | unary op _ ih =>
    cases h' with
    | unary _ h' => exact beq_unary op (ih h')
  | keep op _ _ ih ih' =>
    cases h' with
    | binary _ ha hb => exact beq_binary op (ih ha) (ih' hb)
  | swap hop _ _ ih ih' =>
    cases h' with
    | binary _ hb ha => exact beq_crosswise (BinaryOp.isCommutative_iff.mpr hop) (ih ha) (ih' hb)

/-! ## 3. Structural equality -/

/-- **Structural equality is exactly equality up to swaps** of the operands of `+` and of `*`, with
literals that compare equal or are both not a number.  It is an equivalence, and every operator
respects it in every operand. -/
theorem beq_iff_exists_swaps :
    Equivalence (fun a b : Expr Float => (a == b) = true) ∧
      (∀ (op : UnaryOp) (a a' : Expr Float), (a == a') = true →
        (unary op a == unary op a') = true) ∧
      (∀ (op : BinaryOp) (a a' b b' : Expr Float), (a == a') = true → (b == b') = true →
        (binary op a b == binary op a' b') = true) ∧
      ∀ a b : Expr Float,
        (a == b) = true ↔ ∃ a', Swaps a a' ∧ Alike Binary64.Agree a' b := by
  refine ⟨⟨beq_self, beq_symm, beq_trans⟩, ?_, ?_, ?_⟩
  · intro op a a' h
    exact beq_unary op h
  · intro op a a' b b' h h'
    exact beq_binary op h h'
  · intro a b
    have hagree : (fun v w : Float => Arithmetic.same v w = true) = Binary64.Agree := by
      funext v w
      exact propext Binary64.same_iff_agree
    constructor
    · intro h
      exact hagree ▸ exists_swaps_of_beq h
    · rintro ⟨a', hswaps, halike⟩
      exact beq_of_swaps hswaps (hagree ▸ halike)

end Expr

end SymbolicCalculus
