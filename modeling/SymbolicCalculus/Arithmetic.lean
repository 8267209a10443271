/-
# Arithmetics: what the numbers of a formula must offer

Formulas are trees over an arbitrary type of numbers.  An `Arithmetic` says how the operators act on
these numbers and when two numbers compare equal; every symbolic operation is written once, for all
arithmetics.

`==` need not be reflexive: a number that differs from itself stands for "not a number".  `same`
is the comparison of literals built on it, under which two such numbers do agree.
-/
import SymbolicCalculus.Operator

namespace SymbolicCalculus

universe u

/-- An interpretation of the operators by total functions on numbers of type `ν`, together with the
constants that the simplifier and the derivative rules write. -/
class Arithmetic (ν : Type u) extends BEq ν where
  zero : ν
  one : ν
  two : ν
  /-- One half. -/
  half : ν
  /-- The logarithm of Euler's number to base ten. -/
  log10e : ν
  /-- The action of an operator of one operand. -/
  unary : UnaryOp → ν → ν
  /-- The action of an infix operator. -/
  binary : BinaryOp → ν → ν → ν

namespace Arithmetic

variable {ν : Type u} [Arithmetic ν]

/-- Whether the number differs from itself. -/
def isNaN (a : ν) : Bool := !(a == a)

/-- The comparison of literals: `==`, except that any two numbers that differ from themselves
agree. -/
def same (a b : ν) : Bool := a == b || (isNaN a && isNaN b)

/-- Every number is the same as itself, whatever `==` says. -/
theorem same_self (a : ν) : same a a = true := by
  cases h : (a == a) <;> simp [same, isNaN, h]

section PartialEquiv

variable [PartialEquivBEq ν] {a b c : ν}

theorem same_symm (h : same a b = true) : same b a = true := by
  simp only [same, Bool.or_eq_true, Bool.and_eq_true] at h ⊢
  rcases h with h | ⟨ha, hb⟩
  · exact .inl (BEq.symm h)
  · exact .inr ⟨hb, ha⟩

/-- A number that equals another one equals itself, so it does not agree with what differs from
itself, and the two cases of `same` do not mix. -/
theorem same_trans (h : same a b = true) (h' : same b c = true) : same a c = true := by
  simp only [same, isNaN, Bool.or_eq_true, Bool.and_eq_true, Bool.not_eq_true'] at h h' ⊢
  rcases h with h | ⟨ha, hb⟩
  · rcases h' with h' | ⟨hb, -⟩
    · exact .inl (BEq.trans h h')
    · rw [BEq.trans (BEq.symm h) h] at hb
      exact absurd hb (by simp)
  · rcases h' with h' | ⟨-, hc⟩
    · rw [BEq.trans h' (BEq.symm h')] at hb
      exact absurd hb (by simp)
    · exact .inr ⟨ha, hc⟩

end PartialEquiv

end Arithmetic

end SymbolicCalculus
