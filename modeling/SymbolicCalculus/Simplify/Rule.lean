/-
# The rules of the simplifier

`Expr.rule?` says which equation applies at the root of an expression, and what it leaves to be
done: a `Contractum`, whose parts have yet to be simplified.  The rules look at the operands as they
are, before these are simplified, and the first that fits is the one that applies.

* `rule?_weight`: a rule lowers the weight of what it applies to, even if its step is counted in.
* `rule?_isRotation`: every rule counts as a change.
-/
import SymbolicCalculus.Expr.Equality
import SymbolicCalculus.Simplify.Step

namespace SymbolicCalculus

universe u

/-- What a rule leaves of a node. -/
inductive Contractum (ν : Type u) where
  /-- The expression as it is. -/
  | done (e : Expr ν)
  /-- The expression, simplified. -/
  | again (e : Expr ν)
  /-- The square of the simplified expression. -/
  | square (e : Expr ν)
  /-- The simplified expression times two. -/
  | double (e : Expr ν)
  /-- The sum of the simplified operands, simplified once more. -/
  | sum (a b : Expr ν)
  /-- The difference of the simplified operands, simplified once more. -/
  | difference (a b : Expr ν)

/-- The weight of the expression that is left, before its parts are simplified. -/
def Contractum.weight {ν : Type u} : Contractum ν → Nat
  | done e | again e => e.weight
  | square e => e.weight + 2
  | double e => e.weight + 4
  | sum a b => a.weight + b.weight + 3
  | difference a b => a.weight + b.weight + 2

namespace Expr

variable {ν : Type u} [Arithmetic ν]

open Arithmetic

/-! ## 1. The rules -/

/-- The expression under a negation. -/
def negated? : Expr ν → Option (Expr ν)
  | neg a => some a
  | _ => none

/-- The rules for a quotient. -/
def divRule? (a b : Expr ν) : Option (Step × Contractum ν) :=
  if b.isNumber one then some (.divByOne, .again a)
  else if a.isNumber zero then some (.zeroDividend, .again a)
  else if a == b then some (.divSelf, .done (number one))
  else none

/-- The rules for a difference. -/
def subRule? (a b : Expr ν) : Option (Step × Contractum ν) :=
  if b.isNumber zero then some (.subZero, .again a)
  else if a == b then some (.subSelf, .done (number zero))
  else b.negated?.map fun b => (.subNeg, .sum a b)

/-- The rules for a product.  The right operand is looked at first. -/
def mulRule? (a b : Expr ν) : Option (Step × Contractum ν) :=
  if b.isNumber one then some (.mulOne, .again a)
  else if b.isNumber zero then some (.mulZero, .again b)
  else if a.isNumber one then some (.mulOne, .again b)
  else if a.isNumber zero then some (.mulZero, .again a)
  else if a == b then some (.mulSelf, .square b)
  else none

/-- The rules for a sum. -/
def addRule? (a b : Expr ν) : Option (Step × Contractum ν) :=
  if b.isNumber zero then some (.addZero, .again a)
  else if a.isNumber zero then some (.addZero, .again b)
  else if a == b then some (.addSelf, .double b)
  else
    match b.negated?, a.negated? with
    | some b, _ => some (.addNeg, .difference a b)
    | none, some a => some (.negAdd, .difference b a)
    | none, none => none

/-- The rules for a power. -/
def powRule? (a b : Expr ν) : Option (Step × Contractum ν) :=
  if b.isNumber zero then some (.powZero, .done (number one))
  else if b.isNumber one then some (.powOne, .again a)
  else none

/-- The rule for a negation. -/
def negRule? (a : Expr ν) : Option (Step × Contractum ν) :=
  a.negated?.map fun a => (.doubleNeg, .again a)

/-- The equation that applies at the root, and what it leaves. -/
def rule? : Expr ν → Option (Step × Contractum ν)
  | add a b => addRule? a b
  | sub a b => subRule? a b
  | mul a b => mulRule? a b
  | div a b => divRule? a b
  | pow a b => powRule? a b
  | neg a => negRule? a
  | _ => none

/-! ## 2. Rules make expressions lighter -/

omit [Arithmetic ν] in
theorem weight_of_negated? {e a : Expr ν} (h : e.negated? = some a) :
    e.weight = a.weight + 2 := by
  unfold negated? at h
  split at h
  · simp only [Option.some.injEq] at h
    subst h
    rfl
  · exact absurd h (by simp)

/-- A rule lowers the weight of what it applies to, even when its step is counted in. -/
theorem rule?_weight {e : Expr ν} {s : Step} {c : Contractum ν} (h : e.rule? = some (s, c)) :
    c.weight + 1 ≤ e.weight := by
  unfold rule? at h
  split at h
  · next a b =>
    have ha := two_le_weight a
    have hb := two_le_weight b
    unfold addRule? at h
    repeat' split at h
    all_goals simp only [Option.some.injEq, Prod.mk.injEq, reduceCtorEq] at h
    · obtain ⟨-, rfl⟩ := h; simp only [Contractum.weight, weight, if_true]; omega
    · obtain ⟨-, rfl⟩ := h; simp only [Contractum.weight, weight, if_true]; omega
    · obtain ⟨-, rfl⟩ := h; simp only [Contractum.weight, weight, if_true]; omega
    · next hn =>
      have := weight_of_negated? hn
      obtain ⟨-, rfl⟩ := h; simp only [Contractum.weight, weight, if_true]; omega
    · next hn =>
      have := weight_of_negated? hn
      obtain ⟨-, rfl⟩ := h; simp only [Contractum.weight, weight, if_true]; omega
  · next a b =>
    have hw := weight_binary_ge .sub a b
    have ha := two_le_weight a
    have hb := two_le_weight b
    unfold subRule? at h
    repeat' split at h
    · simp only [Option.some.injEq, Prod.mk.injEq] at h
      obtain ⟨-, rfl⟩ := h; simp only [Contractum.weight]; omega
    · simp only [Option.some.injEq, Prod.mk.injEq] at h
      obtain ⟨-, rfl⟩ := h; simp only [Contractum.weight, weight] at hw ⊢; omega
    · simp only [Option.map_eq_some_iff, Prod.mk.injEq] at h
      obtain ⟨d, hn, -, rfl⟩ := h
      have := weight_of_negated? hn
      simp only [Contractum.weight]; omega
  · next a b =>
    have hw := weight_binary_ge .mul a b
    have ha := two_le_weight a
    have hb := two_le_weight b
    unfold mulRule? at h
    repeat' split at h
    all_goals simp only [Option.some.injEq, Prod.mk.injEq, reduceCtorEq] at h
    all_goals obtain ⟨-, rfl⟩ := h; simp only [Contractum.weight]; omega
  · next a b =>
    have hw := weight_binary_ge .div a b
    have ha := two_le_weight a
    have hb := two_le_weight b
    unfold divRule? at h
    repeat' split at h
    all_goals simp only [Option.some.injEq, Prod.mk.injEq, reduceCtorEq] at h
    all_goals obtain ⟨-, rfl⟩ := h; simp only [Contractum.weight, weight] at hw ⊢; omega
  · next a b =>
    have hw := weight_binary_ge .pow a b
    have ha := two_le_weight a
    have hb := two_le_weight b
    unfold powRule? at h
    repeat' split at h
    all_goals simp only [Option.some.injEq, Prod.mk.injEq, reduceCtorEq] at h
    all_goals obtain ⟨-, rfl⟩ := h; simp only [Contractum.weight, weight] at hw ⊢; omega
  · next a =>
    simp only [negRule?, Option.map_eq_some_iff, Prod.mk.injEq] at h
    obtain ⟨d, hn, -, rfl⟩ := h
    have := weight_of_negated? hn
    simp only [Contractum.weight, weight]; omega
  · exact absurd h (by simp)

/-- No rule is a rotation. -/
theorem rule?_isRotation {e : Expr ν} {s : Step} {c : Contractum ν} (h : e.rule? = some (s, c)) :
    s.isRotation = false := by
  unfold rule? addRule? subRule? mulRule? divRule? powRule? negRule? at h
  repeat' split at h
  all_goals simp only [Option.some.injEq, Prod.mk.injEq, reduceCtorEq, Option.map_eq_some_iff] at h
  all_goals first
    | (obtain ⟨rfl, -⟩ := h; rfl)
    | (obtain ⟨_, _, rfl, -⟩ := h; rfl)

end Expr

end SymbolicCalculus
