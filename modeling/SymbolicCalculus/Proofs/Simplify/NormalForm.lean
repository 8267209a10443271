/-
# The normal form that passes settle in

A *redex* is an operation that a rule rewrites without comparing its operands with each other, or
one that mentions no parameter and is folded (`IsRedex`).  An expression is *normal* if no redex
occurs in it (`Expr.IsNormal`).

A pass that changes nothing still rotates the chains of `+` and of `*`, so that its result is not
the expression that the rules were tried on.  But what it leaves of an operand has the same root and
mentions the same parameters (`LooksLike`), and more than that a rule does not see of an operand.
So the result is normal (`Expr.isNormal_of_unchanged`), and so is what passes settle in
(`Expr.isNormal_simplify`).
-/
import SymbolicCalculus.Proofs.Simplify.Rearrangement

namespace SymbolicCalculus

universe u

variable {ν : Type u}

open Arithmetic

/-! ## 1. Redexes -/

/-- The expression occurs in another one, as the whole of it or further down. -/
inductive Occurs (a : Expr ν) : Expr ν → Prop where
  | root : Occurs a a
  | operand (op : UnaryOp) {e : Expr ν} (h : Occurs a e) : Occurs a (.unary op e)
  | lhs (op : BinaryOp) {e : Expr ν} (h : Occurs a e) (f : Expr ν) : Occurs a (.binary op e f)
  | rhs (op : BinaryOp) (e : Expr ν) {f : Expr ν} (h : Occurs a f) : Occurs a (.binary op e f)

variable [Arithmetic ν]

/-- The expression is folded or rewritten, whatever its operands have to do with each other. -/
inductive IsRedex : Expr ν → Prop where
  /-- Anything but a literal is folded if it mentions no parameter. -/
  | value {e : Expr ν} (hliteral : e.isLiteral = false) (hparams : e.contains .all = false) :
      IsRedex e
  | divOne (a : Expr ν) {b : Expr ν} (hb : b.isNumber one = true) : IsRedex (.div a b)
  | zeroDiv {a : Expr ν} (ha : a.isNumber zero = true) (b : Expr ν) : IsRedex (.div a b)
  | subZero (a : Expr ν) {b : Expr ν} (hb : b.isNumber zero = true) : IsRedex (.sub a b)
  | subNeg (a b : Expr ν) : IsRedex (.sub a (.neg b))
  | mulOne (a : Expr ν) {b : Expr ν} (hb : b.isNumber one = true) : IsRedex (.mul a b)
  | oneMul {a : Expr ν} (ha : a.isNumber one = true) (b : Expr ν) : IsRedex (.mul a b)
  | mulZero (a : Expr ν) {b : Expr ν} (hb : b.isNumber zero = true) : IsRedex (.mul a b)
  | zeroMul {a : Expr ν} (ha : a.isNumber zero = true) (b : Expr ν) : IsRedex (.mul a b)
  | addZero (a : Expr ν) {b : Expr ν} (hb : b.isNumber zero = true) : IsRedex (.add a b)
  | zeroAdd {a : Expr ν} (ha : a.isNumber zero = true) (b : Expr ν) : IsRedex (.add a b)
  | addNeg (a b : Expr ν) : IsRedex (.add a (.neg b))
  | negAdd (a b : Expr ν) : IsRedex (.add (.neg a) b)
  | powZero (a : Expr ν) {b : Expr ν} (hb : b.isNumber zero = true) : IsRedex (.pow a b)
  | powOne (a : Expr ν) {b : Expr ν} (hb : b.isNumber one = true) : IsRedex (.pow a b)
  | negNeg (a : Expr ν) : IsRedex (.neg (.neg a))

/-- A redex that is not folded is rewritten by a rule. -/
theorem IsRedex.rule?_ne_none {e : Expr ν} (h : IsRedex e) (hfold : e.isFoldable = false) :
    e.rule? ≠ none := by
  cases h with
  | value hliteral hparams => exact absurd hfold (by simp [Expr.isFoldable, hliteral, hparams])
  | divOne a hb => simp [Expr.rule?, Expr.divRule?, hb]
  | @zeroDiv a ha b =>
    simp only [Expr.rule?, Expr.divRule?, ha, if_true]
    split <;> simp
  | subZero a hb => simp [Expr.rule?, Expr.subRule?, hb]
  | subNeg a b =>
    simp only [Expr.rule?, Expr.subRule?, Expr.negated?]
    split
    · simp
    · split <;> simp
  | mulOne a hb => simp [Expr.rule?, Expr.mulRule?, hb]
  | @oneMul a ha b =>
    simp only [Expr.rule?, Expr.mulRule?, ha, if_true]
    split
    · simp
    · split <;> simp
  | mulZero a hb =>
    simp only [Expr.rule?, Expr.mulRule?, hb, if_true]
    split <;> simp
  | @zeroMul a ha b =>
    simp only [Expr.rule?, Expr.mulRule?, ha, if_true]
    repeat' split
    all_goals simp
  | addZero a hb => simp [Expr.rule?, Expr.addRule?, hb]
  | @zeroAdd a ha b =>
    simp only [Expr.rule?, Expr.addRule?, ha, if_true]
    split <;> simp
  | addNeg a b =>
    simp only [Expr.rule?, Expr.addRule?, Expr.negated?]
    repeat' split
    all_goals simp_all
  | negAdd a b =>
    simp only [Expr.rule?, Expr.addRule?, Expr.negated?]
    repeat' split
    all_goals simp_all
  | powZero a hb => simp [Expr.rule?, Expr.powRule?, hb]
  | powOne a hb =>
    simp only [Expr.rule?, Expr.powRule?, hb, if_true]
    split <;> simp
  | negNeg a => simp [Expr.rule?, Expr.negRule?, Expr.negated?]

omit [Arithmetic ν] in
theorem Occurs.of_unary {a e : Expr ν} {op : UnaryOp} (h : Occurs a (.unary op e)) :
    a = .unary op e ∨ Occurs a e := by
  cases h with
  | root => exact .inl rfl
  | operand _ h => exact .inr h

omit [Arithmetic ν] in
theorem Occurs.of_binary {a e f : Expr ν} {op : BinaryOp} (h : Occurs a (.binary op e f)) :
    a = .binary op e f ∨ Occurs a e ∨ Occurs a f := by
  cases h with
  | root => exact .inl rfl
  | lhs _ h _ => exact .inr (.inl h)
  | rhs _ _ h => exact .inr (.inr h)

/-- No redex occurs in the expression. -/
def Expr.IsNormal (e : Expr ν) : Prop := ∀ a, Occurs a e → ¬IsRedex a

namespace Expr.IsNormal

theorem number (v : ν) : (number v).IsNormal := by
  intro a ha hredex
  cases ha
  cases hredex with
  | value hliteral _ => exact absurd hliteral (by simp [isLiteral])

theorem param (p : Param) : (param p : Expr ν).IsNormal := by
  intro a ha hredex
  cases ha
  cases hredex with
  | value _ hparams => exact absurd hparams (by simp [contains, Param.Query.selects])

theorem unary {op : UnaryOp} {e : Expr ν} (h : ¬IsRedex (unary op e)) (he : e.IsNormal) :
    (unary op e).IsNormal := by
  intro a ha
  rcases ha.of_unary with rfl | ha
  · exact h
  · exact he a ha

theorem binary {op : BinaryOp} {e f : Expr ν} (h : ¬IsRedex (binary op e f)) (he : e.IsNormal)
    (hf : f.IsNormal) : (binary op e f).IsNormal := by
  intro a ha
  rcases ha.of_binary with rfl | ha | ha
  · exact h
  · exact he a ha
  · exact hf a ha

end Expr.IsNormal

/-! ## 2. What a rule sees of an operand -/

/-- The expressions are the same leaf, or nodes of the same operator. -/
inductive SameRoot : Expr ν → Expr ν → Prop where
  | number (v : ν) : SameRoot (.number v) (.number v)
  | param (p : Param) : SameRoot (.param p) (.param p)
  | unary (op : UnaryOp) (a a' : Expr ν) : SameRoot (.unary op a) (.unary op a')
  | binary (op : BinaryOp) (a b a' b' : Expr ν) : SameRoot (.binary op a b) (.binary op a' b')

omit [Arithmetic ν] in
theorem SameRoot.trans {e e' e'' : Expr ν} (h : SameRoot e e') (h' : SameRoot e' e'') :
    SameRoot e e'' := by
  cases h with
  | number v => exact h'
  | param p => exact h'
  | unary op a a' =>
    cases h'
    exact .unary op _ _
  | binary op a b a' b' =>
    cases h'
    exact .binary op _ _ _ _

theorem SameRoot.isNumber_eq {e e' : Expr ν} (h : SameRoot e e') (v : ν) :
    e.isNumber v = e'.isNumber v := by
  cases h <;> rfl

omit [Arithmetic ν] in
theorem SameRoot.isLiteral_eq {e e' : Expr ν} (h : SameRoot e e') :
    e.isLiteral = e'.isLiteral := by
  cases h <;> rfl

/-- A rule that does not compare operands cannot tell the expressions apart. -/
structure LooksLike (e e' : Expr ν) : Prop where
  root : SameRoot e e'
  contains_eq : e.contains .all = e'.contains .all

namespace IsRedex

variable {a a' b b' : Expr ν}

theorem of_looksLike_unary {op : UnaryOp} (h : IsRedex (.unary op a')) (ha : LooksLike a a') :
    IsRedex (.unary op a) := by
  cases h with
  | value _ hparams =>
    rw [Expr.contains, ← ha.contains_eq] at hparams
    exact .value rfl hparams
  | negNeg b =>
    obtain ⟨hroot, -⟩ := ha
    cases hroot
    exact .negNeg _

/-- **Operands that look alike make the same operations redexes.** -/
theorem of_looksLike_binary {op : BinaryOp} (h : IsRedex (.binary op a' b')) (ha : LooksLike a a')
    (hb : LooksLike b b') : IsRedex (.binary op a b) := by
  have hnumber (v : ν) := ha.root.isNumber_eq v
  have hnumber' (v : ν) := hb.root.isNumber_eq v
  cases h with
  | value _ hparams =>
    rw [Expr.contains, ← ha.contains_eq, ← hb.contains_eq] at hparams
    exact .value rfl hparams
  | divOne _ h => exact .divOne a ((hnumber' _).trans h)
  | zeroDiv h _ => exact .zeroDiv ((hnumber _).trans h) b
  | subZero _ h => exact .subZero a ((hnumber' _).trans h)
  | mulOne _ h => exact .mulOne a ((hnumber' _).trans h)
  | oneMul h _ => exact .oneMul ((hnumber _).trans h) b
  | mulZero _ h => exact .mulZero a ((hnumber' _).trans h)
  | zeroMul h _ => exact .zeroMul ((hnumber _).trans h) b
  | addZero _ h => exact .addZero a ((hnumber' _).trans h)
  | zeroAdd h _ => exact .zeroAdd ((hnumber _).trans h) b
  | powZero _ h => exact .powZero a ((hnumber' _).trans h)
  | powOne _ h => exact .powOne a ((hnumber' _).trans h)
  | subNeg _ c =>
    obtain ⟨hroot, -⟩ := hb
    cases hroot
    exact .subNeg a _
  | addNeg _ c =>
    obtain ⟨hroot, -⟩ := hb
    cases hroot
    exact .addNeg a _
  | negAdd c _ =>
    obtain ⟨hroot, -⟩ := ha
    cases hroot
    exact .negAdd _ b

end IsRedex

/-! ## 3. Passes that change nothing -/

namespace Expr

omit [Arithmetic ν] in
/-- A rotation keeps the operator at the root. -/
theorem sameRoot_rotate (e : Expr ν) : SameRoot e e.rotate.1 := by
  cases e with
  | number v => exact .number v
  | param p => exact .param p
  | unary op a => exact .unary op a a
  | binary op a b =>
    simp only [rotate]
    split
    · exact .binary op _ _ _ _
    · exact .binary op a b a b

theorem sameRoot_simplifyOperands (e : Expr ν) : SameRoot e e.simplifyOperands.expr := by
  cases e with
  | number v => exact .number v
  | param p => exact .param p
  | unary op a => exact .unary op a _
  | binary op a b => exact .binary op a b _ _

theorem isFoldable_rotate (e : Expr ν) : e.rotate.1.isFoldable = e.isFoldable := by
  rw [isFoldable, isFoldable, e.sameRoot_rotate.isLiteral_eq, e.rearranged_rotate.contains_eq]

/-- **What a pass without a change did**: nothing was folded and no rule applied, neither at the
root nor in the operands, once the chain at the root was rotated. -/
theorem of_unchanged {e : Expr ν} (h : e.simplify.changed = false) :
    e.isFoldable = false ∧ e.rotate.1.rule? = none ∧
      (∀ a ∈ e.rotate.1.operands, a.simplify.changed = false) ∧
      e.simplify.expr = e.rotate.1.simplifyOperands.expr := by
  rw [Pass.changed_eq_false_iff] at h
  cases hfold : e.isFoldable with
  | true =>
    rw [simplify_of_isFoldable hfold] at h
    exact absurd h (by simp [Step.isRotation])
  | false =>
    cases hrule : e.rotate.1.rule? with
    | some rule =>
      obtain ⟨s, c⟩ := rule
      rw [simplify_of_rule? hfold hrule] at h
      exact absurd h (by simp [rule?_isRotation hrule])
    | none =>
      rw [simplify_of_rule?_eq_none hfold hrule] at h ⊢
      refine ⟨rfl, rfl, ?_, rfl⟩
      intro a ha
      rw [Pass.changed_eq_false_iff]
      rw [Step.changes_append, Nat.add_eq_zero_iff] at h
      obtain ⟨-, hsteps⟩ := h
      cases hf : e.rotate.1 with
      | number v => exact absurd ha (by simp [hf, operands])
      | param p => exact absurd ha (by simp [hf, operands])
      | unary op b =>
        rw [hf] at ha hsteps
        obtain rfl := List.mem_singleton.mp ha
        exact hsteps
      | binary op b c =>
        rw [hf] at ha hsteps
        simp only [simplifyOperands, Step.changes_append, Nat.add_eq_zero_iff] at hsteps
        rcases List.mem_pair.mp ha with rfl | rfl
        · exact hsteps.1
        · exact hsteps.2

/-- A pass without a change leaves an expression that looks like the one before it. -/
theorem looksLike_simplify {e : Expr ν} (h : e.simplify.changed = false) :
    LooksLike e e.simplify.expr where
  root := by
    rw [(of_unchanged h).2.2.2]
    exact e.sameRoot_rotate.trans (sameRoot_simplifyOperands _)
  contains_eq := (rearranged_simplify h).contains_eq .all

/-- **A pass that changes nothing leaves a normal expression.** -/
theorem isNormal_of_unchanged {e : Expr ν} (h : e.simplify.changed = false) :
    e.simplify.expr.IsNormal := by
  have hw := e.rotate_weight
  obtain ⟨hfold, hrule, hoperands, hexpr⟩ := of_unchanged h
  have hnot : ¬IsRedex e.rotate.1 := fun hredex =>
    hredex.rule?_ne_none (e.isFoldable_rotate.trans hfold) hrule
  rw [hexpr]
  cases hf : e.rotate.1 with
  | number v => exact .number v
  | param p => exact .param p
  | unary op a =>
    rw [hf] at hw hoperands hnot
    have hlt : a.weight < e.weight := Nat.lt_of_lt_of_eq (weight_operand_lt op a) hw
    have ha := hoperands a (List.mem_singleton_self a)
    exact .unary (fun hredex => hnot (hredex.of_looksLike_unary (looksLike_simplify ha)))
      (isNormal_of_unchanged ha)
  | binary op a b =>
    rw [hf] at hw hoperands hnot
    have hlt : a.weight < e.weight := Nat.lt_of_lt_of_eq (weight_lhs_lt op a b) hw
    have hlt' : b.weight < e.weight := Nat.lt_of_lt_of_eq (weight_rhs_lt op a b) hw
    have ha := hoperands a (by simp [operands])
    have hb := hoperands b (by simp [operands])
    refine .binary (fun hredex => hnot ?_) (isNormal_of_unchanged ha) (isNormal_of_unchanged hb)
    exact hredex.of_looksLike_binary (looksLike_simplify ha) (looksLike_simplify hb)
termination_by e.weight

/-- **Passes settle in a normal form.**  Whenever a pass changes nothing, no redex occurs in its
result, and none occurs in an expression that is simplified to the end. -/
theorem isNormal_simplify (e : Expr ν) :
    (e.simplify.changed = false → e.simplify.expr.IsNormal) ∧
      (simplifyFully 0 e).expr.IsNormal := by
  refine ⟨isNormal_of_unchanged, ?_⟩
  obtain ⟨n, hn, hexpr⟩ := e.exists_simplifyFully_expr
  rw [hexpr, simplifyTimes_expr_succ]
  exact isNormal_of_unchanged hn.unchanged

end Expr

end SymbolicCalculus
