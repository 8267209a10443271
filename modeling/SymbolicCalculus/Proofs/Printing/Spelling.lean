/-
# Trees that no formula has

Folding and differentiation build trees with literals that formulas do not have: numbers with a
sign, infinite numbers, and what is not a number.  The text of such a tree spells them out, as the
negation of a number or as a quotient by zero, and so the tree that is read back has these
operations in place of the literals (`Expr.spelled`).  It has the same values.
-/
import SymbolicCalculus.Proofs.Fields
import SymbolicCalculus.Proofs.Printing.RoundTrip

namespace SymbolicCalculus

/-! ## 1. Spelled literals -/

/-- The tree of unsigned numbers that has the value. -/
def Binary64.spell (v : Float) : Expr Float :=
  if v.isNaN then .div (.number 0) (.number 0)
  else if v.isInf then
    if isNegative v then .neg (.div (.number 1) (.number 0)) else .div (.number 1) (.number 0)
  else if isNegative v then .neg (.number (-v))
  else .number v

namespace Expr

/-- The expression with every literal spelled out. -/
def spelled (e : Expr Float) : Expr Float := e.replaceLiterals Binary64.spell

theorem eval_replaceLiterals {ν : Type*} [Arithmetic ν] {e : Expr ν} {f : ν → Expr ν}
    {c : Context ν} (h : ∀ v, (f v).eval c = v) : (e.replaceLiterals f).eval c = e.eval c := by
  induction e with
  | number v => exact h v
  | param p => rfl
  | unary op a ih => rw [replaceLiterals, eval, eval, ih]
  | binary op a b iha ihb => rw [replaceLiterals, eval, eval, iha, ihb]

/-- A spelled literal has the value of the literal. -/
theorem eval_spell (v : Float) (c : Context Float) : (Binary64.spell v).eval c = v := by
  unfold Binary64.spell
  split
  · next hnan =>
    obtain rfl : v = Float.nan := by simpa using hnan
    rfl
  · split
    · next hinf =>
      rcases Binary64.eq_of_isInf hinf with rfl | rfl
      · rw [if_neg (by decide +kernel)]
        rfl
      · rw [if_pos (by decide +kernel)]
        rfl
    · split
      · exact Binary64.neg_neg v
      · rfl

/-- **Spelling literals out changes no value.** -/
theorem eval_spelled (e : Expr Float) (c : Context Float) : e.spelled.eval c = e.eval c :=
  eval_replaceLiterals fun v => eval_spell v c

/-- A literal is read back spelled out, if the digits that it and its negation are written with
denote them. -/
theorem ofForm_eq_spell {v : Float} (h : ReadsBack v) (hneg : ReadsBack (-v)) :
    ofForm (Literal.form v) = Binary64.spell v := by
  have hzero : (ofDigits ['0'] : Expr Float) = number 0 := congrArg number (by decide +kernel)
  have hone : (ofDigits ['1'] : Expr Float) = number 1 := congrArg number (by decide +kernel)
  unfold Binary64.spell
  split
  · next hnan =>
    obtain rfl : v = Float.nan := by simpa using hnan
    have hform : Literal.form Float.nan = .nan := by decide +kernel
    rw [hform, ofForm, hzero]
  · next hnan =>
    split
    · next hinf =>
      rcases Binary64.eq_of_isInf hinf with rfl | rfl
      · have hform : Literal.form (1 / 0 : Float) = .infinite false := by decide +kernel
        rw [hform, ofForm, hzero, hone, if_neg (by decide +kernel)]
      · have hform : Literal.form (-(1 / 0) : Float) = .infinite true := by decide +kernel
        rw [hform, ofForm, hzero, hone, if_pos (by decide +kernel)]
    · next hinf =>
      obtain ⟨d, hform, hform'⟩ := Binary64.exists_form_eq (v := v) (by simpa using hnan)
        (by simpa using hinf)
      cases hsign : Binary64.isNegative v with
      | true =>
        rw [hsign] at hform hform'
        have hback := hneg d hform'
        change ofForm (Binary64.form v) = _
        rw [hform, ofForm, ofDigits, hback, if_pos rfl]
      | false =>
        rw [hsign] at hform
        have hback := h d hform
        change ofForm (Binary64.form v) = _
        rw [hform, ofForm, ofDigits, hback]
        rfl

/-! ## 2. Reading every tree back -/

/-- **Every tree in which no negation has an infix operation as its operand is read back from its
text with its literals spelled out**, if there is room for its symbols.  What is read back has the
same value in every context. -/
theorem parseWithin_text_eq_spelled {e : Expr Float} {limit : Nat}
    (htight : e.negationsTight = true) (hread : ∀ v ∈ e.literals, ReadsBack v ∧ ReadsBack (-v))
    (hlimit : (Lexer.ofSource e.text : Lexer Float).symbols.length + 1 < limit) :
    parseWithin limit e.text = .ok e.spelled ∧
      ∀ c : Context Float, e.spelled.eval c = e.eval c := by
  have hreread : e.reread = e.spelled := by
    rw [reread, rereadAt_eq_replaceLiterals htight, spelled]
    exact replaceLiterals_congr fun v hv => ofForm_eq_spell (hread v hv).1 (hread v hv).2
  exact ⟨hreread ▸ parseWithin_text e hlimit, eval_spelled e⟩

/-- A negative number, what is no number, and a negative infinite number are read back as a negation
and as quotients. -/
theorem parseWithin_text_literals :
    let e : Expr Float :=
      .sub (.pow (.number (-0.5)) (.param ⟨23⟩)) (.div (.number (0 / 0)) (.number (-(1 / 0))))
    e.negationsTight = true ∧ (∀ v ∈ e.literals, ReadsBack v ∧ ReadsBack (-v)) ∧
      (Lexer.ofSource e.text : Lexer Float).symbols.length + 1 < 100 ∧
      parseWithin 100 e.text = .ok (.sub (.pow (.neg (.number 0.5)) (.param ⟨23⟩))
        (.div (.div (.number 0) (.number 0)) (.neg (.div (.number 1) (.number 0))))) := by
  intro e
  have hunwritten (v : Float) (h : ∀ d, Literal.form v ≠ .finite false d) : ReadsBack v :=
    fun d hd => absurd hd (h d)
  have hform : Literal.form (0.5 : Float) = .finite false ⟨5, -1⟩ := by decide +kernel
  have hform' : Literal.form (-0.5 : Float) = .finite true ⟨5, -1⟩ := by decide +kernel
  have hnan : Literal.form (0 / 0 : Float) = .nan := by decide +kernel
  have hnan' : Literal.form (-(0 / 0) : Float) = .nan := by decide +kernel
  have hinf : Literal.form (1 / 0 : Float) = .infinite false := by decide +kernel
  have hinf' : Literal.form (-(1 / 0) : Float) = .infinite true := by decide +kernel
  have hhalf : ReadsBack (0.5 : Float) := by
    intro d hd
    obtain rfl : ⟨5, -1⟩ = d := by simpa [hform] using hd
    decide +kernel
  have hread : ∀ v ∈ e.literals, ReadsBack v ∧ ReadsBack (-v) := by
    have hliterals : e.literals = [-0.5, 0 / 0, -(1 / 0)] := rfl
    rw [hliterals]
    simp only [List.forall_mem_cons, List.not_mem_nil, false_implies, implies_true, and_true,
      Binary64.neg_neg]
    exact ⟨⟨hunwritten _ (by simp [hform']), hhalf⟩,
      ⟨hunwritten _ (by simp [hnan]), hunwritten _ (by simp [hnan'])⟩,
      hunwritten _ (by simp [hinf']), hunwritten _ (by simp [hinf])⟩
  have hlimit : (Lexer.ofSource e.text : Lexer Float).symbols.length + 1 < 100 := by
    decide +kernel
  have hspelled : e.spelled = .sub (.pow (.neg (.number 0.5)) (.param ⟨23⟩))
      (.div (.div (.number 0) (.number 0)) (.neg (.div (.number 1) (.number 0)))) := by
    have hnegative : Binary64.spell (-0.5) = .neg (.number 0.5) := by
      rw [Binary64.spell, if_neg (by decide +kernel), if_neg (by decide +kernel),
        if_pos (by decide +kernel), Binary64.neg_neg]
    have hnone : Binary64.spell (0 / 0) = .div (.number 0) (.number 0) := by
      rw [Binary64.spell, if_pos (by decide +kernel)]
    have hinfinite : Binary64.spell (-(1 / 0)) = .neg (.div (.number 1) (.number 0)) := by
      rw [Binary64.spell, if_neg (by decide +kernel), if_pos (by decide +kernel),
        if_pos (by decide +kernel)]
    simp only [e, spelled, replaceLiterals, hnegative, hnone, hinfinite]
  exact ⟨rfl, hread, hlimit, hspelled ▸ (parseWithin_text_eq_spelled rfl hread hlimit).1⟩

end Expr

end SymbolicCalculus
