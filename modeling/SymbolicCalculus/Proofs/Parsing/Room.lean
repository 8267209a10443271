/-
# How much room a phrase needs

`Phrase.need` is the number of entries by which the stack grows while the symbols of a phrase are
read.  It is at most the number of the symbols (`Phrase.need_le`), and the symbols alone decide it:
a phrase needs the same room as any other phrase, of whatever category, that is derived from the
same symbols (`Phrase.need_eq_of_yield_eq`).
-/
import SymbolicCalculus.Proofs.Grammar

namespace SymbolicCalculus

universe u

variable {ν : Type u}

/-! ## 1. The room -/

mutual

/-- The number of entries by which the stack grows while a phrase is read. -/
def Phrase.need : {c : Category} → Phrase ν c → Nat
  | _, .chain first rest => max first.need rest.need
  | _, .neg a => a.need + 1
  | _, .ofAtom a => a.need
  | _, .number _ => 1
  | _, .param _ => 1
  | _, .paren e => e.need + 1
  | _, .call _ e => e.need + 2

/-- The number of entries by which the stack grows, counted from below the first operand. -/
def Rest.need : {l : Level} → Rest ν l → Nat
  | _, .stop => 1
  | _, .more _ _ operand rest => max (operand.need + 2) rest.need

end

mutual

/-- A phrase needs at most one entry for each of its symbols. -/
theorem Phrase.need_le : {c : Category} → (p : Phrase ν c) → p.need ≤ p.yield.length
  | _, .chain first rest => by
    have hfirst := first.need_le
    have hrest := rest.need_le
    have hpos := List.length_pos_iff.mpr first.yield_ne_nil
    simp only [Phrase.need, Phrase.yield, List.length_append]
    omega
  | _, .neg a => by
    have := a.need_le
    simp only [Phrase.need, Phrase.yield, List.length_cons]
    omega
  | _, .ofAtom a => by
    have := a.need_le
    simpa only [Phrase.need, Phrase.yield] using this
  | _, .number v => by simp [Phrase.need, Phrase.yield]
  | _, .param p => by simp [Phrase.need, Phrase.yield]
  | _, .paren e => by
    have := e.need_le
    simp only [Phrase.need, Phrase.yield, List.length_cons, List.length_append]
    omega
  | _, .call f e => by
    have := e.need_le
    simp only [Phrase.need, Phrase.yield, List.length_cons, List.length_append]
    omega

/-- The operations behind an operand need at most one entry more than they have symbols. -/
theorem Rest.need_le : {l : Level} → (r : Rest ν l) → r.need ≤ r.yield.length + 1
  | _, .stop => by simp [Rest.need]
  | _, .more op hop a rest => by
    have ha := a.need_le
    have hrest := rest.need_le
    simp only [Rest.need, Rest.yield, List.length_cons, List.length_append]
    omega

end

/-! ## 2. The symbols decide the room -/

theorem Phrase.need_pos : {c : Category} → (p : Phrase ν c) → 0 < p.need
  | _, .chain first rest => by
    have := first.need_pos
    simp only [Phrase.need]
    omega
  | _, .neg _ => by simp [Phrase.need]
  | _, .ofAtom a => by simpa only [Phrase.need] using a.need_pos
  | _, .number _ => by simp [Phrase.need]
  | _, .param _ => by simp [Phrase.need]
  | _, .paren _ => by simp [Phrase.need]
  | _, .call _ _ => by simp [Phrase.need]

theorem Rest.need_snoc {l : Level} (op : BinaryOp) (hop : op.level = l)
    (b : Phrase ν l.operand) : (rest : Rest ν l) →
    (rest.snoc op hop b).need = max rest.need (b.need + 2)
  | .stop => by
    simp only [snoc, need]
    omega
  | .more op' hop' a rest => by
    simp only [snoc, need, need_snoc op hop b rest]
    omega

namespace Phrase

@[simp] theorem need_single {l : Level} (a : Phrase ν l.operand) : a.single.need = a.need := by
  have := a.need_pos
  simp only [single, need, Rest.need]
  omega

/-- As a formula, a phrase needs the same room. -/
theorem exists_expr_need {c : Category} (p : Phrase ν c) :
    ∃ q : Phrase ν .expr, q.yield = p.yield ∧ q.need = p.need := by
  have ofOperand {l : Level}
      (h : ∀ a : Phrase ν (.chain l), ∃ q : Phrase ν .expr, q.yield = a.yield ∧ q.need = a.need)
      (a : Phrase ν l.operand) : ∃ q : Phrase ν .expr, q.yield = a.yield ∧ q.need = a.need := by
    obtain ⟨q, hyield, hneed⟩ := h a.single
    exact ⟨q, by rw [hyield, yield_single], by rw [hneed, need_single]⟩
  have ofTerm := ofOperand (l := .sum) fun p => ⟨p, rfl, rfl⟩
  have ofPower := ofOperand (l := .product) ofTerm
  have ofUnary := ofOperand (l := .power) ofPower
  match c with
  | .chain .sum => exact ⟨p, rfl, rfl⟩
  | .chain .product => exact ofTerm p
  | .chain .power => exact ofPower p
  | .unary => exact ofUnary p
  | .atom => exact ofUnary (.ofAtom p)

/-- **The symbols of a phrase decide how much room it needs.** -/
theorem need_eq_of_yield_eq {c d : Category} {p : Phrase ν c} {q : Phrase ν d}
    (h : p.yield = q.yield) : p.need = q.need := by
  obtain ⟨p', hp, hpneed⟩ := p.exists_expr_need
  obtain ⟨q', hq, hqneed⟩ := q.exists_expr_need
  obtain rfl : p' = q' := yield_injective (by rw [hp, hq, h])
  rw [← hpneed, hqneed]

/-- An infix operation needs room for its operator and what stands in front of it, above which its
right operand is read. -/
theorem need_of_yield_binary {op : BinaryOp} {a r : Phrase ν (.chain op.level)}
    {b : Phrase ν op.level.operand} (h : r.yield = a.yield ++ .binary op :: b.yield) :
    r.need = max a.need (b.need + 2) := by
  cases a with
  | chain first rest =>
    obtain rfl : r = .chain first (rest.snoc op rfl b) := by
      refine yield_injective ?_
      rw [h, yield, yield, Rest.yield_snoc, List.append_assoc]
    rw [need, need, Rest.need_snoc, Nat.max_assoc]

end Phrase

end SymbolicCalculus
