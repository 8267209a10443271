/-
# The grammar of formulas

A `Phrase` is a derivation in the documented grammar

    expr  := term (('+'|'-') term)*
    term  := power (('*'|'/') power)*
    power := unary ('^' unary)*
    unary := '-' unary | atom
    atom  := NUMBER | PARAM | '(' expr ')' | FUNC '(' expr ')'

The first three categories differ only in their operators, so they are one, a *chain* of operands at
a `Level`; the starred part of a chain is a `Rest`.  `Phrase.yield` is the sequence of symbols that
a derivation derives, and `Phrase.tree` the expression that it stands for.

* `Phrase.widen`: a phrase that binds tightly is one of every looser category too.
* `Phrase.unique_split`: where a phrase ends is determined by the symbols alone, and so is its
  derivation (`Phrase.yield_injective`): the grammar is unambiguous.
-/
import Mathlib
import SymbolicCalculus.Expr.Basic
import SymbolicCalculus.Symbol

namespace SymbolicCalculus

universe u

/-! ## 1. Levels and categories -/

/-- The levels of the infix operators, the loosest first. -/
inductive Level where
  | sum
  | product
  | power
deriving DecidableEq

/-- The level of an infix operator. -/
def BinaryOp.level : BinaryOp → Level
  | add | sub => .sum
  | mul | div => .product
  | pow => .power

/-- The syntactic categories of the grammar. -/
inductive Category where
  /-- Operands joined by the operators of a level. -/
  | chain (l : Level)
  | unary
  | atom
deriving DecidableEq

namespace Category

/-- The category of a whole formula. -/
abbrev expr : Category := chain .sum

/-- The category of the operands of `+` and `-`. -/
abbrev term : Category := chain .product

/-- The category of the operands of `*` and `/`. -/
abbrev power : Category := chain .power

end Category

namespace Level

/-- The category of the operands that the operators of the level join. -/
def operand : Level → Category
  | sum => .term
  | product => .power
  | power => .unary

/-- The precedence of the operators of the level when they come in. -/
def inputPrecedence : Level → Nat
  | sum => 10
  | product => 30
  | power => 50

/-- The precedence of the operators of the level while they wait on the stack. -/
def stackPrecedence : Level → Nat
  | sum => 20
  | product => 40
  | power => 60

end Level

namespace Category

/-- The largest precedence of a waiting symbol above which a phrase of the category can stand. -/
def inputPrecedence : Category → Nat
  | chain l => l.inputPrecedence
  | unary => 70
  | atom => 110

/-- A symbol that comes in below this precedence ends a phrase of the category. -/
def stackPrecedence : Category → Nat
  | chain l => l.stackPrecedence
  | unary => 65
  | atom => 120

end Category

section Precedences

variable {ν : Type u}

theorem inputPrecedence_binary (op : BinaryOp) :
    (SymbolKind.binary op : SymbolKind ν).inputPrecedence = op.level.inputPrecedence := by
  cases op <;> rfl

theorem stackPrecedence_binary (op : BinaryOp) :
    (SymbolKind.binary op : SymbolKind ν).stackPrecedence = op.level.stackPrecedence := by
  cases op <;> rfl

end Precedences

/-- The operands of a level can stand above an operator of the level. -/
theorem Level.stackPrecedence_le_operand (l : Level) :
    l.stackPrecedence ≤ l.operand.inputPrecedence := by
  cases l <;> decide

/-- The operators of a level group from the left. -/
theorem Level.inputPrecedence_lt (l : Level) : l.inputPrecedence < l.stackPrecedence := by
  cases l <;> decide

/-- An operand can stand wherever the whole chain can. -/
theorem Level.inputPrecedence_le_operand (l : Level) :
    l.inputPrecedence ≤ l.operand.inputPrecedence := by
  cases l <;> decide

/-- What ends a chain ends each of its operands. -/
theorem Level.stackPrecedence_le_operand_stack (l : Level) :
    l.stackPrecedence ≤ l.operand.stackPrecedence := by
  cases l <;> decide

/-! ## 2. Derivations -/

mutual

/-- A derivation from a category of the grammar. -/
inductive Phrase (ν : Type u) : Category → Type u where
  /-- An operand, and the operations that follow it. -/
  | chain {l : Level} (first : Phrase ν l.operand) (rest : Rest ν l) : Phrase ν (.chain l)
  | neg (a : Phrase ν .unary) : Phrase ν .unary
  | ofAtom (a : Phrase ν .atom) : Phrase ν .unary
  | number (value : ν) : Phrase ν .atom
  | param (p : Param) : Phrase ν .atom
  | paren (e : Phrase ν .expr) : Phrase ν .atom
  | call (f : Func) (e : Phrase ν .expr) : Phrase ν .atom

/-- A derivation of the operations that follow the first operand of a chain. -/
inductive Rest (ν : Type u) : Level → Type u where
  | stop {l : Level} : Rest ν l
  | more {l : Level} (op : BinaryOp) (hop : op.level = l) (operand : Phrase ν l.operand)
      (rest : Rest ν l) : Rest ν l

end

variable {ν : Type u}

mutual

/-- The symbols that are derived. -/
def Phrase.yield : {c : Category} → Phrase ν c → List (SymbolKind ν)
  | _, .chain first rest => first.yield ++ rest.yield
  | _, .neg a => .neg :: a.yield
  | _, .ofAtom a => a.yield
  | _, .number v => [.number v]
  | _, .param p => [.param p]
  | _, .paren e => .openParen :: (e.yield ++ [.closeParen])
  | _, .call f e => .func f :: .openParen :: (e.yield ++ [.closeParen])

/-- The symbols that are derived. -/
def Rest.yield : {l : Level} → Rest ν l → List (SymbolKind ν)
  | _, .stop => []
  | _, .more op _ operand rest => .binary op :: (operand.yield ++ rest.yield)

end

mutual

/-- The expression that a phrase stands for. -/
def Phrase.tree : {c : Category} → Phrase ν c → Expr ν
  | _, .chain first rest => rest.graft first.tree
  | _, .neg a => .neg a.tree
  | _, .ofAtom a => a.tree
  | _, .number v => .number v
  | _, .param p => .param p
  | _, .paren e => e.tree
  | _, .call f e => .call f e.tree

/-- The operations applied from the left to an expression. -/
def Rest.graft : {l : Level} → Rest ν l → Expr ν → Expr ν
  | _, .stop, lhs => lhs
  | _, .more op _ operand rest, lhs => rest.graft (.binary op lhs operand.tree)

end

/-! ## 3. Longer chains and looser categories -/

/-- The operations with one more behind them. -/
def Rest.snoc {l : Level} (op : BinaryOp) (hop : op.level = l) (b : Phrase ν l.operand) :
    Rest ν l → Rest ν l
  | .stop => .more op hop b .stop
  | .more op' hop' a rest => .more op' hop' a (rest.snoc op hop b)

theorem Rest.yield_snoc {l : Level} (op : BinaryOp) (hop : op.level = l)
    (b : Phrase ν l.operand) : (rest : Rest ν l) →
    (rest.snoc op hop b).yield = rest.yield ++ .binary op :: b.yield
  | .stop => by simp [snoc, yield]
  | .more op' hop' a rest => by simp [snoc, yield, yield_snoc op hop b rest]

theorem Rest.graft_snoc {l : Level} (op : BinaryOp) (hop : op.level = l)
    (b : Phrase ν l.operand) : (rest : Rest ν l) → (lhs : Expr ν) →
    (rest.snoc op hop b).graft lhs = .binary op (rest.graft lhs) b.tree
  | .stop, lhs => by simp [snoc, graft]
  | .more op' hop' a rest, lhs => by simp only [snoc, graft, graft_snoc op hop b rest]

/-- A chain continues to the right by one operation. -/
theorem Phrase.exists_binary {op : BinaryOp} (a : Phrase ν (.chain op.level))
    (b : Phrase ν op.level.operand) :
    ∃ p : Phrase ν (.chain op.level),
      p.yield = a.yield ++ .binary op :: b.yield ∧ p.tree = .binary op a.tree b.tree := by
  cases a with
  | chain first rest =>
    refine ⟨.chain first (rest.snoc op rfl b), ?_, ?_⟩
    · rw [yield, yield, Rest.yield_snoc, List.append_assoc]
    · rw [tree, tree, Rest.graft_snoc]

namespace Phrase

/-- An operand alone is a chain. -/
def single {l : Level} (a : Phrase ν l.operand) : Phrase ν (.chain l) := .chain a .stop

@[simp] theorem yield_single {l : Level} (a : Phrase ν l.operand) :
    a.single.yield = a.yield := by
  simp [single, yield, Rest.yield]

@[simp] theorem tree_single {l : Level} (a : Phrase ν l.operand) : a.single.tree = a.tree := by
  simp [single, tree, Rest.graft]

/-- A phrase of a category above that of the operands of a chain makes a chain. -/
theorem exists_chain {l : Level} {c : Category} (p : Phrase ν c)
    (h : l.inputPrecedence ≤ c.inputPrecedence)
    (ih : l.operand.inputPrecedence ≤ c.inputPrecedence →
      ∃ q : Phrase ν l.operand, q.yield = p.yield ∧ q.tree = p.tree) :
    ∃ q : Phrase ν (.chain l), q.yield = p.yield ∧ q.tree = p.tree := by
  by_cases hc : c = .chain l
  · subst hc
    exact ⟨p, rfl, rfl⟩
  · have hop : l.operand.inputPrecedence ≤ c.inputPrecedence := by
      cases c with
      | chain l' => cases l <;> cases l' <;> revert h hc <;> decide
      | unary => cases l <;> decide
      | atom => cases l <;> decide
    obtain ⟨q, hy, ht⟩ := ih hop
    exact ⟨q.single, by rw [yield_single, hy], by rw [tree_single, ht]⟩

/-- **A phrase that binds tightly is one of every looser category too**, with the same symbols and
the same tree. -/
theorem widen {c : Category} (p : Phrase ν c) (d : Category)
    (h : d.inputPrecedence ≤ c.inputPrecedence) :
    ∃ q : Phrase ν d, q.yield = p.yield ∧ q.tree = p.tree := by
  have toUnary (h : Category.unary.inputPrecedence ≤ c.inputPrecedence) :
      ∃ q : Phrase ν .unary, q.yield = p.yield ∧ q.tree = p.tree := by
    cases c with
    | atom => exact ⟨.ofAtom p, by rw [yield], by rw [tree]⟩
    | unary => exact ⟨p, rfl, rfl⟩
    | chain l => cases l <;> exact absurd h (by decide)
  have toPower (h : Level.power.inputPrecedence ≤ c.inputPrecedence) := p.exists_chain h toUnary
  have toTerm (h : Level.product.inputPrecedence ≤ c.inputPrecedence) := p.exists_chain h toPower
  match d, h with
  | .chain .sum, h => exact p.exists_chain (l := .sum) h toTerm
  | .chain .product, h => exact toTerm h
  | .chain .power, h => exact toPower h
  | .unary, h => exact toUnary h
  | .atom, h =>
    cases c with
    | atom => exact ⟨p, rfl, rfl⟩
    | unary => exact absurd h (by decide)
    | chain l => cases l <;> exact absurd h (by decide)

/-- Every phrase is a formula. -/
theorem exists_expr {c : Category} (p : Phrase ν c) :
    ∃ q : Phrase ν .expr, q.yield = p.yield ∧ q.tree = p.tree :=
  p.widen .expr (by cases c with
    | chain l => cases l <;> decide
    | _ => decide)

/-- A phrase derives at least one symbol. -/
theorem yield_ne_nil : {c : Category} → (p : Phrase ν c) → p.yield ≠ []
  | _, .chain first _ => by simp [yield, first.yield_ne_nil]
  | _, .neg _ => by simp [yield]
  | _, .ofAtom a => by simpa [yield] using a.yield_ne_nil
  | _, .number _ => by simp [yield]
  | _, .param _ => by simp [yield]
  | _, .paren _ => by simp [yield]
  | _, .call _ _ => by simp [yield]

/-- A phrase never begins with an operator. -/
theorem head?_yield_ne_binary : {c : Category} → (p : Phrase ν c) → (ks : List (SymbolKind ν)) →
    (op : BinaryOp) → (p.yield ++ ks).head? ≠ some (.binary op)
  | _, .chain first rest, ks, op => by
    rw [yield, List.append_assoc]
    exact first.head?_yield_ne_binary _ op
  | _, .neg _, _, _ => by simp [yield]
  | _, .ofAtom a, ks, op => by
    rw [yield]
    exact a.head?_yield_ne_binary ks op
  | _, .number _, _, _ => by simp [yield]
  | _, .param _, _, _ => by simp [yield]
  | _, .paren _, _, _ => by simp [yield]
  | _, .call _ _, _, _ => by simp [yield]

/-- A minus in front of an atom is never part of it. -/
theorem yield_atom_ne_neg (p : Phrase ν .atom) (ks ks' : List (SymbolKind ν)) :
    p.yield ++ ks ≠ .neg :: ks' := by
  cases p <;> simp [yield]

end Phrase

mutual

/-- The end of the formula is not part of a phrase. -/
theorem Phrase.isEnd_of_mem_yield : {c : Category} → (p : Phrase ν c) →
    ∀ k ∈ p.yield, k.isEnd = false
  | _, .chain first rest => by
    intro k h
    rw [Phrase.yield] at h
    rcases List.mem_append.mp h with h | h
    · exact first.isEnd_of_mem_yield k h
    · exact rest.isEnd_of_mem_yield k h
  | _, .neg a => by
    intro k h
    rw [Phrase.yield] at h
    rcases List.mem_cons.mp h with rfl | h
    · rfl
    · exact a.isEnd_of_mem_yield k h
  | _, .ofAtom a => by
    intro k h
    rw [Phrase.yield] at h
    exact a.isEnd_of_mem_yield k h
  | _, .number v => by
    intro k h
    simp only [Phrase.yield, List.mem_singleton] at h
    rw [h]
    rfl
  | _, .param p => by
    intro k h
    simp only [Phrase.yield, List.mem_singleton] at h
    rw [h]
    rfl
  | _, .paren e => by
    intro k h
    simp only [Phrase.yield, List.mem_cons, List.mem_append, List.not_mem_nil, or_false] at h
    rcases h with rfl | h | rfl
    · rfl
    · exact e.isEnd_of_mem_yield k h
    · rfl
  | _, .call f e => by
    intro k h
    simp only [Phrase.yield, List.mem_cons, List.mem_append, List.not_mem_nil, or_false] at h
    rcases h with rfl | rfl | h | rfl
    · rfl
    · rfl
    · exact e.isEnd_of_mem_yield k h
    · rfl

/-- The end of the formula is not part of a chain. -/
theorem Rest.isEnd_of_mem_yield : {l : Level} → (r : Rest ν l) → ∀ k ∈ r.yield, k.isEnd = false
  | _, .stop => by
    intro k h
    simp [Rest.yield] at h
  | _, .more op hop a rest => by
    intro k h
    simp only [Rest.yield, List.mem_cons, List.mem_append] at h
    rcases h with rfl | h | h
    · rfl
    · exact a.isEnd_of_mem_yield k h
    · exact rest.isEnd_of_mem_yield k h

end

/-! ## 4. The grammar is unambiguous

Where a phrase of a category ends is seen from the next symbol: it *stops* there unless an operator
of the category, or a tighter one, follows. -/

/-- Whether no operator in front of the symbols continues a phrase of the category. -/
def Category.Stops (c : Category) (ks : List (SymbolKind ν)) : Prop :=
  ∀ (l : Level) (op : BinaryOp), c = .chain l → ks.head? = some (.binary op) →
    op.level.inputPrecedence < l.inputPrecedence

theorem Category.Stops.operand {l : Level} {ks : List (SymbolKind ν)}
    (h : (Category.chain l).Stops ks) : l.operand.Stops ks := by
  intro l' op hl hop
  have hlt := h l op rfl hop
  have := l.inputPrecedence_le_operand
  rw [hl] at this
  exact Nat.lt_of_lt_of_le hlt this

/-- What follows the first operand of a chain stops that operand. -/
theorem Rest.stops_operand {l : Level} (rest : Rest ν l) {ks : List (SymbolKind ν)}
    (h : (Category.chain l).Stops ks) : l.operand.Stops (rest.yield ++ ks) := by
  cases rest with
  | stop => simpa [yield] using h.operand
  | more op hop a rest =>
    intro l' op' hl' hhead
    simp only [yield, List.cons_append, List.head?_cons, Option.some.injEq,
      SymbolKind.binary.injEq] at hhead
    subst hhead hop
    generalize op.level = l at hl'
    cases l <;> simp only [Level.operand, Category.chain.injEq, reduceCtorEq] at hl' <;>
      subst hl' <;> decide

mutual

/-- **Where a phrase ends, and how it is derived, is determined by the symbols.** -/
theorem Phrase.unique_split : {c : Category} → (p q : Phrase ν c) →
    (ks ks' : List (SymbolKind ν)) → p.yield ++ ks = q.yield ++ ks' → c.Stops ks → c.Stops ks' →
    p = q ∧ ks = ks'
  | _, .chain first rest, .chain first' rest' => by
    intro ks ks' h hs hs'
    simp only [Phrase.yield, List.append_assoc] at h
    obtain ⟨rfl, hrest⟩ := first.unique_split first' _ _ h (rest.stops_operand hs)
      (rest'.stops_operand hs')
    obtain ⟨rfl, hks⟩ := rest.unique_split rest' _ _ hrest hs hs'
    exact ⟨rfl, hks⟩
  | _, .neg a, .neg b => by
    intro ks ks' h _ _
    simp only [Phrase.yield, List.cons_append, List.cons.injEq, true_and] at h
    obtain ⟨rfl, hks⟩ := a.unique_split b _ _ h nofun nofun
    exact ⟨rfl, hks⟩
  | _, .ofAtom a, .ofAtom b => by
    intro ks ks' h _ _
    simp only [Phrase.yield] at h
    obtain ⟨rfl, hks⟩ := a.unique_split b _ _ h nofun nofun
    exact ⟨rfl, hks⟩
  | _, .neg a, .ofAtom b => by
    intro ks ks' h _ _
    simp only [Phrase.yield, List.cons_append] at h
    exact absurd h.symm (b.yield_atom_ne_neg _ _)
  | _, .ofAtom a, .neg b => by
    intro ks ks' h _ _
    simp only [Phrase.yield, List.cons_append] at h
    exact absurd h (a.yield_atom_ne_neg _ _)
  | _, .number v, q => by
    intro ks ks' h _ _
    cases q <;> simp_all [Phrase.yield]
  | _, .param p, q => by
    intro ks ks' h _ _
    cases q <;> simp_all [Phrase.yield]
  | _, .paren e, .paren e' => by
    intro ks ks' h _ _
    simp only [Phrase.yield, List.cons_append, List.append_assoc, List.cons.injEq, true_and] at h
    obtain ⟨rfl, hks⟩ := e.unique_split e' _ _ h (by simp [Category.Stops])
      (by simp [Category.Stops])
    exact ⟨rfl, by simpa using hks⟩
  | _, .call f e, .call f' e' => by
    intro ks ks' h _ _
    simp only [Phrase.yield, List.cons_append, List.append_assoc, List.cons.injEq, true_and,
      SymbolKind.func.injEq] at h
    obtain ⟨rfl, h⟩ := h
    obtain ⟨rfl, hks⟩ := e.unique_split e' _ _ h (by simp [Category.Stops])
      (by simp [Category.Stops])
    exact ⟨rfl, by simpa using hks⟩
  | _, .paren e, .number v => by
    intro ks ks' h _ _
    simp [Phrase.yield] at h
  | _, .paren e, .param p => by
    intro ks ks' h _ _
    simp [Phrase.yield] at h
  | _, .paren e, .call f e' => by
    intro ks ks' h _ _
    simp [Phrase.yield] at h
  | _, .call f e, .number v => by
    intro ks ks' h _ _
    simp [Phrase.yield] at h
  | _, .call f e, .param p => by
    intro ks ks' h _ _
    simp [Phrase.yield] at h
  | _, .call f e, .paren e' => by
    intro ks ks' h _ _
    simp [Phrase.yield] at h

/-- The operations that follow an operand end where the level does. -/
theorem Rest.unique_split : {l : Level} → (p q : Rest ν l) → (ks ks' : List (SymbolKind ν)) →
    p.yield ++ ks = q.yield ++ ks' → (Category.chain l).Stops ks → (Category.chain l).Stops ks' →
    p = q ∧ ks = ks'
  | _, .stop, .stop => by
    intro ks ks' h _ _
    exact ⟨rfl, by simpa [Rest.yield] using h⟩
  | _, .more op hop a rest, .more op' hop' a' rest' => by
    intro ks ks' h hs hs'
    simp only [Rest.yield, List.cons_append, List.append_assoc, List.cons.injEq,
      SymbolKind.binary.injEq] at h
    obtain ⟨rfl, h⟩ := h
    obtain ⟨rfl, hrest⟩ := a.unique_split a' _ _ h (rest.stops_operand hs)
      (rest'.stops_operand hs')
    obtain ⟨rfl, hks⟩ := rest.unique_split rest' _ _ hrest hs hs'
    exact ⟨rfl, hks⟩
  | _, .stop, .more op hop a rest => by
    intro ks ks' h hs _
    simp only [Rest.yield, List.nil_append, List.cons_append] at h
    exact absurd (hs _ op rfl (by rw [h]; rfl)) (by rw [hop]; exact Nat.lt_irrefl _)
  | _, .more op hop a rest, .stop => by
    intro ks ks' h _ hs'
    simp only [Rest.yield, List.nil_append, List.cons_append] at h
    exact absurd (hs' _ op rfl (by rw [← h]; rfl)) (by rw [hop]; exact Nat.lt_irrefl _)

end

/-- **The grammar is unambiguous**: a sequence of symbols has at most one derivation. -/
theorem Phrase.yield_injective {c : Category} {p q : Phrase ν c} (h : p.yield = q.yield) : p = q :=
  (p.unique_split q [] [] (by simpa using h) (by simp [Category.Stops])
    (by simp [Category.Stops])).1

/-- Two phrases, one behind the other, do not make one. -/
theorem Phrase.append_ne_yield {c d : Category} (p : Phrase ν c) (q : Phrase ν d)
    (ks : List (SymbolKind ν)) (r : Phrase ν c) : p.yield ++ (q.yield ++ ks) ≠ r.yield := by
  intro h
  have hstops : c.Stops (q.yield ++ ks) := fun l op _ hop =>
    absurd hop (q.head?_yield_ne_binary ks op)
  obtain ⟨-, hnil⟩ := p.unique_split r _ [] (by rw [h, List.append_nil]) hstops
    (by simp [Category.Stops])
  exact q.yield_ne_nil (List.append_eq_nil_iff.mp hnil).1

end SymbolicCalculus
