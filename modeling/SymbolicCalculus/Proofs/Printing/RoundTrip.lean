/-
# Printing and reading back

What the text of an expression is read as (`Expr.reread`) is the expression itself as long as no
negation has an infix operation as its operand (`Expr.negationsTight`).  Where one has, the minus
sign goes to a smaller operand, so that the operands of the negations become smaller on the whole:
`Expr.negatedNodes` counts their nodes, and the count does not depend on the order of operands.  So
the tree read back then differs from the expression even up to that order (`Expr.reread_beq_iff`).

Literals have to be written as they are read, which holds for every number that is written as an
unsigned decimal denoting it (`Expr.Legible`).
-/
import SymbolicCalculus.Expr.Equality
import SymbolicCalculus.Expr.Eval
import SymbolicCalculus.Proofs.Lexing.Readings
import SymbolicCalculus.Proofs.Printing.Reread
import SymbolicCalculus.Proofs.Sign

namespace SymbolicCalculus

namespace Expr

universe u

variable {ν : Type u}

/-! ## 1. Negations of infix operations -/

/-- Whether the expression is an infix operation. -/
def isBinary : Expr ν → Bool
  | binary _ _ _ => true
  | _ => false

/-- Whether no negation has an infix operation as its operand. -/
def negationsTight : Expr ν → Bool
  | number _ | param _ => true
  | neg a => !a.isBinary && a.negationsTight
  | call _ a => a.negationsTight
  | binary _ a b => a.negationsTight && b.negationsTight

/-- The literals of the expression, from left to right. -/
def literals : Expr ν → List ν
  | number v => [v]
  | param _ => []
  | unary _ a => a.literals
  | binary _ a b => a.literals ++ b.literals

/-- The expression with a tree in place of every literal. -/
def replaceLiterals (f : ν → Expr ν) : Expr ν → Expr ν
  | number v => f v
  | param p => param p
  | unary op a => unary op (a.replaceLiterals f)
  | binary op a b => binary op (a.replaceLiterals f) (b.replaceLiterals f)

/-- What stands in place of a literal depends on the literals of the expression only. -/
theorem replaceLiterals_congr {e : Expr ν} {f g : ν → Expr ν} (h : ∀ v ∈ e.literals, f v = g v) :
    e.replaceLiterals f = e.replaceLiterals g := by
  induction e with
  | number v => exact h v (List.mem_singleton_self v)
  | param p => rfl
  | unary op a ih => rw [replaceLiterals, replaceLiterals, ih h]
  | binary op a b iha ihb =>
    rw [replaceLiterals, replaceLiterals, iha fun v hv => h v (List.mem_append_left _ hv),
      ihb fun v hv => h v (List.mem_append_right _ hv)]

theorem replaceLiterals_number (e : Expr ν) : e.replaceLiterals number = e := by
  induction e with
  | number v => rfl
  | param p => rfl
  | unary op a ih => rw [replaceLiterals, ih]
  | binary op a b iha ihb => rw [replaceLiterals, iha, ihb]

/-- The number of nodes of the operands of all negations together. -/
def negatedNodes : Expr ν → Nat
  | number _ | param _ => 0
  | neg a => a.negatedNodes + a.nodes
  | call _ a => a.negatedNodes
  | binary _ a b => a.negatedNodes + b.negatedNodes

section Equality

variable [Arithmetic ν] {a b : Expr ν}

/-- Structurally equal expressions have equally many nodes, in all and under negations. -/
theorem nodes_eq_of_beq (h : (a == b) = true) :
    a.nodes = b.nodes ∧ a.negatedNodes = b.negatedNodes := by
  refine induction_of_beq (P := fun a b => a.nodes = b.nodes ∧ a.negatedNodes = b.negatedNodes)
    (fun _ => ⟨rfl, rfl⟩) (fun _ => ⟨rfl, rfl⟩) ?_ ?_ ?_ h
  · rintro op a a' ⟨hnodes, hnegated⟩
    cases op <;> simp [nodes, negatedNodes, hnodes, hnegated]
  · rintro op a a' b b' ha hb
    simp only [nodes, negatedNodes]
    omega
  · rintro op - a a' b b' ha hb
    simp only [nodes, negatedNodes]
    omega

end Equality

/-! ## 2. Legible literals -/

variable [Literal ν]

/-- The literals are written as decimals that denote them. -/
def Legible (e : Expr ν) : Prop := ∀ v ∈ e.literals, ofForm (Literal.form v) = number v

namespace Legible

variable {op : BinaryOp} {a b : Expr ν}

theorem operand {op : UnaryOp} (h : (unary op a).Legible) : a.Legible := h

theorem lhs (h : (binary op a b).Legible) : a.Legible :=
  fun v hv => h v (List.mem_append_left _ hv)

theorem rhs (h : (binary op a b).Legible) : b.Legible :=
  fun v hv => h v (List.mem_append_right _ hv)

theorem number {v : ν} (h : (number v).Legible) : ofForm (Literal.form v) = .number v :=
  h v (List.mem_singleton_self v)

end Legible

/-! ## 3. Tight negations are read back -/

/-- In front of anything but an infix operation, a minus sign is a negation of it. -/
theorem rereadAt_of_not_isBinary {e : Expr ν} (h : e.isBinary = false) (minus : Bool)
    (outer : Precedence) : e.rereadAt minus outer = signed minus (e.rereadAt false outer) := by
  cases e with
  | binary op a b => exact absurd h (by simp [isBinary])
  | unary op a => cases op <;> simp [rereadAt, signed]
  | _ => simp [rereadAt, signed]

/-- **If no negation has an infix operation as its operand, the expression is read back**, with the
tree of its form in place of every literal. -/
theorem rereadAt_eq_replaceLiterals {e : Expr ν} (h : e.negationsTight = true)
    (outer : Precedence) :
    e.rereadAt false outer = e.replaceLiterals fun v => ofForm (Literal.form v) := by
  induction e generalizing outer with
  | number v => rfl
  | param p => rfl
  | unary op a ih =>
    cases op with
    | neg =>
      simp only [negationsTight, Bool.and_eq_true, Bool.not_eq_true'] at h
      rw [rereadAt, rereadAt_of_not_isBinary h.1, ih h.2]
      rfl
    | call f =>
      rw [rereadAt, ih h]
      rfl
  | binary op a b iha ihb =>
    simp only [negationsTight, Bool.and_eq_true] at h
    rw [rereadAt, iha h.1, ihb h.2]
    exact ite_self _

/-- An expression with legible literals is read back as it is. -/
theorem rereadAt_of_negationsTight {e : Expr ν} (hl : e.Legible) (h : e.negationsTight = true)
    (outer : Precedence) : e.rereadAt false outer = e := by
  rw [rereadAt_eq_replaceLiterals h, replaceLiterals_congr hl, replaceLiterals_number]

/-! ## 4. Loose negations shrink -/

omit [Literal ν] in
theorem nodes_signed (minus : Bool) (e : Expr ν) :
    (signed minus e).nodes = e.nodes + minus.toNat := by
  cases minus <;> simp [signed, nodes]

omit [Literal ν] in
theorem negatedNodes_signed (minus : Bool) (e : Expr ν) :
    (signed minus e).negatedNodes = e.negatedNodes + minus.toNat * e.nodes := by
  cases minus <;> simp [signed, negatedNodes]

/-- Rereading keeps the number of nodes, but for the sign in front. -/
theorem nodes_rereadAt {e : Expr ν} (hl : e.Legible) (minus : Bool) (outer : Precedence) :
    (e.rereadAt minus outer).nodes = e.nodes + minus.toNat := by
  induction e generalizing minus outer with
  | number v => rw [rereadAt, hl.number, nodes_signed]
  | param p => rw [rereadAt, nodes_signed]
  | unary op a ih =>
    cases op with
    | neg =>
      rw [rereadAt, nodes_signed, ih hl.operand]
      rfl
    | call f =>
      rw [rereadAt, nodes_signed, nodes, ih hl.operand]
      rfl
  | binary op a b iha ihb =>
    rw [rereadAt]
    split
    · rw [nodes_signed, nodes, iha hl.lhs, ihb hl.rhs]
      rfl
    · rw [nodes, iha hl.lhs, ihb hl.rhs, nodes, Bool.toNat_false]
      omega

theorem nodes_rereadAt_false {e : Expr ν} (hl : e.Legible) (outer : Precedence) :
    (e.rereadAt false outer).nodes = e.nodes :=
  nodes_rereadAt hl false outer

/-- Rereading never enlarges what the negations stand in front of, but for the sign in front. -/
theorem negatedNodes_rereadAt_le {e : Expr ν} (hl : e.Legible) (minus : Bool)
    (outer : Precedence) :
    (e.rereadAt minus outer).negatedNodes ≤ e.negatedNodes + minus.toNat * e.nodes := by
  induction e generalizing minus outer with
  | number v =>
    rw [rereadAt, hl.number]
    exact Nat.le_of_eq (negatedNodes_signed minus _)
  | param p =>
    rw [rereadAt]
    exact Nat.le_of_eq (negatedNodes_signed minus _)
  | unary op a ih =>
    cases op with
    | neg =>
      have := ih hl.operand true .any
      rw [rereadAt, negatedNodes_signed, nodes_rereadAt hl.operand, negatedNodes, nodes]
      rw [Bool.toNat_true] at this ⊢
      omega
    | call f =>
      have := ih hl.operand false .any
      rw [rereadAt, negatedNodes_signed, negatedNodes, negatedNodes, nodes,
        nodes_rereadAt_false hl.operand, nodes]
      rw [Bool.toNat_false] at this
      omega
  | binary op a b iha ihb =>
    have hb := ihb hl.rhs false op.precedence.tighter
    rw [Bool.toNat_false] at hb
    rw [rereadAt, negatedNodes, nodes]
    split
    · have ha := iha hl.lhs false op.precedence
      rw [Bool.toNat_false] at ha
      rw [negatedNodes_signed, negatedNodes, nodes, nodes_rereadAt_false hl.lhs,
        nodes_rereadAt_false hl.rhs]
      omega
    · have ha := iha hl.lhs minus op.precedence
      rw [negatedNodes]
      cases minus <;> simp only [Bool.toNat_true, Bool.toNat_false] at ha ⊢ <;> omega

/-- A minus sign in front of an infix operation goes to a smaller operand. -/
theorem negatedNodes_rereadAt_lt_of_isBinary {e : Expr ν} (hl : e.Legible)
    (h : e.isBinary = true) :
    (e.rereadAt true .any).negatedNodes < e.negatedNodes + e.nodes := by
  cases e with
  | binary op a b =>
    have ha := negatedNodes_rereadAt_le hl.lhs true op.precedence
    have hb := negatedNodes_rereadAt_le hl.rhs false op.precedence.tighter
    rw [Bool.toNat_true] at ha
    rw [Bool.toNat_false] at hb
    have hany : ¬op.precedence.level < Precedence.any.level := Nat.not_lt_zero _
    rw [rereadAt, if_neg hany, negatedNodes, negatedNodes, nodes]
    omega
  | _ => exact absurd h (by simp [isBinary])

/-- If a negation has an infix operation as its operand, rereading shrinks what the negations stand
in front of. -/
theorem negatedNodes_rereadAt_lt {e : Expr ν} (hl : e.Legible) (h : e.negationsTight = false)
    (minus : Bool) (outer : Precedence) :
    (e.rereadAt minus outer).negatedNodes < e.negatedNodes + minus.toNat * e.nodes := by
  induction e generalizing minus outer with
  | number v => exact absurd h (by simp [negationsTight])
  | param p => exact absurd h (by simp [negationsTight])
  | unary op a ih =>
    cases op with
    | neg =>
      rw [rereadAt, negatedNodes_signed, nodes_rereadAt hl.operand, negatedNodes, nodes,
        Bool.toNat_true]
      simp only [negationsTight, Bool.and_eq_false_iff, Bool.not_eq_false'] at h
      rcases h with h | h
      · have := negatedNodes_rereadAt_lt_of_isBinary hl.operand h
        omega
      · have := ih hl.operand h true .any
        rw [Bool.toNat_true] at this
        omega
    | call f =>
      have := ih hl.operand h false .any
      rw [rereadAt, negatedNodes_signed, negatedNodes, negatedNodes, nodes,
        nodes_rereadAt_false hl.operand, nodes]
      rw [Bool.toNat_false] at this
      omega
  | binary op a b iha ihb =>
    have ha := negatedNodes_rereadAt_le hl.lhs false op.precedence
    have hb := negatedNodes_rereadAt_le hl.rhs false op.precedence.tighter
    have ha' := negatedNodes_rereadAt_le hl.lhs minus op.precedence
    -- One of the operands shrinks, whatever stands in front of it.
    have hlt : (∀ minus, (a.rereadAt minus op.precedence).negatedNodes <
          a.negatedNodes + minus.toNat * a.nodes) ∨
        (b.rereadAt false op.precedence.tighter).negatedNodes < b.negatedNodes := by
      simp only [negationsTight, Bool.and_eq_false_iff] at h
      rcases h with h | h
      · exact .inl fun minus => iha hl.lhs h minus op.precedence
      · exact .inr (by simpa using ihb hl.rhs h false op.precedence.tighter)
    rw [Bool.toNat_false] at ha hb
    rw [rereadAt]
    split
    · rw [negatedNodes_signed, nodes, nodes_rereadAt_false hl.lhs, nodes_rereadAt_false hl.rhs,
        negatedNodes, negatedNodes, nodes]
      rcases hlt with hlt | hlt
      · have := hlt false
        rw [Bool.toNat_false] at this
        omega
      · omega
    · rw [negatedNodes, negatedNodes, nodes]
      cases minus <;> simp only [Bool.toNat_true, Bool.toNat_false] at ha' ⊢
      · rcases hlt with hlt | hlt
        · have := hlt false
          rw [Bool.toNat_false] at this
          omega
        · omega
      · omega

/-- **The text is read as a structurally equal expression exactly if no negation has an infix
operation as its operand.** -/
theorem reread_beq_iff [Arithmetic ν] {e : Expr ν} (hl : e.Legible) :
    (e.reread == e) = true ↔ e.negationsTight = true := by
  constructor
  · intro h
    by_contra htight
    have hlt := negatedNodes_rereadAt_lt hl (Bool.eq_false_iff.mpr htight) false .any
    rw [Bool.toNat_false, Nat.zero_mul, Nat.add_zero] at hlt
    exact absurd (nodes_eq_of_beq h).2 (Nat.ne_of_lt hlt)
  · intro h
    rw [reread, rereadAt_of_negationsTight hl h]
    exact beq_self e

end Expr

/-! ## 5. The literals of formulas -/

mutual

/-- The literals of a formula are numbers among its symbols. -/
theorem Phrase.mem_yield_of_mem_literals {ν : Type u} : {c : Category} → (p : Phrase ν c) →
    ∀ v ∈ p.tree.literals, .number v ∈ p.yield
  | _, .chain first rest => by
    intro v h
    rw [Phrase.yield]
    rcases rest.mem_yield_of_mem_literals first.tree v h with h | h
    · exact List.mem_append_left _ (first.mem_yield_of_mem_literals v h)
    · exact List.mem_append_right _ h
  | _, .neg a => by
    intro v h
    rw [Phrase.yield]
    exact List.mem_cons_of_mem _ (a.mem_yield_of_mem_literals v h)
  | _, .ofAtom a => by
    intro v h
    rw [Phrase.yield]
    exact a.mem_yield_of_mem_literals v h
  | _, .number w => by
    intro v h
    obtain rfl : v = w := by simpa [Phrase.tree, Expr.literals] using h
    exact List.mem_singleton_self _
  | _, .param p => by
    intro v h
    exact absurd h (by simp [Phrase.tree, Expr.literals])
  | _, .paren e => by
    intro v h
    rw [Phrase.yield]
    exact List.mem_cons_of_mem _ (List.mem_append_left _ (e.mem_yield_of_mem_literals v h))
  | _, .call f e => by
    intro v h
    rw [Phrase.yield]
    exact List.mem_cons_of_mem _ (List.mem_cons_of_mem _
      (List.mem_append_left _ (e.mem_yield_of_mem_literals v h)))

/-- The literals of a chain are those of the first operand and numbers among its other symbols. -/
theorem Rest.mem_yield_of_mem_literals {ν : Type u} : {l : Level} → (r : Rest ν l) →
    (lhs : Expr ν) → ∀ v ∈ (r.graft lhs).literals, v ∈ lhs.literals ∨ .number v ∈ r.yield
  | _, .stop => by
    intro lhs v h
    exact .inl h
  | _, .more op hop a rest => by
    intro lhs v h
    rw [Rest.yield]
    rcases rest.mem_yield_of_mem_literals _ v h with h | h
    · rcases List.mem_append.mp h with h | h
      · exact .inl h
      · exact .inr (List.mem_cons_of_mem _
          (List.mem_append_left _ (a.mem_yield_of_mem_literals v h)))
    · exact .inr (List.mem_cons_of_mem _ (List.mem_append_right _ h))

end

/-- Whether the form is that of a finite number. -/
def WrittenForm.isFinite : WrittenForm → Bool
  | finite _ _ => true
  | _ => false

section Numbers

variable {ν : Type u} {v : ν}

variable [Literal ν]

/-- The digits that the number is written with, if it is written without a sign, denote it. -/
def ReadsBack (v : ν) : Prop :=
  ∀ d : Decimal, Literal.form v = .finite false d →
    Literal.ofDecimal (Decimal.ofLexeme d.positional) = v

/-- A token that is a number is the number that its decimal denotes. -/
theorem SymbolKind.exists_decimal_of_ofToken? {b : Bool} {t : Token}
    (h : ofToken? b t = some (number v)) : ∃ d, Literal.ofDecimal d = v := by
  unfold ofToken? at h
  cases hkind : t.kind with
  | number => exact ⟨_, by simpa [hkind] using h⟩
  | name =>
    simp only [hkind, ofName?] at h
    split at h
    · obtain ⟨p, -, hp⟩ := Option.map_eq_some_iff.mp h
      exact absurd hp (by simp)
    · obtain ⟨f, -, hf⟩ := Option.map_eq_some_iff.mp h
      exact absurd hf (by simp)
  | sub => cases b <;> simp [hkind] at h
  | _ => simp [hkind] at h

/-- The numbers among the symbols of a formula are ones that decimals denote. -/
theorem Lexer.exists_decimal_of_mem_results {l : Lexer ν} (hheld : l.held = none) {s : Symbol ν}
    (hs : .ok s ∈ l.results) (hv : s.kind = .number v) : ∃ d, Literal.ofDecimal d = v := by
  rcases gives_of_mem_results hheld hs with hend | ⟨r, -, b, hgives⟩
  · obtain rfl := Except.ok.inj hend
    exact absurd hv (by simp [endSymbol])
  · cases hgives with
    | @symbol t along k harc hk =>
      obtain rfl : k = .number v := hv
      exact SymbolKind.exists_decimal_of_ofToken? hk
    | joined harc hname hf => exact absurd hv (by simp)

/-- The literals of a parsed formula are numbers that decimals denote. -/
theorem Expr.exists_decimal_of_parse {source : String} {limit : Nat} {e : Expr ν}
    (h : parseWithin limit source = .ok e) (hv : v ∈ e.literals) :
    ∃ d, Literal.ofDecimal d = v := by
  obtain ⟨-, p, hyield, rfl⟩ := Parser.exists_phrase_of_run h
  have hmem := p.mem_yield_of_mem_literals v hv
  rw [hyield] at hmem
  obtain ⟨s, hs, hkind⟩ := List.mem_map.mp hmem
  exact Lexer.exists_decimal_of_mem_results rfl (Lexer.mem_results_of_mem_symbols hs) hkind

end Numbers

/-! ## 6. Reading back what was parsed -/

namespace Expr

variable {source : String} {limit : Nat} {e : Expr Float}

/-- The literals of a parsed formula are legible, if they are finite and their digits denote
them. -/
theorem legible_of_parse (h : parseWithin limit source = .ok e)
    (hfinite : ∀ v ∈ e.literals, (Literal.form v).isFinite = true)
    (hread : ∀ v ∈ e.literals, ReadsBack v) : e.Legible := by
  intro v hv
  obtain ⟨d, rfl⟩ := exists_decimal_of_parse h hv
  have hform := hfinite _ hv
  have hback := hread _ hv
  cases hf : Literal.form (Literal.ofDecimal d : Float) with
  | nan => exact absurd hform (by simp [hf, WrittenForm.isFinite])
  | infinite negative => exact absurd hform (by simp [hf, WrittenForm.isFinite])
  | finite negative m =>
    cases negative with
    | true => exact absurd hf (Binary64.form_ofDecimal_ne d m)
    | false => exact congrArg number (hback m hf)

/-- **What was parsed is read back from its text exactly if no negation has an infix operation as
its operand.**  Parsing the text always succeeds if there is room for its symbols; the tree that is
found is structurally equal to the parsed one just in that case, and then it is the same tree and
has the same value in every context.  The literals have to be finite, and written with digits that
denote them. -/
theorem parseWithin_text_of_parse {limit' : Nat} (h : parseWithin limit source = .ok e)
    (hfinite : ∀ v ∈ e.literals, (Literal.form v).isFinite = true)
    (hread : ∀ v ∈ e.literals, ReadsBack v)
    (hlimit : (Lexer.ofSource e.text : Lexer Float).symbols.length + 1 < limit') :
    ∃ e' : Expr Float, parseWithin limit' e.text = .ok e' ∧
      ((e' == e) = true ↔ e.negationsTight = true) ∧
      (e.negationsTight = true → e' = e ∧ ∀ c : Context Float, e'.eval c = e.eval c) := by
  have hl := legible_of_parse h hfinite hread
  refine ⟨e.reread, parseWithin_text e hlimit, reread_beq_iff hl, fun htight => ?_⟩
  have hsame : e.reread = e := rereadAt_of_negationsTight hl htight .any
  exact ⟨hsame, fun c => by rw [hsame]⟩

/-- A negation in front of a parameter is read back. -/
theorem parseWithin_text_neg_mul :
    let e : Expr Float := .mul (.neg (.param ⟨23⟩)) (.ofDigits ['2'])
    parseWithin 100 "-x*2" = .ok e ∧ (∀ v ∈ e.literals, (Literal.form v).isFinite = true) ∧
      (∀ v ∈ e.literals, ReadsBack v) ∧
      (Lexer.ofSource e.text : Lexer Float).symbols.length + 1 < 100 ∧
      parseWithin 100 e.text = .ok e := by
  intro e
  have hparse {ν : Type} [Literal ν] : parseWithin 100 "-x*2" =
      .ok (.mul (.neg (.param ⟨23⟩)) (.ofDigits ['2']) : Expr ν) := by
    cbv
  have hfinite : ∀ v ∈ e.literals, (Literal.form v).isFinite = true := by
    decide +kernel
  have hform : Literal.form (Literal.ofDecimal (Decimal.ofLexeme ['2']) : Float) =
      .finite false ⟨2, 0⟩ := by
    decide +kernel
  have hread : ∀ v ∈ e.literals, ReadsBack v := by
    intro v hv d hd
    obtain rfl := List.mem_singleton.mp hv
    obtain rfl : ⟨2, 0⟩ = d := by simpa [hform] using hd
    rfl
  have hlimit : (Lexer.ofSource e.text : Lexer Float).symbols.length + 1 < 100 := by
    decide +kernel
  obtain ⟨e', htext, -, hsame⟩ := parseWithin_text_of_parse hparse hfinite hread hlimit
  obtain ⟨rfl, -⟩ := hsame rfl
  exact ⟨hparse, hfinite, hread, hlimit, htext⟩

/-- A negation in front of a sum is not: the minus sign goes to the first operand of the sum, and
the value changes. -/
theorem parseWithin_text_neg_add :
    let e : Expr Float := .neg (.add (.param ⟨23⟩) (.param ⟨24⟩))
    let e' : Expr Float := .add (.neg (.param ⟨23⟩)) (.param ⟨24⟩)
    parse "-(x+y)" = .ok e ∧ e.literals = [] ∧
      (Lexer.ofSource e.text : Lexer Float).symbols.length + 1 < 100 ∧
      parseWithin 100 e.text = .ok e' ∧ (e' == e) = false ∧
      let c : Context Float := Context.zero.set ⟨24⟩ 1
      e.eval c = -1 ∧ e'.eval c = 1 := by
  intro e e'
  have htext : e.text = "(-x+y)" := by decide +kernel
  refine ⟨by cbv, rfl, by decide +kernel, ?_, by decide +kernel, by decide +kernel⟩
  rw [htext]
  cbv

end Expr

end SymbolicCalculus
