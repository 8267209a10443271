/-
# What the stack has to hold

The stack of the parser grows with the nesting of a formula and not with its length.  Between two
parentheses that are both open, at most three operators wait, each looser than the next, and each
with its left operand; above them there are minus signs, and a function may stand in front of the
inner parenthesis.  So the room that a phrase needs is bounded by the depth of its parentheses and
by its longest run of minus signs (`Phrase.need_le_room`), and so is the peak of the stack over a
formula of the grammar (`Expr.peak_le_of_nesting`).
-/
import SymbolicCalculus.Proofs.Brackets
import SymbolicCalculus.Proofs.Parsing.Accept
import SymbolicCalculus.Proofs.Parsing.Peak

namespace SymbolicCalculus

universe u

variable {ν : Type u}

/-! ## 1. Runs of minus signs -/

/-- No run of negations is longer than `k`. -/
def SignsWithin (k : Nat) (ks : List (SymbolKind ν)) : Prop :=
  ∀ n, List.replicate n .neg <:+: ks → n ≤ k

/-- No more than `k` negations follow each other if no run of `k + 1` of them does. -/
theorem signsWithin_of_not_infix {k : Nat} {ks : List (SymbolKind ν)}
    (h : ¬List.replicate (k + 1) .neg <:+: ks) : SignsWithin k ks := by
  intro n hn
  by_contra hlt
  refine h (List.IsInfix.trans ?_ hn)
  obtain ⟨m, rfl⟩ : ∃ m, n = k + 1 + m := Nat.exists_eq_add_of_le (by omega)
  rw [List.replicate_add (k + 1) m]
  exact (List.prefix_append _ _).isInfix

theorem SignsWithin.of_infix {k : Nat} {ks ks' : List (SymbolKind ν)} (h : SignsWithin k ks)
    (hin : ks' <:+: ks) : SignsWithin k ks' :=
  fun n hn => h n (hn.trans hin)

/-! ## 2. The room that a phrase needs -/

/-- The entries that a phrase of the category needs beside its minus signs, if it has no
parentheses: an operand, and for each looser level an operator and what stands in front of it. -/
def Category.room : Category → Nat
  | .chain .sum => 7
  | .chain .product => 5
  | .chain .power => 3
  | .unary => 1
  | .atom => 1

theorem Level.room_chain (l : Level) : (Category.chain l).room = l.operand.room + 2 := by
  cases l <;> rfl

variable {k : Nat}

mutual

/-- **The room that a phrase needs is bounded by its nesting and its runs of minus signs.**  Signs
in front of the phrase continue its own, but only an operand can have signs in front of it. -/
theorem Phrase.need_le_room : {c : Category} → (p : Phrase ν c) → (signs d : Nat) →
    (signs = 0 ∨ Category.unary.inputPrecedence ≤ c.inputPrecedence) →
    NestedWithin d (brackets p.yield) → SignsWithin k (List.replicate signs .neg ++ p.yield) →
    signs + p.need ≤ c.room + k + d * (8 + k)
  | .chain l, .chain first rest => by
    intro signs d hsigns hnested hruns
    obtain rfl : signs = 0 := hsigns.resolve_right (by cases l <;> decide)
    rw [Phrase.yield, brackets_append] at hnested
    rw [Phrase.yield] at hruns
    have hfirst := first.need_le_room 0 d (.inl rfl) hnested.of_append_left
      (hruns.of_infix (List.prefix_append _ _).isInfix)
    have hrest := rest.need_le_room d (hnested.of_append_right first.balanced)
      (hruns.of_infix (List.suffix_append _ _).isInfix)
    rw [Phrase.need, l.room_chain]
    omega
  | _, .neg a => by
    intro signs d _ hnested hruns
    rw [Phrase.yield] at hnested hruns
    -- The sign of the phrase is one more in front of its operand.
    have hmore : List.replicate signs .neg ++ SymbolKind.neg :: a.yield =
        List.replicate (signs + 1) .neg ++ a.yield := by
      rw [List.replicate_succ', List.append_assoc, List.singleton_append]
    rw [hmore] at hruns
    have ha := a.need_le_room (signs + 1) d (.inr (Nat.le_refl _)) hnested hruns
    rw [Phrase.need]
    omega
  | _, .ofAtom a => by
    intro signs d _ hnested hruns
    rw [Phrase.yield] at hnested hruns
    rw [Phrase.need]
    exact a.need_le_room signs d (.inr (by decide)) hnested hruns
  | _, .number v => by
    intro signs d _ _ hruns
    have := hruns signs (List.prefix_append _ _).isInfix
    rw [Phrase.need, Category.room]
    omega
  | _, .param q => by
    intro signs d _ _ hruns
    have := hruns signs (List.prefix_append _ _).isInfix
    rw [Phrase.need, Category.room]
    omega
  | _, .paren e => by
    intro signs d _ hnested hruns
    have hsigns := hruns signs (List.prefix_append _ _).isInfix
    rw [Phrase.yield, brackets_parens] at hnested
    rw [Phrase.yield] at hruns
    obtain ⟨d', rfl, hinner⟩ := hnested.of_nest
    have he := e.need_le_room 0 d' (.inl rfl) hinner
      (hruns.of_infix ⟨List.replicate signs .neg ++ [.openParen], [.closeParen], by simp⟩)
    simp only [Phrase.need, Category.room, Nat.succ_mul] at he ⊢
    omega
  | _, .call f e => by
    intro signs d _ hnested hruns
    have hsigns := hruns signs (List.prefix_append _ _).isInfix
    rw [Phrase.yield, brackets_call] at hnested
    rw [Phrase.yield] at hruns
    obtain ⟨d', rfl, hinner⟩ := hnested.of_nest
    have he := e.need_le_room 0 d' (.inl rfl) hinner (hruns.of_infix
      ⟨List.replicate signs .neg ++ [.func f, .openParen], [.closeParen], by simp⟩)
    simp only [Phrase.need, Category.room, Nat.succ_mul] at he ⊢
    omega

/-- The operations behind the first operand of a chain need room for an operator and what stands in
front of it, and for an operand. -/
theorem Rest.need_le_room : {l : Level} → (r : Rest ν l) → (d : Nat) →
    NestedWithin d (brackets r.yield) → SignsWithin k r.yield →
    r.need ≤ l.operand.room + 2 + k + d * (8 + k)
  | _, .stop => by
    intro d _ _
    rw [Rest.need]
    omega
  | l, .more op hop a rest => by
    intro d hnested hruns
    rw [Rest.yield, brackets_binary, brackets_append] at hnested
    rw [Rest.yield] at hruns
    have ha := a.need_le_room 0 d (.inl rfl) hnested.of_append_left
      (hruns.of_infix ⟨[.binary op], rest.yield, by simp⟩)
    have hrest := rest.need_le_room d (hnested.of_append_right a.balanced)
      (hruns.of_infix ⟨.binary op :: a.yield, [], by simp⟩)
    rw [Rest.need]
    omega

end

/-! ## 3. The peak over formulas -/

section Formulas

variable [Literal ν] {source : String}

/-- The stack never holds more entries than the derivation of the formula needs, and the
sentinel. -/
theorem Expr.peak_le_of_phrase (hclean : (Lexer.ofSource source : Lexer ν).IsClean)
    (p : Phrase ν .expr)
    (hyield : p.yield = (Lexer.ofSource source : Lexer ν).symbols.map Symbol.kind) (limit : Nat) :
    (Parser.ofSource source limit : Parser ν).peak ≤ p.need + 1 := by
  have hparse : parseWithin (p.need + 2) source = .ok p.tree :=
    parseWithin_of_phrase hclean p hyield.symm (Nat.lt_succ_self _)
  have hroom : ¬Overflows (parseWithin (p.need + 2) source : Except ParseError (Expr ν)) := by
    simp [Overflows, hparse]
  have hlt := Parser.peak_ofSource_lt hroom limit
  omega

/-- **What the stack has to hold over a formula depends on its nesting and its runs of minus signs,
and not on its length.**  If parentheses are nested at most `d` deep and no more than `k` minus
signs follow each other, then the stack never holds more than `8 + k + d * (8 + k)` entries, the
sentinel counted, and with any larger capacity the formula is accepted.  So a formula without
parentheses is accepted with the default capacity if it has no run of more than 90 minus signs. -/
theorem Expr.peak_le_of_nesting (hclean : (Lexer.ofSource source : Lexer ν).IsClean)
    (p : Phrase ν .expr)
    (hyield : p.yield = (Lexer.ofSource source : Lexer ν).symbols.map Symbol.kind) :
    (∀ d k, NestedWithin d (brackets p.yield) → SignsWithin k p.yield →
      (∀ limit, (Parser.ofSource source limit : Parser ν).peak ≤ 8 + k + d * (8 + k)) ∧
      ∀ limit, 8 + k + d * (8 + k) < limit → parseWithin limit source = .ok p.tree) ∧
    (.openParen ∉ p.yield → SignsWithin 90 p.yield → parse source = .ok p.tree) := by
  have hneed {d k : Nat} (hnested : NestedWithin d (brackets p.yield))
      (hruns : SignsWithin k p.yield) : p.need + 1 ≤ 8 + k + d * (8 + k) := by
    have := p.need_le_room 0 d (.inl rfl) hnested hruns
    rw [Category.room] at this
    omega
  have haccepted {d k : Nat} (hnested : NestedWithin d (brackets p.yield))
      (hruns : SignsWithin k p.yield) {limit : Nat} (hlimit : 8 + k + d * (8 + k) < limit) :
      parseWithin limit source = .ok p.tree :=
    parseWithin_of_phrase hclean p hyield.symm (Nat.lt_of_le_of_lt (hneed hnested hruns) hlimit)
  refine ⟨fun d k hnested hruns => ⟨fun limit => ?_, fun limit => haccepted hnested hruns⟩, ?_⟩
  · exact Nat.le_trans (peak_le_of_phrase hclean p hyield limit) (hneed hnested hruns)
  · intro hparens hruns
    exact haccepted (nestedWithin_zero hparens) hruns (by decide)

/-- With a call in it, a formula brings the stack up to the bound. -/
theorem Expr.peak_le_of_nesting_call :
    let source := "a+b*c^-sin(a+b*c^-d)"
    let kinds := (Lexer.ofSource source : Lexer Float).symbols.map Symbol.kind
    (Lexer.ofSource source : Lexer Float).IsClean ∧ (∃ p : Phrase Float .expr, p.yield = kinds) ∧
      NestedWithin 1 (brackets kinds) ∧ SignsWithin 1 kinds ∧
      (∀ limit, (Parser.ofSource source limit : Parser Float).peak ≤ 18) ∧
      (Parser.ofSource source 100 : Parser Float).peak = 18 ∧
      ∃ e : Expr Float, parseWithin 19 source = .ok e := by
  intro source kinds
  let around (u : Phrase Float .unary) : Phrase Float .expr :=
    .chain (.chain (.chain (.ofAtom (.param ⟨0⟩)) .stop) .stop)
      (.more .add rfl (.chain (.chain (.ofAtom (.param ⟨1⟩)) .stop)
        (.more .mul rfl (.chain (.ofAtom (.param ⟨2⟩)) (.more .pow rfl u .stop)) .stop)) .stop)
  let p := around (.neg (.ofAtom (.call .sin (around (.neg (.ofAtom (.param ⟨3⟩)))))))
  have hclean : (Lexer.ofSource source : Lexer Float).IsClean :=
    Lexer.isClean_of_all (by decide +kernel)
  have hyield : p.yield = kinds := by
    change p.yield = (Lexer.ofSource "a+b*c^-sin(a+b*c^-d)" : Lexer Float).symbols.map Symbol.kind
    cbv
  have hnested : NestedWithin 1 (brackets p.yield) := by
    decide
  have hruns : SignsWithin 1 p.yield := by
    refine signsWithin_of_not_infix ?_
    simp [p, around, Phrase.yield, Rest.yield, List.infix_cons_iff]
  obtain ⟨hpeak, hparse⟩ := (peak_le_of_nesting hclean p hyield).1 1 1 hnested hruns
  refine ⟨hclean, ⟨p, hyield⟩, hyield ▸ hnested, hyield ▸ hruns, hpeak, ?_, p.tree,
    hparse 19 (by decide)⟩
  change (Parser.ofSource "a+b*c^-sin(a+b*c^-d)" 100 : Parser Float).peak = 18
  cbv

end Formulas

end SymbolicCalculus
