/-
# What the text of an expression is read as

The text of every expression is a formula, but not always one of the same tree: a negation is
written as a minus sign in front of its operand, and in front of an infix operation the sign takes
only the leftmost operand of it.  `Expr.rereadAt` is the tree that the text is read as, and
`Expr.derives_charsAt` derives it from the text.  Wherever the sign goes, no parameter is lost and
none is added (`Expr.parseWithin_text_contains`).
-/
import SymbolicCalculus.Proofs.Parsing.Accept
import SymbolicCalculus.Proofs.Printing.Reading

namespace SymbolicCalculus

universe u

variable {ν : Type u} [Literal ν]

/-! ## 1. The tree that a text is read as -/

namespace Expr

/-- The literal that digits denote. -/
def ofDigits (cs : List Char) : Expr ν := number (Literal.ofDecimal (Decimal.ofLexeme cs))

/-- The tree that a written number is read as. -/
def ofForm : WrittenForm → Expr ν
  | .nan => div (ofDigits ['0']) (ofDigits ['0'])
  | .infinite false => div (ofDigits ['1']) (ofDigits ['0'])
  | .infinite true => neg (div (ofDigits ['1']) (ofDigits ['0']))
  | .finite false d => ofDigits d.positional
  | .finite true d => neg (ofDigits d.positional)

/-- The expression behind a minus sign, if there is one. -/
def signed (minus : Bool) (e : Expr ν) : Expr ν := if minus then neg e else e

/-- The tree that the text of the expression is read as, standing where at least the precedence
`outer` is asked for and, if `minus` says so, behind a minus sign. -/
def rereadAt (minus : Bool) (outer : Precedence) : Expr ν → Expr ν
  | number v => signed minus (ofForm (Literal.form v))
  | param p => signed minus (param p)
  | neg a => signed minus (rereadAt true .any a)
  | call f a => signed minus (call f (rereadAt false .any a))
  | binary op a b =>
    if op.precedence.level < outer.level then
      signed minus (binary op (rereadAt false op.precedence a)
        (rereadAt false op.precedence.tighter b))
    else
      -- The sign goes to the leftmost operand.
      binary op (rereadAt minus op.precedence a) (rereadAt false op.precedence.tighter b)

/-- The tree that the text of the expression is read as. -/
def reread (e : Expr ν) : Expr ν := e.rereadAt false .any

end Expr

/-! ## 2. Categories of printed expressions -/

/-- The category of what is written where a precedence is asked for. -/
def Precedence.category : Precedence → Category
  | any | term => .expr
  | factor => .term
  | pow => .power
  | atom => .unary

/-- A unary phrase can stand wherever an operand can. -/
theorem Precedence.category_le_unary (outer : Precedence) :
    outer.category.inputPrecedence ≤ Category.unary.inputPrecedence := by
  cases outer <;> decide

/-- The operand of the same precedence is the chain that the operator continues. -/
theorem BinaryOp.level_le_category (op : BinaryOp) :
    (Category.chain op.level).inputPrecedence ≤ op.precedence.category.inputPrecedence := by
  cases op <;> decide

/-- The operand of the next tighter precedence is one of the operator's level. -/
theorem BinaryOp.operand_le_category (op : BinaryOp) :
    op.level.operand.inputPrecedence ≤ op.precedence.tighter.category.inputPrecedence := by
  cases op <;> decide

/-- Every infix operation is a formula. -/
theorem BinaryOp.expr_le_level (op : BinaryOp) :
    Category.expr.inputPrecedence ≤ (Category.chain op.level).inputPrecedence := by
  cases op <;> decide

/-- Where no parentheses are needed, the whole chain can stand. -/
theorem BinaryOp.category_le_level {op : BinaryOp} {outer : Precedence}
    (h : ¬op.precedence.level < outer.level) :
    outer.category.inputPrecedence ≤ (Category.chain op.level).inputPrecedence := by
  cases op <;> cases outer <;> revert h <;> decide

/-! ## 3. The text is a formula -/

/-- The minus sign, if there is one. -/
def signChars (minus : Bool) : List Char := if minus then ['-'] else []

namespace Expr

/-- The text, where an operand is expected, is a phrase of the category with the tree. -/
def Derives (c : Category) (cs : List Char) (e : Expr ν) : Prop :=
  ∃ p : Phrase ν c, p.tree = e ∧ Reads true cs p.yield false

namespace Derives

variable {c : Category} {cs cs' : List Char} {e a b : Expr ν}

theorem widen (h : Derives c cs e) (d : Category) (hd : d.inputPrecedence ≤ c.inputPrecedence) :
    Derives d cs e := by
  obtain ⟨p, rfl, hreads⟩ := h
  obtain ⟨q, hq, hqt⟩ := p.widen d hd
  exact ⟨q, hqt, by rwa [hq]⟩

/-- Parentheses make an atom of every phrase. -/
theorem paren (h : Derives .expr cs e) : Derives .atom ('(' :: cs ++ [')']) e := by
  obtain ⟨p, rfl, hreads⟩ := h
  exact ⟨.paren p, by rw [Phrase.tree], by rw [Phrase.yield]; exact hreads.parens true⟩

/-- A function in front of parentheses is a call. -/
theorem call (f : Func) (h : Derives .expr cs e) :
    Derives .atom (f.name.toList ++ '(' :: cs ++ [')']) (.call f e) := by
  obtain ⟨p, rfl, hreads⟩ := h
  refine ⟨.call f p, by rw [Phrase.tree], ?_⟩
  have hcall := (Reads.func true f).append (hreads.parens false) fun rest _ =>
    Delimited.cons (by decide) _
  simpa [Phrase.yield] using hcall

/-- A minus sign in front of an atom is a negation. -/
theorem signed (h : Derives .atom cs e) (minus : Bool) (outer : Precedence) :
    Derives outer.category (signChars minus ++ cs) (e.signed minus) := by
  obtain ⟨p, rfl, hreads⟩ := h
  refine widen ?_ outer.category outer.category_le_unary
  cases minus with
  | false => exact ⟨.ofAtom p, by rw [Phrase.tree]; rfl, by rw [Phrase.yield]; exact hreads⟩
  | true =>
    refine ⟨.neg (.ofAtom p), by rw [Phrase.tree, Phrase.tree]; rfl, ?_⟩
    rw [Phrase.yield, Phrase.yield]
    exact Reads.sign rfl (fun _ => rfl) hreads

/-- An operator between its operands is an infix operation. -/
theorem binary (op : BinaryOp) (ha : Derives (.chain op.level) cs a)
    (hb : Derives op.level.operand cs' b) :
    Derives (.chain op.level) (cs ++ op.sign :: cs') (.binary op a b) := by
  obtain ⟨p, rfl, hp⟩ := ha
  obtain ⟨q, rfl, hq⟩ := hb
  obtain ⟨r, hr, hrt⟩ := p.exists_binary q
  refine ⟨r, hrt, ?_⟩
  rw [hr]
  have hop : Reads false (op.sign :: cs') (.binary op :: q.yield) false := by
    cases op <;> exact Reads.sign rfl (fun _ => rfl) hq
  refine hp.append hop fun rest _ => ?_
  cases op <;> exact Delimited.cons (by decide) _

/-- A decimal is a number. -/
theorem positional (d : Decimal) : Derives .atom d.positional (ofDigits d.positional : Expr ν) :=
  ⟨.number _, by rw [Phrase.tree]; rfl, by rw [Phrase.yield]; exact Reads.positional true d⟩

/-- A digit is a number. -/
theorem digit {c : Char} (hc : c.isDigit = true) : Derives .atom [c] (ofDigits [c] : Expr ν) := by
  refine ⟨.number _, by rw [Phrase.tree]; rfl, ?_⟩
  rw [Phrase.yield]
  refine Reads.number true (List.cons_ne_nil c []) (fun x hx => ?_) (.inl rfl)
  rwa [List.mem_singleton.mp hx]

/-- The quotient of two digits, in parentheses. -/
theorem quotient {c d : Char} (hc : c.isDigit = true) (hd : d.isDigit = true) :
    Derives .atom ['(', c, '/', d, ')'] (div (ofDigits [c]) (ofDigits [d]) : Expr ν) := by
  have hlhs := (digit (ν := ν) hc).widen (.chain BinaryOp.div.level) (by decide)
  have hrhs := (digit (ν := ν) hd).widen BinaryOp.div.level.operand (by decide)
  exact ((hlhs.binary .div hrhs).widen .expr (by decide)).paren

/-- A minus sign in front of an atom, in parentheses, is a negation. -/
theorem negated (h : Derives .atom cs e) : Derives .atom ('(' :: '-' :: cs ++ [')']) (neg e) :=
  (h.signed true .any).paren

/-- A written number is read as the tree of its form. -/
theorem form (w : WrittenForm) : Derives .atom w.formulaChars (ofForm w : Expr ν) := by
  match w with
  | .nan => exact quotient (by decide) (by decide)
  | .infinite false => exact quotient (by decide) (by decide)
  | .infinite true => exact negated (quotient (by decide) (by decide))
  | .finite false d => exact positional d
  | .finite true d => exact negated (positional d)

/-- A parameter is an atom. -/
theorem param (p : Param) : Derives .atom [p.char] (Expr.param p : Expr ν) :=
  ⟨.param p, by rw [Phrase.tree], by rw [Phrase.yield]; exact Reads.param true p⟩

end Derives

/-- **The text of every expression is a formula**: wherever it stands, it has a derivation, and the
tree of the derivation is `rereadAt`. -/
theorem derives_charsAt (e : Expr ν) (minus : Bool) (outer : Precedence) :
    Derives outer.category (signChars minus ++ e.charsAt outer) (e.rereadAt minus outer) := by
  induction e generalizing minus outer with
  | number v => exact (Derives.form (Literal.form v)).signed minus outer
  | param p => exact (Derives.param p).signed minus outer
  | unary op a ih =>
    cases op with
    | neg => exact (ih true .any).paren.signed minus outer
    | call f => exact ((ih false .any).call f).signed minus outer
  | binary op a b iha ihb =>
    have hrhs := (ihb false op.precedence.tighter).widen _ op.operand_le_category
    by_cases h : op.precedence.level < outer.level
    · have hlhs := (iha false op.precedence).widen _ op.level_le_category
      have hparen := ((hlhs.binary op hrhs).widen .expr op.expr_le_level).paren
      rw [rereadAt, if_pos h, charsAt, parenthesize, decide_eq_true h, if_pos rfl]
      exact hparen.signed minus outer
    · have hlhs := (iha minus op.precedence).widen _ op.level_le_category
      rw [rereadAt, if_neg h, charsAt, parenthesize, decide_eq_false h, if_neg (by simp),
        ← List.append_assoc]
      exact (hlhs.binary op hrhs).widen _ (BinaryOp.category_le_level h)

/-- **Every expression prints as a formula**: its text is read without error, and the symbols of the
text have a derivation, whose tree is `reread`. -/
theorem exists_phrase_text (e : Expr ν) :
    (Lexer.ofSource e.text : Lexer ν).IsClean ∧ ∃ p : Phrase ν .expr,
      p.yield = (Lexer.ofSource e.text : Lexer ν).symbols.map Symbol.kind ∧ p.tree = e.reread := by
  obtain ⟨p, hp, hreads⟩ := e.derives_charsAt false .any
  obtain ⟨ss, hss, hresults⟩ := hreads 0 e.text.utf8ByteSize [] Delimited.nil
  have htext : Lexer.before 0 e.text.utf8ByteSize true (signChars false ++ e.charsAt .any ++ []) =
      (Lexer.ofSource e.text : Lexer ν) := by
    simp [Lexer.ofSource_eq_before, text, chars, signChars]
  rw [htext, Lexer.results_before_nil] at hresults
  have hend : ∀ s ∈ ss, s.kind.isEnd = false := fun s hs =>
    p.isEnd_of_mem_yield _ (hss ▸ List.mem_map_of_mem hs)
  obtain ⟨hclean, hsymbols⟩ := Lexer.isClean_of_results rfl hend hresults
  exact ⟨hclean, p, by rw [hsymbols, hss]; rfl, hp⟩

/-- A parser with room for the symbols of the text reads it as the tree `reread`. -/
theorem parseWithin_text (e : Expr ν) {limit : Nat}
    (hlimit : (Lexer.ofSource e.text : Lexer ν).symbols.length + 1 < limit) :
    parseWithin limit e.text = .ok e.reread := by
  obtain ⟨hclean, p, hyield, htree⟩ := e.exists_phrase_text
  rw [← htree]
  refine parseWithin_of_phrase hclean p hyield.symm ?_
  have hneed := p.need_le
  rw [hyield, List.length_map] at hneed
  exact Nat.lt_of_le_of_lt (Nat.succ_le_succ hneed) hlimit

/-! ## 4. The parameters of the text -/

omit [Literal ν] in
/-- A minus sign mentions no parameter. -/
theorem contains_signed (q : Param.Query) (minus : Bool) (e : Expr ν) :
    (signed minus e).contains q = e.contains q := by
  cases minus <;> rfl

/-- A written number mentions no parameter, whatever operations it is spelled with. -/
theorem contains_ofForm (q : Param.Query) (w : WrittenForm) :
    (ofForm w : Expr ν).contains q = false := by
  match w with
  | .nan => rfl
  | .infinite false => rfl
  | .infinite true => rfl
  | .finite false _ => rfl
  | .finite true _ => rfl

/-- Wherever the minus signs go, the tree that is read has the parameters of the expression. -/
theorem contains_rereadAt (q : Param.Query) (e : Expr ν) (minus : Bool) (outer : Precedence) :
    (e.rereadAt minus outer).contains q = e.contains q := by
  induction e generalizing minus outer with
  | number v => rw [rereadAt, contains_signed, contains_ofForm, contains]
  | param p => rw [rereadAt, contains_signed]
  | unary op a ih =>
    cases op with
    | neg => rw [rereadAt, contains_signed, ih, contains]
    | call f => rw [rereadAt, contains_signed, contains, ih, contains]
  | binary op a b iha ihb =>
    rw [rereadAt, contains]
    split
    · rw [contains_signed, contains, iha, ihb]
    · rw [contains, iha, ihb]

/-- **Every expression prints as a formula with the same parameters.**  Whatever its operators,
negations and literals, the text of an expression is read without error and has a derivation; and a
parser with room for its symbols accepts it, and finds a tree in which the same parameters occur. -/
theorem parseWithin_text_contains (e : Expr ν) :
    let lexer : Lexer ν := Lexer.ofSource e.text
    lexer.IsClean ∧ (∃ p : Phrase ν .expr, p.yield = lexer.symbols.map Symbol.kind) ∧
      ∀ limit : Nat, lexer.symbols.length + 1 < limit →
        ∃ e' : Expr ν, parseWithin limit e.text = .ok e' ∧
          ∀ q : Param.Query, e'.contains q = e.contains q := by
  intro lexer
  obtain ⟨hclean, p, hyield, -⟩ := e.exists_phrase_text
  exact ⟨hclean, ⟨p, hyield⟩, fun limit hlimit =>
    ⟨e.reread, e.parseWithin_text hlimit, fun q => contains_rereadAt q e false .any⟩⟩

/-- A negation in front of a difference, and numbers without a syntax of their own. -/
theorem parseWithin_text_contains_neg_sub :
    let e : Expr Float :=
      .neg (.sub (.neg (.pow (.number (-2)) (.param ⟨23⟩))) (.mul (.number (0 / 0)) (.param ⟨0⟩)))
    (Lexer.ofSource e.text : Lexer Float).symbols.length + 1 < 100 ∧
      ∃ e' : Expr Float, parseWithin 100 e.text = .ok e' ∧
        e'.contains (.only ⟨23⟩) = true ∧ e'.contains (.only ⟨24⟩) = false := by
  intro e
  have hlimit : (Lexer.ofSource e.text : Lexer Float).symbols.length + 1 < 100 := by
    decide +kernel
  obtain ⟨-, -, hparse⟩ := e.parseWithin_text_contains
  obtain ⟨e', hparse, hcontains⟩ := hparse 100 hlimit
  exact ⟨hlimit, e', hparse, by rw [hcontains]; rfl, by rw [hcontains]; rfl⟩

end Expr

end SymbolicCalculus
