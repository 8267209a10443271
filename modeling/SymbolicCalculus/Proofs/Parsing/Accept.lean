/-
# Which formulas are accepted

Given a derivation, the parser can be led along it: in front of the symbols of a phrase, and above
an entry that takes an operand of its category (`Slot.Takes`), it builds the tree of the phrase and
then stands in front of the symbol behind it (`Phrase.transitions`).  The stack grows by no more
than `Phrase.need` on the way, which is at most the number of symbols.

Together with what an answer says about the formula, this settles which formulas are accepted, and
with which tree (`Expr.parseWithin_eq_ok_iff`).
-/
import SymbolicCalculus.Binary64
import SymbolicCalculus.Proofs.Parsing.Viable

namespace SymbolicCalculus

universe u

variable {ν : Type u}

/-! ## 1. Phrases lead the parser -/

@[simp] theorem Slot.precedence_active (k : SymbolKind ν) (span : Span) :
    precedence ⟨.active k, span⟩ = k.stackPrecedence := rfl

/-- Whether the entry waits for an operand of the category; functions wait for a parenthesis. -/
structure Slot.Takes (x : Slot ν) (c : Category) : Prop where
  active : x.isReduced = false
  not_func : x.precedence ≤ 65
  le : x.precedence ≤ c.inputPrecedence

namespace Slot.Takes

variable {x : Slot ν} {c : Category}

theorem mono {d : Category} (h : x.Takes c) (hd : c.inputPrecedence ≤ d.inputPrecedence) :
    x.Takes d :=
  ⟨h.active, h.not_func, Nat.le_trans h.le hd⟩

theorem fromActive (h : x.Takes c) (lower : Stack ν) :
    Stack.fromActive (x :: lower) = x :: lower :=
  Stack.fromActive_cons h.active lower

/-- An entry that takes operands is not a function. -/
theorem ne_func (h : x.Takes c) (f : Func) (span : Span) : x ≠ ⟨.active (.func f), span⟩ := by
  rintro rfl
  exact absurd h.not_func (by simp [SymbolKind.stackPrecedence])

/-- The sentinel takes a formula. -/
theorem start : (⟨.start, .empty 0⟩ : Slot ν).Takes .expr :=
  ⟨rfl, Nat.le_add_right 5 60, Nat.le_add_right 5 5⟩

/-- Parentheses take formulas. -/
theorem openParen (span : Span) : (⟨.active .openParen, span⟩ : Slot ν).Takes .expr where
  active := rfl
  not_func := by simp [SymbolKind.stackPrecedence]
  le := by simp [SymbolKind.stackPrecedence, Category.inputPrecedence,
    Level.inputPrecedence]

/-- A minus sign takes a unary phrase. -/
theorem neg (span : Span) : (⟨.active .neg, span⟩ : Slot ν).Takes .unary where
  active := rfl
  not_func := by simp [SymbolKind.stackPrecedence]
  le := by simp [SymbolKind.stackPrecedence, Category.inputPrecedence]

/-- An operator takes the operands of its level. -/
theorem binary {op : BinaryOp} {l : Level} (hop : op.level = l) (span : Span) :
    (⟨.active (.binary op), span⟩ : Slot ν).Takes l.operand where
  active := rfl
  not_func := by cases op <;> simp [SymbolKind.stackPrecedence]
  le := by
    rw [precedence_active, stackPrecedence_binary, hop]
    exact l.stackPrecedence_le_operand

end Slot.Takes

/-- Behind the operand of a chain comes an operator of the level, or what follows the chain. -/
theorem Rest.exists_next {l : Level} (r : Rest ν l) {ss : List (Symbol ν)}
    (hyield : ss.map Symbol.kind = r.yield) {s : Symbol ν}
    (hs : s.kind.inputPrecedence < l.stackPrecedence) (rs : Stream ν) :
    ∃ (t : Symbol ν) (rs' : Stream ν), ss.map .ok ++ .ok s :: rs = .ok t :: rs' ∧
      t.kind.inputPrecedence < l.stackPrecedence := by
  cases r with
  | stop =>
    obtain rfl : ss = [] := by simpa [yield] using hyield
    exact ⟨s, rs, rfl, hs⟩
  | more op hop a rest =>
    rw [yield, List.map_eq_cons_iff] at hyield
    obtain ⟨t, ts, rfl, ht, -⟩ := hyield
    refine ⟨t, ts.map .ok ++ .ok s :: rs, rfl, ?_⟩
    rw [ht, inputPrecedence_binary, hop]
    exact l.inputPrecedence_lt

section Transitions

variable (limit : Nat) {x : Slot ν} {c : Category}

/-- A symbol that starts a phrase is pushed above an entry that takes the phrase. -/
theorem Slot.Takes.shift (h : x.Takes c) (lower : Stack ν) {s : Symbol ν} (rs : Stream ν)
    (hs : c.inputPrecedence ≤ s.kind.inputPrecedence) (hroom : (x :: lower).length + 1 < limit) :
    Transition limit (x :: lower, .ok s :: rs) (some (.shift s.kind s.span))
      (⟨.active s.kind, s.span⟩ :: x :: lower, rs) :=
  .shift (h.fromActive lower) (Nat.le_trans h.le hs) hroom

/-- A number or a parameter is pushed and becomes an expression. -/
theorem Slot.Takes.leaf (h : x.Takes .atom) (lower : Stack ν) {t : Symbol ν} {e : Expr ν}
    (ht : t.kind.leaf? = some e) {s : Symbol ν} (rs : Stream ν)
    (hroom : (x :: lower).length + 1 < limit) :
    ∃ (evs : List (ParserEvent ν)) (span : Span),
      Transitions limit (x :: lower, .ok t :: .ok s :: rs) evs
        (⟨.reduced e, span⟩ :: x :: lower, .ok s :: rs) := by
  have hkind : t.kind.inputPrecedence = 110 ∧ t.kind.stackPrecedence = 120 := by
    cases hk : t.kind <;> simp_all [SymbolKind.leaf?, SymbolKind.inputPrecedence,
      SymbolKind.stackPrecedence]
  have hshift := h.shift limit lower (s := t) (.ok s :: rs) (by rw [hkind.1]; decide) hroom
  have hs : s.kind.inputPrecedence < t.kind.stackPrecedence := by
    have := s.kind.inputPrecedence_le
    omega
  exact ⟨_, _, .head hshift (.single (.leaf ht h.active hs))⟩

end Transitions

mutual

/-- **The parser follows the derivation of a phrase** and leaves its tree on the stack, in front of
the symbol that ends it. -/
theorem Phrase.transitions (limit : Nat) : {c : Category} → (p : Phrase ν c) → {x : Slot ν} →
    x.Takes c → (lower : Stack ν) → {ss : List (Symbol ν)} → ss.map Symbol.kind = p.yield →
    {s : Symbol ν} → s.kind.inputPrecedence < c.stackPrecedence → (rs : Stream ν) →
    (x :: lower).length + p.need < limit →
    ∃ (evs : List (ParserEvent ν)) (span : Span),
      Transitions limit (x :: lower, ss.map .ok ++ .ok s :: rs) evs
        (⟨.reduced p.tree, span⟩ :: x :: lower, .ok s :: rs)
  | _, .number v, x => by
    intro hx lower ss hyield s hs rs hroom
    simp only [Phrase.yield, List.map_eq_singleton_iff] at hyield
    obtain ⟨t, rfl, ht⟩ := hyield
    rw [Phrase.tree]
    exact hx.leaf limit lower (by rw [ht]; rfl) rs hroom
  | _, .param p, x => by
    intro hx lower ss hyield s hs rs hroom
    simp only [Phrase.yield, List.map_eq_singleton_iff] at hyield
    obtain ⟨t, rfl, ht⟩ := hyield
    rw [Phrase.tree]
    exact hx.leaf limit lower (by rw [ht]; rfl) rs hroom
  | _, .neg a, x => by
    intro hx lower ss hyield s hs rs hroom
    rw [Phrase.yield, List.map_eq_cons_iff] at hyield
    obtain ⟨t, ts, rfl, ht, hts⟩ := hyield
    simp only [Phrase.need, List.length_cons] at hroom
    have hshift := hx.shift limit lower (s := t) (ts.map .ok ++ .ok s :: rs)
      (by rw [ht]; exact Nat.le_refl _) (by simp only [List.length_cons]; omega)
    rw [ht] at hshift
    obtain ⟨evs, span, ha⟩ := a.transitions limit (.neg t.span) (x :: lower) hts hs rs
      (by simp only [List.length_cons]; omega)
    exact ⟨_, _, .head hshift (ha.trans (.single (.neg hx.active hs)))⟩
  | _, .ofAtom a, x => by
    intro hx lower ss hyield s hs rs hroom
    rw [Phrase.tree]
    refine a.transitions limit (hx.mono (by decide)) lower (by rw [hyield, Phrase.yield])
      (Nat.lt_of_lt_of_le hs (by decide)) rs (by simpa only [Phrase.need] using hroom)
  | _, .paren e, x => by
    intro hx lower ss hyield s hs rs hroom
    simp only [Phrase.yield, List.map_eq_cons_iff, List.map_eq_append_iff,
      List.map_eq_nil_iff] at hyield
    obtain ⟨t, -, rfl, ht, ts, -, rfl, hts, u, -, rfl, hu, rfl⟩ := hyield
    simp only [Phrase.need, List.length_cons] at hroom
    have hshift := hx.shift limit lower (s := t) (ts.map .ok ++ .ok u :: .ok s :: rs)
      (by rw [ht]; exact Nat.le_refl _) (by simp only [List.length_cons]; omega)
    rw [ht] at hshift
    obtain ⟨evs, span, he⟩ := e.transitions limit (.openParen t.span) (x :: lower) hts (s := u)
      (by rw [hu]; exact Nat.succ_pos _) (.ok s :: rs) (by simp only [List.length_cons]; omega)
    have hparen : Transition limit (⟨.reduced e.tree, span⟩ :: ⟨.active .openParen, t.span⟩ ::
        x :: lower, .ok u :: .ok s :: rs) _ _ :=
      .paren hu fun f name base hbase => hx.ne_func f name (List.cons.inj hbase).1
    simp only [Phrase.tree, List.map_cons, List.map_append, List.cons_append, List.append_assoc]
    exact ⟨_, t.span.through u.span, .head hshift (he.trans (.single hparen))⟩
  | _, .call f e, x => by
    intro hx lower ss hyield s hs rs hroom
    simp only [Phrase.yield, List.map_eq_cons_iff, List.map_eq_append_iff,
      List.map_eq_nil_iff] at hyield
    obtain ⟨n, -, rfl, hn, t, -, rfl, ht, ts, -, rfl, hts, u, -, rfl, hu, rfl⟩ := hyield
    simp only [Phrase.need, List.length_cons] at hroom
    have hname : Transition limit
        (x :: lower, .ok n :: .ok t :: (ts.map .ok ++ .ok u :: .ok s :: rs)) _ _ :=
      .shift (hx.fromActive lower)
        (by rw [hn]; exact Nat.le_trans hx.not_func (Nat.le_add_right 65 25))
        (by simp only [List.length_cons]; omega)
    rw [hn] at hname
    have hopen : Transition limit (⟨.active (.func f), n.span⟩ :: x :: lower,
        .ok t :: (ts.map .ok ++ .ok u :: .ok s :: rs)) _ _ :=
      .shift (Stack.fromActive_active _ _ _) (by rw [ht]; exact Nat.le_add_right 100 10)
        (by simp only [List.length_cons]; omega)
    rw [ht] at hopen
    obtain ⟨evs, span, he⟩ := e.transitions limit (.openParen t.span)
      (⟨.active (.func f), n.span⟩ :: x :: lower) hts (s := u) (by rw [hu]; exact Nat.succ_pos _)
      (.ok s :: rs) (by simp only [List.length_cons]; omega)
    simp only [Phrase.tree, List.map_cons, List.map_append, List.cons_append, List.append_assoc]
    exact ⟨_, n.span.through (t.span.through u.span),
      .head hname (.head hopen (he.trans (.single (.call hu))))⟩
  | _, .chain first rest, x => by
    intro hx lower ss hyield s hs rs hroom
    rw [Phrase.yield, List.map_eq_append_iff] at hyield
    obtain ⟨ts, us, rfl, hts, hus⟩ := hyield
    simp only [Phrase.need] at hroom
    obtain ⟨t, rs', hnext, ht⟩ := rest.exists_next hus hs rs
    have hfirstTakes := hx.mono (Level.inputPrecedence_le_operand _)
    obtain ⟨evs, span, hfirst⟩ := first.transitions limit hfirstTakes lower hts
      (Nat.lt_of_lt_of_le ht (Level.stackPrecedence_le_operand_stack _)) rs' (by omega)
    rw [← hnext] at hfirst
    obtain ⟨evs', span', hrest⟩ :=
      rest.transitions limit hx lower first.tree span hus hs rs (by omega)
    refine ⟨evs ++ evs', span', ?_⟩
    rw [Phrase.tree, List.map_append, List.append_assoc]
    exact hfirst.trans hrest

/-- The parser follows the operations behind the first operand of a chain. -/
theorem Rest.transitions (limit : Nat) : {l : Level} → (r : Rest ν l) → {x : Slot ν} →
    x.Takes (.chain l) → (lower : Stack ν) → (lhs : Expr ν) → (lhsSpan : Span) →
    {ss : List (Symbol ν)} → ss.map Symbol.kind = r.yield →
    {s : Symbol ν} → s.kind.inputPrecedence < l.stackPrecedence → (rs : Stream ν) →
    (x :: lower).length + r.need < limit →
    ∃ (evs : List (ParserEvent ν)) (span : Span),
      Transitions limit (⟨.reduced lhs, lhsSpan⟩ :: x :: lower, ss.map .ok ++ .ok s :: rs) evs
        (⟨.reduced (r.graft lhs), span⟩ :: x :: lower, .ok s :: rs)
  | _, .stop, x => by
    intro hx lower lhs lhsSpan ss hyield s hs rs hroom
    obtain rfl : ss = [] := by simpa [Rest.yield] using hyield
    rw [Rest.graft]
    exact ⟨[], lhsSpan, .refl _⟩
  | _, .more op hop a rest, x => by
    intro hx lower lhs lhsSpan ss hyield s hs rs hroom
    simp only [Rest.yield, List.map_eq_cons_iff, List.map_eq_append_iff] at hyield
    obtain ⟨t, -, rfl, ht, ts, us, rfl, hts, hus⟩ := hyield
    simp only [Rest.need, List.length_cons] at hroom
    have hshift : Transition limit
        (⟨.reduced lhs, lhsSpan⟩ :: x :: lower, .ok t :: ((ts ++ us).map .ok ++ .ok s :: rs)) _ _ :=
      .shift (hx.fromActive lower) (by rw [ht, inputPrecedence_binary, hop]; exact hx.le)
        (by simp only [List.length_cons]; omega)
    obtain ⟨u, rs', hnext, hu⟩ := rest.exists_next hus hs rs
    obtain ⟨evs, span, ha⟩ := a.transitions limit (.binary hop t.span)
      (⟨.reduced lhs, lhsSpan⟩ :: x :: lower) hts
      (Nat.lt_of_lt_of_le hu (Level.stackPrecedence_le_operand_stack _)) rs'
      (by simp only [List.length_cons]; omega)
    have hbinary : Transition limit (⟨.reduced a.tree, span⟩ :: ⟨.active (.binary op), t.span⟩ ::
        ⟨.reduced lhs, lhsSpan⟩ :: x :: lower, .ok u :: rs') _ _ :=
      .binary hx.active (by rw [stackPrecedence_binary, hop]; exact hu)
    obtain ⟨evs', span', hrest⟩ :=
      rest.transitions limit hx lower (.binary op lhs a.tree) _ hus hs rs
        (by simp only [List.length_cons]; omega)
    rw [List.map_append, List.append_assoc, ht] at hshift
    rw [← hnext] at ha hbinary
    simp only [Rest.graft, List.map_cons, List.map_append, List.cons_append, List.append_assoc]
    exact ⟨_, span', .head hshift (ha.trans (.head hbinary hrest))⟩

end

/-! ## 2. Which formulas are accepted -/

section Formulas

variable [Literal ν] {source : String} {limit : Nat}

/-- At the end of the formula, the subexpression above the sentinel is the answer. -/
theorem Parser.step_of_answer {p : Parser ν} {e : Expr ν} {span span' : Span} {s : Symbol ν}
    (hs : s.kind = .endOfInput)
    (hview : p.view = ([⟨.reduced e, span⟩, ⟨.start, span'⟩], [.ok s])) :
    p.step = (none, .done (.ok e)) := by
  have hstack : p.stack = [⟨.reduced e, span⟩, ⟨.start, span'⟩] := congrArg Prod.fst hview
  obtain ⟨lexer, hnext, -⟩ := Lexer.next_of_results (congrArg Prod.snd hview)
  have hle : ¬ Slot.precedence (⟨.start, span'⟩ : Slot ν) ≤ s.kind.inputPrecedence := by
    simp [hs, Slot.precedence, SymbolKind.inputPrecedence]
  have htop : p.stack.fromActive = [⟨.start, span'⟩] := by
    rw [hstack]
    rfl
  simp only [step, hnext, htop, if_neg hle]
  rw [hs]
  simp [finish, hstack]

/-- **A formula with a derivation is accepted**, if the stack has room for it. -/
theorem Expr.parseWithin_of_phrase (hclean : (Lexer.ofSource source : Lexer ν).IsClean)
    (p : Phrase ν .expr)
    (hyield : (Lexer.ofSource source : Lexer ν).symbols.map Symbol.kind = p.yield)
    (hroom : p.need + 1 < limit) : Expr.parseWithin limit source = .ok p.tree := by
  obtain ⟨s, hs, hresults⟩ := Lexer.results_of_isClean _ hclean
  obtain ⟨evs, span, htransitions⟩ := p.transitions limit .start [] hyield (s := s)
    (by rw [hs]; exact Nat.succ_pos _) [] (by simpa [Nat.add_comm] using hroom)
  rw [← hresults] at htransitions
  obtain ⟨q, hview, -, hrun⟩ := Parser.run_of_transitions (p := Parser.ofSource source limit)
    htransitions rfl
  rw [parseWithin, hrun, Parser.run_of_step_done (Parser.step_of_answer hs hview)]

/-- **Exactly the formulas of the grammar are accepted, and with the trees of their derivations.**
If the stack holds more entries than the formula has symbols, the sentinel, and one more, then the
formula is accepted if and only if it can be read without error and its symbols have a derivation;
the derivation is unique, and the answer is its tree. -/
theorem Expr.parseWithin_eq_ok_iff {e : Expr ν}
    (hlimit : (Lexer.ofSource source : Lexer ν).symbols.length + 1 < limit) :
    Expr.parseWithin limit source = .ok e ↔
      (Lexer.ofSource source : Lexer ν).IsClean ∧
      ∃ p : Phrase ν .expr,
        p.yield = (Lexer.ofSource source : Lexer ν).symbols.map Symbol.kind ∧ p.tree = e ∧
        ∀ q : Phrase ν .expr,
          q.yield = (Lexer.ofSource source : Lexer ν).symbols.map Symbol.kind → q = p := by
  constructor
  · intro h
    obtain ⟨hclean, p, hyield, htree⟩ := Parser.exists_phrase_of_run h
    exact ⟨hclean, p, hyield, htree, fun q hq => Phrase.yield_injective (hq.trans hyield.symm)⟩
  · rintro ⟨hclean, p, hyield, rfl, -⟩
    refine parseWithin_of_phrase hclean p hyield.symm ?_
    have hneed := p.need_le
    rw [hyield, List.length_map] at hneed
    omega

end Formulas

/-- A minus sign binds tighter than a power. -/
theorem Expr.parseWithin_neg_pow :
    (Lexer.ofSource "-a^b" : Lexer Float).symbols.length + 1 < 6 ∧
    Expr.parseWithin 6 "-a^b" = .ok (.pow (.neg (.param ⟨0⟩)) (.param ⟨1⟩) : Expr Float) := by
  have hlimit : (Lexer.ofSource "-a^b" : Lexer Float).symbols.length + 1 < 6 := by
    decide +kernel
  have hclean : (Lexer.ofSource "-a^b" : Lexer Float).results.all Except.isOk = true := by
    decide +kernel
  let p : Phrase Float .expr :=
    .chain (.chain (.chain (.neg (.ofAtom (.param ⟨0⟩)))
      (.more .pow rfl (.ofAtom (.param ⟨1⟩)) .stop)) .stop) .stop
  have hyield : p.yield = (Lexer.ofSource "-a^b" : Lexer Float).symbols.map Symbol.kind := by
    cbv
  refine ⟨hlimit, (parseWithin_eq_ok_iff hlimit).mpr ⟨?_, p, hyield, by cbv, ?_⟩⟩
  · intro e he
    exact absurd (List.all_eq_true.mp hclean _ he) (by simp [Except.isOk, Except.toBool])
  · intro q hq
    exact Phrase.yield_injective (hq.trans hyield.symm)

end SymbolicCalculus
