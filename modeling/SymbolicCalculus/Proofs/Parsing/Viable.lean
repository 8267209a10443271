/-
# Stacks that derivations build

A stack is *viable* if it could have been built from the symbols read so far: every waiting symbol
was shifted where no entry below outranked it, and every complete subexpression is the tree of a
phrase that the entry below can take as an operand (`Viable`).  A viable stack also knows its
*bound*: the next symbol comes in below it.  The bound is what keeps `a * b` together in
`a * b + c`, and what makes the left operand of an operator a phrase of its level.

The stacks of a parser with a capacity are *seated*, too: what a phrase needs was there above the
entries below it (`Seated`).  Transitions keep them so (`BuiltWithin.transition`), and where the
capacity does not matter, every viable stack is seated in an ample one (`Built.transition`).

A run that gives an answer therefore ends in a derivation of the whole formula
(`Parser.exists_phrase_of_run`).
-/
import SymbolicCalculus.Proofs.Parsing.Room
import SymbolicCalculus.Proofs.Parsing.Run

namespace SymbolicCalculus

universe u

variable {ν : Type u}

/-! ## 1. Bounds -/

/-- What is looser than the bound of a phrase is no tighter than the phrase. -/
theorem Category.inputPrecedence_le_of_lt {l : Level} {c : Category}
    (h : l.inputPrecedence < c.stackPrecedence) : l.inputPrecedence ≤ c.inputPrecedence := by
  cases c with
  | chain l' => cases l <;> cases l' <;> revert h <;> decide
  | unary => cases l <;> decide
  | atom => cases l <;> decide

/-- What can stand above an operator is an operand of its level. -/
theorem Category.operand_le_of_stackPrecedence_le {l : Level} {c : Category}
    (h : l.stackPrecedence ≤ c.inputPrecedence) :
    l.operand.inputPrecedence ≤ c.inputPrecedence := by
  cases c with
  | chain l' => cases l <;> cases l' <;> revert h <;> decide
  | unary => cases l <;> decide
  | atom => cases l <;> decide

/-- What can stand above a minus sign is its operand. -/
theorem Category.unary_le_of_stackPrecedence_le {c : Category}
    (h : Category.unary.stackPrecedence ≤ c.inputPrecedence) :
    Category.unary.inputPrecedence ≤ c.inputPrecedence := by
  cases c with
  | chain l => cases l <;> revert h <;> decide
  | unary => decide
  | atom => decide

/-- Every symbol can come in behind a symbol that waits. -/
theorem SymbolKind.inputPrecedence_le (k : SymbolKind ν) : k.inputPrecedence ≤ 110 := by
  cases k with
  | binary op => cases op <;> simp [inputPrecedence]
  | _ => simp [inputPrecedence]

/-- The symbol that is an expression on its own is an atom. -/
theorem SymbolKind.exists_atom {k : SymbolKind ν} {e : Expr ν} (h : k.leaf? = some e) :
    ∃ p : Phrase ν .atom, p.yield = [k] ∧ p.tree = e := by
  cases k with
  | number v => exact ⟨.number v, by simp [Phrase.yield], by simpa [leaf?, Phrase.tree] using h⟩
  | param q => exact ⟨.param q, by simp [Phrase.yield], by simpa [leaf?, Phrase.tree] using h⟩
  | _ => exact absurd h (by simp [leaf?])

/-! ## 2. Viable stacks -/

/-- The precedence of the topmost active entry. -/
def Stack.activePrecedence (st : Stack ν) : Nat :=
  match st.fromActive with
  | [] => 0
  | top :: _ => top.precedence

theorem Stack.activePrecedence_of_fromActive {st lower : Stack ν} {top : Slot ν}
    (h : st.fromActive = top :: lower) : st.activePrecedence = top.precedence := by
  rw [activePrecedence, h]

@[simp] theorem Stack.activePrecedence_reduced (e : Expr ν) (span : Span) (st : Stack ν) :
    activePrecedence (⟨.reduced e, span⟩ :: st) = activePrecedence st := rfl

@[simp] theorem Stack.activePrecedence_active (k : SymbolKind ν) (span : Span) (st : Stack ν) :
    activePrecedence (⟨.active k, span⟩ :: st) = k.stackPrecedence := rfl

/-- The region reaches from the first to the last of the symbols. -/
def Covers (ss : List (Symbol ν)) (span : Span) : Prop :=
  ∃ first last, ss.head? = some first ∧ ss.getLast? = some last ∧
    span = first.span.through last.span

theorem Covers.around {ss ts : List (Symbol ν)} {a b : Span} (h : Covers ss a)
    (ms : List (Symbol ν)) (h' : Covers ts b) : Covers (ss ++ (ms ++ ts)) (a.through b) := by
  obtain ⟨first, _, hfirst, -, rfl⟩ := h
  obtain ⟨_, last, -, hlast, rfl⟩ := h'
  exact ⟨first, last, by simp [hfirst], by simp [hlast], rfl⟩

theorem Covers.single (s : Symbol ν) : Covers [s] s.span := ⟨s, s, rfl, rfl, rfl⟩

/-- The stacks that the parser builds from the symbols it has read, together with a bound on the
input precedence of the next symbol. -/
inductive Viable : Stack ν → List (Symbol ν) → Nat → Prop where
  /-- Nothing has been read. -/
  | start : Viable [⟨.start, .empty 0⟩] [] 121
  /-- A symbol waits above entries that do not outrank it. -/
  | active {st : Stack ν} {ss : List (Symbol ν)} {bound : Nat} (h : Viable st ss bound)
      (s : Symbol ν) (hactive : st.activePrecedence ≤ s.kind.inputPrecedence)
      (hbound : s.kind.inputPrecedence < bound) :
      Viable (⟨.active s.kind, s.span⟩ :: st) (ss ++ [s]) 121
  /-- A phrase is complete, and the active entry below it does not outrank it. -/
  | reduced {st : Stack ν} {ss ts : List (Symbol ν)} {bound : Nat} (h : Viable st ss bound)
      {c : Category} (p : Phrase ν c) (hyield : ts.map Symbol.kind = p.yield) {span : Span}
      (hspan : Covers ts span) (hactive : st.activePrecedence ≤ c.inputPrecedence) :
      Viable (⟨.reduced p.tree, span⟩ :: st) (ss ++ ts) c.stackPrecedence

namespace Viable

variable {st : Stack ν} {ss : List (Symbol ν)} {bound : Nat} {span : Span}

/-- What lies under a waiting symbol. -/
theorem of_active {k : SymbolKind ν} (h : Viable (⟨.active k, span⟩ :: st) ss bound) :
    ∃ (ss' : List (Symbol ν)) (bound' : Nat) (s : Symbol ν), ss = ss' ++ [s] ∧ s.kind = k ∧
      s.span = span ∧ Viable st ss' bound' ∧ st.activePrecedence ≤ k.inputPrecedence ∧
      k.inputPrecedence < bound' := by
  cases h with
  | active h s hactive hbound => exact ⟨_, _, s, rfl, rfl, rfl, h, hactive, hbound⟩

/-- What lies under a complete subexpression, and the phrase that it stands for. -/
theorem of_reduced {e : Expr ν} (h : Viable (⟨.reduced e, span⟩ :: st) ss bound) :
    ∃ (ss' ts : List (Symbol ν)) (bound' : Nat) (c : Category) (p : Phrase ν c), ss = ss' ++ ts ∧
      ts.map Symbol.kind = p.yield ∧ p.tree = e ∧ Covers ts span ∧ Viable st ss' bound' ∧
      st.activePrecedence ≤ c.inputPrecedence ∧ bound = c.stackPrecedence := by
  cases h with
  | reduced h p hyield hspan hactive =>
    exact ⟨_, _, _, _, p, rfl, hyield, rfl, hspan, h, hactive, rfl⟩

end Viable

/-! ## 3. Stacks with room -/

/-- The viable stacks whose entries found room when they were made: a waiting symbol for itself, and
a complete subexpression for all that its phrase needs. -/
inductive Seated (limit : Nat) : Stack ν → List (Symbol ν) → Nat → Prop where
  | start : Seated limit [⟨.start, .empty 0⟩] [] 121
  | active {st : Stack ν} {ss : List (Symbol ν)} {bound : Nat} (h : Seated limit st ss bound)
      (s : Symbol ν) (hactive : st.activePrecedence ≤ s.kind.inputPrecedence)
      (hbound : s.kind.inputPrecedence < bound) (hroom : st.length + 1 < limit) :
      Seated limit (⟨.active s.kind, s.span⟩ :: st) (ss ++ [s]) 121
  | reduced {st : Stack ν} {ss ts : List (Symbol ν)} {bound : Nat} (h : Seated limit st ss bound)
      {c : Category} (p : Phrase ν c) (hyield : ts.map Symbol.kind = p.yield) {span : Span}
      (hspan : Covers ts span) (hactive : st.activePrecedence ≤ c.inputPrecedence)
      (hroom : st.length + p.need < limit) :
      Seated limit (⟨.reduced p.tree, span⟩ :: st) (ss ++ ts) c.stackPrecedence

namespace Seated

variable {st : Stack ν} {ss : List (Symbol ν)} {bound limit limit' : Nat} {span : Span}

theorem viable (h : Seated limit st ss bound) : Viable st ss bound := by
  induction h with
  | start => exact .start
  | active _ s hactive hbound _ ih => exact .active ih s hactive hbound
  | reduced _ p hyield hspan hactive _ ih => exact .reduced ih p hyield hspan hactive

theorem mono (h : Seated limit st ss bound) (hle : limit ≤ limit') : Seated limit' st ss bound := by
  induction h with
  | start => exact .start
  | active _ s hactive hbound hroom ih =>
    exact .active ih s hactive hbound (Nat.lt_of_lt_of_le hroom hle)
  | reduced _ p hyield hspan hactive hroom ih =>
    exact .reduced ih p hyield hspan hactive (Nat.lt_of_lt_of_le hroom hle)

/-- What lies under a waiting symbol. -/
theorem of_active {k : SymbolKind ν} (h : Seated limit (⟨.active k, span⟩ :: st) ss bound) :
    ∃ (ss' : List (Symbol ν)) (bound' : Nat) (s : Symbol ν), ss = ss' ++ [s] ∧ s.kind = k ∧
      s.span = span ∧ Seated limit st ss' bound' ∧ st.activePrecedence ≤ k.inputPrecedence ∧
      k.inputPrecedence < bound' ∧ st.length + 1 < limit := by
  cases h with
  | active h s hactive hbound hroom =>
    exact ⟨_, _, s, rfl, rfl, rfl, h, hactive, hbound, hroom⟩

/-- What lies under a complete subexpression, and the phrase that it stands for. -/
theorem of_reduced {e : Expr ν} (h : Seated limit (⟨.reduced e, span⟩ :: st) ss bound) :
    ∃ (ss' ts : List (Symbol ν)) (bound' : Nat) (c : Category) (p : Phrase ν c), ss = ss' ++ ts ∧
      ts.map Symbol.kind = p.yield ∧ p.tree = e ∧ Covers ts span ∧ Seated limit st ss' bound' ∧
      st.activePrecedence ≤ c.inputPrecedence ∧ bound = c.stackPrecedence ∧
      st.length + p.need < limit := by
  cases h with
  | reduced h p hyield hspan hactive hroom =>
    exact ⟨_, _, _, _, p, rfl, hyield, rfl, hspan, h, hactive, rfl, hroom⟩

end Seated

/-- With ample room, every viable stack has room. -/
theorem Viable.exists_seated {st : Stack ν} {ss : List (Symbol ν)} {bound : Nat}
    (h : Viable st ss bound) : ∃ room, Seated room st ss bound := by
  induction h with
  | start => exact ⟨0, .start⟩
  | @active st ss bound _ s hactive hbound ih =>
    obtain ⟨room, hst⟩ := ih
    exact ⟨max room (st.length + 2), .active (hst.mono (Nat.le_max_left _ _)) s hactive hbound
      (Nat.lt_of_lt_of_le (Nat.lt_succ_self _) (Nat.le_max_right _ _))⟩
  | @reduced st ss ts bound _ c p hyield span hspan hactive ih =>
    obtain ⟨room, hst⟩ := ih
    exact ⟨max room (st.length + p.need + 1),
      .reduced (hst.mono (Nat.le_max_left _ _)) p hyield hspan hactive
        (Nat.lt_of_lt_of_le (Nat.lt_succ_self _) (Nat.le_max_right _ _))⟩

/-! ## 4. Transitions keep stacks viable -/

/-- Whatever comes next, it comes in below the bound of an atom. -/
theorem Symbol.lt_atom (s : Symbol ν) :
    s.kind.inputPrecedence < Category.atom.stackPrecedence :=
  Nat.lt_of_le_of_lt s.kind.inputPrecedence_le (by decide)

/-- The symbols read so far made a viable stack within the capacity, and the next symbol comes in
below its bound. -/
def BuiltWithin (limit : Nat) (source : Stream ν) (v : View ν) : Prop :=
  ∃ (ss : List (Symbol ν)) (bound : Nat), Seated limit v.1 ss bound ∧
    source = ss.map .ok ++ v.2 ∧
    ∀ s, v.2.head? = some (.ok s) → s.kind.inputPrecedence < bound

namespace BuiltWithin

variable {source : Stream ν} {limit : Nat} {v v' : View ν} {ev : Option (ParserEvent ν)}

/-- A phrase replaces its symbols. -/
theorem reduced {st : Stack ν} {ss ts : List (Symbol ν)} {bound : Nat} {rs : Stream ν} {span : Span}
    (h : Seated limit st ss bound) {c : Category} (p : Phrase ν c)
    (hyield : ts.map Symbol.kind = p.yield) (hspan : Covers ts span)
    (hactive : st.activePrecedence ≤ c.inputPrecedence) (hroom : st.length + p.need < limit)
    (hsource : source = (ss ++ ts).map .ok ++ rs)
    (hnext : ∀ s, rs.head? = some (.ok s) → s.kind.inputPrecedence < c.stackPrecedence) :
    BuiltWithin limit source (⟨.reduced p.tree, span⟩ :: st, rs) :=
  ⟨_, _, .reduced h p hyield hspan hactive hroom, hsource, hnext⟩

/-- In front of a formula nothing has been read. -/
theorem ofSource [Literal ν] (text : String) (limit : Nat) :
    BuiltWithin limit (Lexer.ofSource text).results
      (Parser.ofSource text limit : Parser ν).view :=
  ⟨[], 121, .start, rfl, fun t _ => t.lt_atom.trans (by decide)⟩

/-- **Transitions keep stacks viable, and within the capacity.** -/
theorem transition (h : Transition limit v ev v') (hv : BuiltWithin limit source v) :
    BuiltWithin limit source v' := by
  obtain ⟨ss, bound, hseated, hsource, hnext⟩ := hv
  cases h with
  | @shift st top lower s rs htop hprec hroom =>
    refine ⟨ss ++ [s], 121, .active hseated s ?_ (hnext s rfl) hroom, by simp [hsource],
      fun t _ => t.lt_atom.trans (by decide)⟩
    rw [Stack.activePrecedence_of_fromActive htop]
    exact hprec
  | @leaf k e span x lower s rs hk hx hprec =>
    obtain ⟨ss', _, t, rfl, rfl, rfl, hlower, hactive, -, hroom⟩ := hseated.of_active
    obtain ⟨p, hyield, rfl⟩ := SymbolKind.exists_atom hk
    have hatom := Nat.le_trans hactive t.kind.inputPrecedence_le
    have hneed : p.need ≤ 1 := by simpa [hyield] using p.need_le
    exact reduced hlower p (by simp [hyield]) (.single t) hatom (by omega) hsource
      fun s _ => s.lt_atom
  | @neg a opSpan span x lower s rs hx hprec =>
    obtain ⟨ss₁, ts, _, c, p, rfl, hyield, rfl, hspan, hop, hactive, -, hroom⟩ := hseated.of_reduced
    obtain ⟨ss₂, _, t, rfl, ht, rfl, hlower, hlow, -⟩ := hop.of_active
    obtain ⟨q, hq, hqt⟩ := p.widen .unary (Category.unary_le_of_stackPrecedence_le hactive)
    have hy : (t :: ts).map Symbol.kind = (Phrase.neg q).yield := by
      simp [Phrase.yield, ht, hyield, hq]
    have htree : (Phrase.neg q).tree = .neg p.tree := by rw [Phrase.tree, hqt]
    have hneed : (Phrase.neg q).need = p.need + 1 := by
      rw [Phrase.need, Phrase.need_eq_of_yield_eq hq]
    rw [List.length_cons] at hroom
    rw [← htree]
    refine reduced hlower _ hy ((Covers.single t).around [] hspan) hlow (by omega)
      (by simpa using hsource) ?_
    rintro s' ⟨⟩
    exact hprec
  | @binary op a b lhsSpan opSpan rhsSpan x lower s rs hx hprec =>
    obtain ⟨ss₁, ts, _, c, p, rfl, hyield, rfl, hspan, hop, hactive, -, hroom⟩ := hseated.of_reduced
    obtain ⟨ss₂, _, t, rfl, ht, rfl, hlhs, hlow, hbelow, -⟩ := hop.of_active
    obtain ⟨ss₃, us, _, d, q, rfl, hyield', rfl, hspan', hlower, -, rfl, hroom'⟩ := hlhs.of_reduced
    rw [Stack.activePrecedence_active, stackPrecedence_binary] at hactive
    rw [Stack.activePrecedence_reduced, inputPrecedence_binary] at hlow
    rw [inputPrecedence_binary] at hbelow
    rw [stackPrecedence_binary] at hprec
    obtain ⟨p', hp, hpt⟩ := p.widen _ (Category.operand_le_of_stackPrecedence_le hactive)
    obtain ⟨q', hq, hqt⟩ := q.widen (.chain op.level) (Category.inputPrecedence_le_of_lt hbelow)
    obtain ⟨r, hr, hrt⟩ := q'.exists_binary p'
    have hy : (us ++ t :: ts).map Symbol.kind = r.yield := by
      simp [hr, hq, hp, ht, hyield, hyield']
    have htree : r.tree = .binary op q.tree p.tree := by rw [hrt, hqt, hpt]
    have hneed : r.need = max q.need (p.need + 2) := by
      rw [Phrase.need_of_yield_binary hr, Phrase.need_eq_of_yield_eq hq,
        Phrase.need_eq_of_yield_eq hp]
    have hcover : Covers (us ++ t :: ts) (lhsSpan.through rhsSpan) :=
      hspan'.around [t] hspan
    simp only [List.length_cons] at hroom hroom'
    rw [← htree]
    refine reduced hlower r hy hcover hlow (by simp only [List.length_cons]; omega)
      (by simpa using hsource) ?_
    rintro s' ⟨⟩
    exact hprec
  | @paren e openSpan span lower s rs hs hlower =>
    obtain ⟨ss₁, ts, _, c, p, rfl, hyield, rfl, hspan, hop, -, -, hroom⟩ := hseated.of_reduced
    obtain ⟨ss₂, _, t, rfl, ht, rfl, hbase, hlow, -⟩ := hop.of_active
    obtain ⟨q, hq, hqt⟩ := p.exists_expr
    have hy : (t :: ts ++ [s]).map Symbol.kind = (Phrase.paren q).yield := by
      simp [Phrase.yield, ht, hyield, hq, hs]
    have htree : (Phrase.paren q).tree = p.tree := by rw [Phrase.tree, hqt]
    have hneed : (Phrase.paren q).need = p.need + 1 := by
      rw [Phrase.need, Phrase.need_eq_of_yield_eq hq]
    have hcover : Covers (t :: ts ++ [s]) (t.span.through s.span) :=
      (Covers.single t).around ts (.single s)
    rw [List.length_cons] at hroom
    rw [← htree]
    exact reduced hbase _ hy hcover hlow (by omega) (by simpa using hsource) fun s' _ => s'.lt_atom
  | @call f e name openSpan span base s rs hs =>
    obtain ⟨ss₁, ts, _, c, p, rfl, hyield, rfl, hspan, hop, -, -, hroom⟩ := hseated.of_reduced
    obtain ⟨ss₂, _, t, rfl, ht, rfl, hfun, -, -⟩ := hop.of_active
    obtain ⟨ss₃, _, u, rfl, hu, rfl, hbase, hlow, -⟩ := hfun.of_active
    obtain ⟨q, hq, hqt⟩ := p.exists_expr
    have hy : (u :: t :: ts ++ [s]).map Symbol.kind = (Phrase.call f q).yield := by
      simp [Phrase.yield, hu, ht, hyield, hq, hs]
    have htree : (Phrase.call f q).tree = .call f p.tree := by rw [Phrase.tree, hqt]
    have hneed : (Phrase.call f q).need = p.need + 2 := by
      rw [Phrase.need, Phrase.need_eq_of_yield_eq hq]
    have hcover : Covers (u :: t :: ts ++ [s]) (u.span.through s.span) :=
      (Covers.single u).around (t :: ts) (.single s)
    have hatom : base.activePrecedence ≤ Category.atom.inputPrecedence :=
      Nat.le_trans hlow (SymbolKind.func f).inputPrecedence_le
    simp only [List.length_cons] at hroom
    rw [← htree]
    exact reduced hbase _ hy hcover hatom (by omega) (by simpa using hsource)
      fun s' _ => s'.lt_atom

end BuiltWithin

/-- The symbols read so far made a viable stack, and the next symbol comes in below its bound. -/
def Built (source : Stream ν) (v : View ν) : Prop :=
  ∃ (ss : List (Symbol ν)) (bound : Nat), Viable v.1 ss bound ∧ source = ss.map .ok ++ v.2 ∧
    ∀ s, v.2.head? = some (.ok s) → s.kind.inputPrecedence < bound

theorem BuiltWithin.built {source : Stream ν} {limit : Nat} {v : View ν}
    (h : BuiltWithin limit source v) : Built source v := by
  obtain ⟨ss, bound, hseated, hsource, hnext⟩ := h
  exact ⟨ss, bound, hseated.viable, hsource, hnext⟩

namespace Built

variable {source : Stream ν} {limit : Nat} {v v' : View ν} {ev : Option (ParserEvent ν)}

/-- In front of a formula nothing has been read. -/
theorem ofSource [Literal ν] (text : String) (limit : Nat) :
    Built (Lexer.ofSource text).results (Parser.ofSource text limit : Parser ν).view :=
  (BuiltWithin.ofSource text limit).built

/-- **Transitions keep stacks viable.** -/
theorem transition (h : Transition limit v ev v') (hv : Built source v) : Built source v' := by
  obtain ⟨ss, bound, hviable, hsource, hnext⟩ := hv
  -- with ample room for the transition and for the stack in front of it
  obtain ⟨room, hseated⟩ := hviable.exists_seated
  have hv' : BuiltWithin (max room limit) source v' :=
    .transition (h.mono (Nat.le_max_right room limit))
      ⟨ss, bound, hseated.mono (Nat.le_max_left room limit), hsource, hnext⟩
  exact hv'.built

end Built

/-! ## 5. Answers are trees of derivations -/

namespace Viable

/-- The topmost active entry of a viable stack outranks the end of the formula. -/
theorem activePrecedence_pos {st : Stack ν} {ss : List (Symbol ν)} {bound : Nat}
    (h : Viable st ss bound) : 0 < st.activePrecedence := by
  induction h with
  | start => exact Nat.succ_pos 4
  | active h s hactive hbound ih => exact s.kind.stackPrecedence_pos
  | reduced h p hyield hspan hactive ih => exact ih

/-- No symbol that made a viable stack ends the formula. -/
theorem isEnd_eq_false {st : Stack ν} {ss : List (Symbol ν)} {bound : Nat}
    (h : Viable st ss bound) : ∀ s ∈ ss, s.kind.isEnd = false := by
  induction h with
  | start => simp
  | active h s hactive hbound ih =>
    intro t ht
    rcases List.mem_append.mp ht with ht | ht
    · exact ih t ht
    · obtain rfl := List.mem_singleton.mp ht
      have hpos := Nat.lt_of_lt_of_le h.activePrecedence_pos hactive
      exact SymbolKind.isEnd_of_inputPrecedence_pos hpos
  | reduced h p hyield hspan hactive ih =>
    intro t ht
    rcases List.mem_append.mp ht with ht | ht
    · exact ih t ht
    · exact p.isEnd_of_mem_yield _ (hyield ▸ List.mem_map_of_mem ht)

end Viable

namespace Parser

/-- An answer is the complete subexpression above the sentinel. -/
theorem stack_of_finish {p : Parser ν} {s : Symbol ν} {e : Expr ν} (h : p.finish s = .ok e) :
    ∃ (x : Slot ν) (span : Span), p.stack = [⟨.reduced e, span⟩, x] := by
  unfold finish at h
  split at h
  · next x e' span hst =>
    obtain rfl : e' = e := by simpa using h
    exact ⟨x, span, by simpa using congrArg List.reverse hst⟩
  · exact absurd h (by simp)
  · exact absurd h (by simp)

variable [Literal ν]

/-- A step gives an answer at the end of the formula, with one subexpression above the sentinel. -/
theorem view_of_answer {p : Parser ν} {ev : Option (ParserEvent ν)} {e : Expr ν}
    (h : p.step = (ev, .done (.ok e))) :
    ∃ (span span' : Span) (s : Symbol ν), s.kind = .endOfInput ∧
      p.view = ([⟨.reduced e, span⟩, ⟨.start, span'⟩], [.ok s]) := by
  unfold step at h
  split at h
  · exact absurd h (by simp)
  · next s lexer hn =>
    split at h
    · exact absurd h (by simp)
    · next top lower htop =>
      split at h
      · simp only [shift, Prod.mk.injEq] at h
        split at h <;> exact absurd h (by simp)
      · split at h
        · unfold close at h
          split at h
          · split at h <;> exact absurd h (by simp)
          · exact absurd h (by simp)
        · exact absurd h (by simp)
        · next hs hstart =>
          obtain ⟨x, span, hst⟩ := stack_of_finish (by simpa using congrArg Prod.snd h)
          rw [hst, Stack.fromActive_reduced] at htop
          obtain rfl : x = top := by
            cases hx : x.isReduced <;> simp_all [Stack.fromActive]
          obtain ⟨entry, span'⟩ := x
          obtain rfl : entry = .start := hstart
          refine ⟨span, span', s, hs, ?_⟩
          rw [view, hst, Lexer.results_of_next_end hn (by rw [hs]; rfl)]
        · unfold reduce at h
          split at h
          · exact absurd h (by simp)
          · simp only [Prod.mk.injEq] at h
            split at h <;> exact absurd h (by simp)

/-- **A run that gives an answer found a derivation of the whole formula.** -/
theorem exists_phrase_of_run {source : String} {limit : Nat} {e : Expr ν}
    (h : (ofSource source limit : Parser ν).run.2 = .ok e) :
    (Lexer.ofSource source : Lexer ν).IsClean ∧ ∃ p : Phrase ν .expr,
      p.yield = (Lexer.ofSource source : Lexer ν).symbols.map Symbol.kind ∧ p.tree = e := by
  obtain ⟨p', evs, ev, hs, -, hdone, -⟩ := (ofSource source limit : Parser ν).transitions_of_run
  rw [h] at hdone
  obtain ⟨span, span', s, hend, hview⟩ := view_of_answer hdone
  obtain ⟨ss, bound, hviable, hsource, -⟩ :=
    hs.preserves Built.transition (Built.ofSource source limit)
  rw [hview] at hviable hsource
  obtain ⟨hclean, hsymbols⟩ := Lexer.isClean_of_results hend hviable.isEnd_eq_false hsource
  obtain ⟨ss', ts, _, c, p, rfl, hyield, rfl, -, hbase, -, -⟩ := hviable.of_reduced
  obtain ⟨q, hq, hqt⟩ := p.exists_expr
  cases hbase
  refine ⟨hclean, q, ?_, hqt⟩
  rw [hsymbols, hq, ← hyield, List.nil_append]

end Parser

end SymbolicCalculus
