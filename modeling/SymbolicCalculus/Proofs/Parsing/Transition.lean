/-
# The transitions of the parser

What matters of a parser is its stack and the stream of symbols in front of it, its *view*.  A
`Transition` is a step that goes on, written out on views: one constructor for the push of a symbol,
one for each handle that reduces, and two for the closing of a parenthesis.

The transitions are exactly the steps that go on: `transition_of_step` says that a step makes no
other move, and `step_of_transition` that a transition whose conditions hold is taken.
-/
import SymbolicCalculus.Parser
import SymbolicCalculus.Proofs.Stream

namespace SymbolicCalculus

universe u

variable {ν : Type u}

/-! ## 1. Views -/

/-- What reading still gives, errors included. -/
abbrev Stream (ν : Type u) := List (Except ParseError (Symbol ν))

/-- The stack of a parser and the stream in front of it. -/
abbrev View (ν : Type u) := Stack ν × Stream ν

/-- The view of a parser. -/
def Parser.view [Literal ν] (p : Parser ν) : View ν := (p.stack, p.lexer.results)

/-- The expression that a symbol is on its own, if it is one. -/
def SymbolKind.leaf? : SymbolKind ν → Option (Expr ν)
  | number v => some (.number v)
  | param p => some (.param p)
  | _ => none

/-! ## 2. Transitions -/

/-- A step of a parser of the given capacity that goes on, and its event. -/
inductive Transition (limit : Nat) : View ν → Option (ParserEvent ν) → View ν → Prop where
  /-- A symbol that the topmost active entry does not outrank is pushed. -/
  | shift {st : Stack ν} {top : Slot ν} {lower : Stack ν} {s : Symbol ν} {rs : Stream ν}
      (htop : st.fromActive = top :: lower)
      (hprec : top.precedence ≤ s.kind.inputPrecedence) (hroom : st.length + 1 < limit) :
      Transition limit (st, .ok s :: rs) (some (.shift s.kind s.span))
        (⟨.active s.kind, s.span⟩ :: st, rs)
  /-- A number or a parameter is an expression. -/
  | leaf {k : SymbolKind ν} {e : Expr ν} {span : Span} {x : Slot ν} {lower : Stack ν}
      {s : Symbol ν} {rs : Stream ν} (hk : k.leaf? = some e) (hx : x.isReduced = false)
      (hprec : s.kind.inputPrecedence < k.stackPrecedence) :
      Transition limit (⟨.active k, span⟩ :: x :: lower, .ok s :: rs) (some (.reduce 1 span))
        (⟨.reduced e, span⟩ :: x :: lower, .ok s :: rs)
  /-- A minus sign and its operand are a negation. -/
  | neg {a : Expr ν} {opSpan span : Span} {x : Slot ν} {lower : Stack ν} {s : Symbol ν}
      {rs : Stream ν} (hx : x.isReduced = false)
      (hprec : s.kind.inputPrecedence < (SymbolKind.neg : SymbolKind ν).stackPrecedence) :
      Transition limit (⟨.reduced a, span⟩ :: ⟨.active .neg, opSpan⟩ :: x :: lower, .ok s :: rs)
        (some (.reduce 2 (opSpan.through span)))
        (⟨.reduced (.neg a), opSpan.through span⟩ :: x :: lower, .ok s :: rs)
  /-- An operator and its operands are an infix operation. -/
  | binary {op : BinaryOp} {a b : Expr ν} {lhsSpan opSpan rhsSpan : Span} {x : Slot ν}
      {lower : Stack ν} {s : Symbol ν} {rs : Stream ν} (hx : x.isReduced = false)
      (hprec : s.kind.inputPrecedence < (SymbolKind.binary op : SymbolKind ν).stackPrecedence) :
      Transition limit
        (⟨.reduced b, rhsSpan⟩ :: ⟨.active (.binary op), opSpan⟩ :: ⟨.reduced a, lhsSpan⟩ :: x ::
          lower, .ok s :: rs)
        (some (.reduce 3 (lhsSpan.through rhsSpan)))
        (⟨.reduced (.binary op a b), lhsSpan.through rhsSpan⟩ :: x :: lower, .ok s :: rs)
  /-- Parentheses that no function precedes are dropped. -/
  | paren {e : Expr ν} {openSpan span : Span} {lower : Stack ν} {s : Symbol ν} {rs : Stream ν}
      (hs : s.kind = .closeParen)
      (hlower : ∀ (f : Func) (name : Span) (base : Stack ν),
        lower ≠ ⟨.active (.func f), name⟩ :: base) :
      Transition limit (⟨.reduced e, span⟩ :: ⟨.active .openParen, openSpan⟩ :: lower, .ok s :: rs)
        none (⟨.reduced e, openSpan.through s.span⟩ :: lower, rs)
  /-- Parentheses behind a function hold its argument. -/
  | call {f : Func} {e : Expr ν} {name openSpan span : Span} {base : Stack ν} {s : Symbol ν}
      {rs : Stream ν} (hs : s.kind = .closeParen) :
      Transition limit
        (⟨.reduced e, span⟩ :: ⟨.active .openParen, openSpan⟩ :: ⟨.active (.func f), name⟩ :: base,
          .ok s :: rs)
        (some (.fold f))
        (⟨.reduced (.call f e), name.through (openSpan.through s.span)⟩ :: base, rs)

/-- What a parser does with little room it does with more. -/
theorem Transition.mono {limit limit' : Nat} {v v' : View ν} {ev : Option (ParserEvent ν)}
    (h : Transition limit v ev v') (hle : limit ≤ limit') : Transition limit' v ev v' := by
  cases h with
  | shift htop hprec hroom => exact .shift htop hprec (Nat.lt_of_lt_of_le hroom hle)
  | leaf hk hx hprec => exact .leaf hk hx hprec
  | neg hx hprec => exact .neg hx hprec
  | binary hx hprec => exact .binary hx hprec
  | paren hs hlower => exact .paren hs hlower
  | call hs => exact .call hs

/-! ## 3. The shapes of stacks and handles -/

namespace Stack

theorem operands_append_fromActive (st : Stack ν) : st.operands ++ st.fromActive = st :=
  List.takeWhile_append_dropWhile

/-- A stack is what lies above its topmost active entry, the entry, and what lies below it. -/
theorem eq_of_fromActive {st base : Stack ν} {x : Slot ν} (h : st.fromActive = x :: base) :
    st = st.operands ++ x :: base := by
  rw [← h, operands_append_fromActive]

/-- A stack is its handle, which reaches down from the top to above the next lower active entry, and
what lies below the handle. -/
theorem eq_handle_append {st lower base : Stack ν} {top x : Slot ν}
    (htop : st.fromActive = top :: lower) (hbase : lower.fromActive = x :: base) :
    st = (st.operands ++ top :: lower.operands) ++ x :: base := by
  rw [List.append_assoc, List.cons_append, ← eq_of_fromActive hbase, ← eq_of_fromActive htop]

@[simp] theorem fromActive_reduced (e : Expr ν) (span : Span) (st : Stack ν) :
    fromActive (⟨.reduced e, span⟩ :: st) = fromActive st := rfl

@[simp] theorem operands_reduced (e : Expr ν) (span : Span) (st : Stack ν) :
    operands (⟨.reduced e, span⟩ :: st) = ⟨.reduced e, span⟩ :: operands st := rfl

@[simp] theorem fromActive_cons {x : Slot ν} (hx : x.isReduced = false) (st : Stack ν) :
    fromActive (x :: st) = x :: st := by
  simp [fromActive, hx]

@[simp] theorem operands_cons {x : Slot ν} (hx : x.isReduced = false) (st : Stack ν) :
    operands (x :: st) = [] := by
  simp [operands, hx]

@[simp] theorem fromActive_active (k : SymbolKind ν) (span : Span) (st : Stack ν) :
    fromActive (⟨.active k, span⟩ :: st) = ⟨.active k, span⟩ :: st := rfl

@[simp] theorem operands_active (k : SymbolKind ν) (span : Span) (st : Stack ν) :
    operands (⟨.active k, span⟩ :: st) = [] := rfl

end Stack

/-- The shapes of the handles that reduce. -/
theorem Parser.reduceHandle_eq_ok {handle : Stack ν} {e : Expr ν}
    (h : Parser.reduceHandle handle = .ok e) :
    (∃ k span, handle = [⟨.active k, span⟩] ∧ k.leaf? = some e) ∨
    (∃ a span opSpan, handle = [⟨.reduced a, span⟩, ⟨.active .neg, opSpan⟩] ∧ e = .neg a) ∨
    (∃ op a b rhsSpan opSpan lhsSpan, handle =
      [⟨.reduced b, rhsSpan⟩, ⟨.active (.binary op), opSpan⟩, ⟨.reduced a, lhsSpan⟩] ∧
      e = .binary op a b) := by
  unfold reduceHandle at h
  split at h
  · next leaf =>
    obtain ⟨entry, span⟩ := leaf
    cases entry with
    | start => exact absurd h (by simp)
    | reduced a => exact absurd h (by simp)
    | active k =>
      refine .inl ⟨k, span, rfl, ?_⟩
      cases k <;> simp_all [SymbolKind.leaf?]
  · next operand op =>
    obtain ⟨entry, span⟩ := operand
    obtain ⟨entry', opSpan⟩ := op
    simp only at h
    split at h
    · next a => exact .inr (.inl ⟨a, span, opSpan, rfl, by simpa using h.symm⟩)
    · exact absurd h (by simp)
    · exact absurd h (by simp)
  · next rhs op lhs =>
    obtain ⟨entry₁, rhsSpan⟩ := rhs
    obtain ⟨entry₂, opSpan⟩ := op
    obtain ⟨entry₃, lhsSpan⟩ := lhs
    simp only at h
    split at h
    · next a o b =>
      exact .inr (.inr ⟨o, a, b, rhsSpan, opSpan, lhsSpan, rfl, by simpa using h.symm⟩)
    · exact absurd h (by simp)
  · exact absurd h (by simp)

/-! ## 4. Transitions are the steps that go on -/

namespace Parser

variable [Literal ν] {p p' : Parser ν}

theorem transition_of_shift {lexer : Lexer ν} {s : Symbol ν} {top : Slot ν} {lower : Stack ν}
    (hn : p.lexer.next = (.ok s, lexer)) (htop : p.stack.fromActive = top :: lower)
    (hprec : top.precedence ≤ s.kind.inputPrecedence) (h : p.shift lexer s = .next p') :
    Transition p.limit p.view (some (.shift s.kind s.span)) p'.view ∧ p'.limit = p.limit := by
  have he := isEnd_of_precedence_le (isReduced_of_fromActive htop) hprec
  simp only [shift, List.length_cons] at h
  split at h
  · exact absurd h (by simp)
  · next hlimit =>
    obtain rfl := Move.next.inj h
    refine ⟨?_, rfl⟩
    rw [view, view, Lexer.results_of_next hn he]
    exact .shift htop hprec (by omega)

theorem transition_of_close {lexer : Lexer ν} {s : Symbol ν} {top : Slot ν} {lower : Stack ν}
    (hn : p.lexer.next = (.ok s, lexer)) (htop : p.stack.fromActive = top :: lower)
    (hs : s.kind = .closeParen) (hopen : top.entry = .active .openParen)
    {ev : Option (ParserEvent ν)} (h : p.close lexer top lower s = (ev, .next p')) :
    Transition p.limit p.view ev p'.view ∧ p'.limit = p.limit := by
  obtain ⟨entry, openSpan⟩ := top
  obtain rfl : entry = .active .openParen := hopen
  have he : s.kind.isEnd = false := by rw [hs]; rfl
  have hst := Stack.eq_of_fromActive htop
  unfold close at h
  split at h
  · next inner span hops =>
    rw [hops] at hst
    rw [view, view, hst, Lexer.results_of_next hn he]
    split at h
    · next f name base =>
      obtain ⟨rfl, rfl⟩ : some (.fold f) = ev ∧ _ = p' := by simpa using h
      exact ⟨.call hs, rfl⟩
    · next hlower =>
      obtain ⟨rfl, rfl⟩ : none = ev ∧ _ = p' := by simpa using h
      exact ⟨.paren hs (by simpa using hlower), rfl⟩
  · exact absurd h (by simp)

theorem transition_of_reduce {lexer : Lexer ν} {s : Symbol ν} {top : Slot ν} {lower : Stack ν}
    (hn : p.lexer.next = (.ok s, lexer)) (htop : p.stack.fromActive = top :: lower)
    (hprec : s.kind.inputPrecedence < top.precedence)
    {ev : Option (ParserEvent ν)} (h : p.reduce lexer top lower s = (ev, .next p')) :
    Transition p.limit p.view ev p'.view ∧ p'.limit = p.limit := by
  have hact := isReduced_of_fromActive htop
  unfold reduce at h
  split at h
  · exact absurd h (by simp)
  · next hbase =>
    cases hb : lower.fromActive with
    | nil => exact absurd hb hbase
    | cons x base =>
      have hx := isReduced_of_fromActive hb
      simp only [Prod.mk.injEq] at h
      obtain ⟨rfl, h⟩ := h
      split at h
      · next e hhandle =>
        obtain rfl := Move.next.inj h
        refine ⟨?_, rfl⟩
        have hstack := Stack.eq_handle_append htop hb
        have hmem : top ∈ p.stack.operands ++ top :: lower.operands := by simp
        rw [view, view, Lexer.results_unget hn, hb]
        obtain ⟨rest, hrest⟩ := Lexer.exists_results_of_next hn
        rw [hrest]
        generalize p.stack.operands ++ top :: lower.operands = handle at hhandle hmem hstack ⊢
        rw [hstack]
        rcases reduceHandle_eq_ok hhandle with ⟨k, span, rfl, hk⟩ | ⟨a, span, opSpan, rfl, rfl⟩ |
          ⟨op, a, b, rhsSpan, opSpan, lhsSpan, rfl, rfl⟩
        · obtain rfl : top = ⟨.active k, span⟩ := by simpa using hmem
          exact .leaf hk hx hprec
        · obtain rfl : top = ⟨.active .neg, opSpan⟩ := by
            rcases List.mem_pair.mp hmem with rfl | rfl
            · exact absurd hact (by simp [Slot.isReduced])
            · rfl
          exact .neg hx hprec
        · obtain rfl : top = ⟨.active (.binary op), opSpan⟩ := by
            simp only [List.mem_cons, List.not_mem_nil, or_false] at hmem
            rcases hmem with rfl | rfl | rfl
            · exact absurd hact (by simp [Slot.isReduced])
            · rfl
            · exact absurd hact (by simp [Slot.isReduced])
          exact .binary hx hprec
      · exact absurd h (by simp)

/-- **A step that goes on is a transition.** -/
theorem transition_of_step {ev : Option (ParserEvent ν)} (h : p.step = (ev, .next p')) :
    Transition p.limit p.view ev p'.view ∧ p'.limit = p.limit := by
  unfold step at h
  split at h
  · exact absurd h (by simp)
  · next s lexer hn =>
    split at h
    · exact absurd h (by simp)
    · next top lower htop =>
      split at h
      · next hprec =>
        obtain ⟨rfl, hshift⟩ : some (.shift s.kind s.span) = ev ∧ p.shift lexer s = .next p' := by
          simpa using h
        exact transition_of_shift hn htop hprec hshift
      · next hprec =>
        split at h
        · next hs hopen => exact transition_of_close hn htop hs hopen h
        · exact absurd h (by simp)
        · exact absurd h (by simp)
        · exact transition_of_reduce hn htop (by omega) h

theorem step_of_shift {s : Symbol ν} {rs : Stream ν} {top : Slot ν} {lower : Stack ν}
    (hr : p.lexer.results = .ok s :: rs) (htop : p.stack.fromActive = top :: lower)
    (hprec : top.precedence ≤ s.kind.inputPrecedence) (hroom : p.stack.length + 1 < p.limit) :
    ∃ p', p.step = (some (.shift s.kind s.span), .next p') ∧
      p'.view = (⟨.active s.kind, s.span⟩ :: p.stack, rs) ∧ p'.limit = p.limit := by
  obtain ⟨lexer, hn, hrest⟩ := Lexer.next_of_results hr
  have he := isEnd_of_precedence_le (isReduced_of_fromActive htop) hprec
  refine ⟨⟨lexer, ⟨.active s.kind, s.span⟩ :: p.stack, p.limit⟩, ?_, ?_, rfl⟩
  · have : ¬ p.limit ≤ p.stack.length + 1 := by omega
    simp [step, hn, htop, hprec, shift, this]
  · rw [view, hrest he]

theorem step_of_reduce (k : SymbolKind ν) (span : Span) (lower handle : Stack ν) {s : Symbol ν}
    {rs : Stream ν} {x : Slot ν} {base : Stack ν} {e : Expr ν}
    (hr : p.lexer.results = .ok s :: rs) (htop : p.stack.fromActive = ⟨.active k, span⟩ :: lower)
    (hbase : lower.fromActive = x :: base)
    (hhandle : p.stack.operands ++ ⟨.active k, span⟩ :: lower.operands = handle)
    (hprec : s.kind.inputPrecedence < k.stackPrecedence) (hopen : k ≠ .openParen)
    (he : reduceHandle handle = .ok e) :
    ∃ p', p.step = (some (.reduce handle.length handle.span), .next p') ∧
      p'.view = (⟨.reduced e, handle.span⟩ :: x :: base, .ok s :: rs) ∧ p'.limit = p.limit := by
  obtain ⟨lexer, hn, -⟩ := Lexer.next_of_results hr
  refine ⟨⟨lexer.unget s, ⟨.reduced e, handle.span⟩ :: x :: base, p.limit⟩, ?_, ?_, rfl⟩
  · have hle : ¬ Slot.precedence (⟨.active k, span⟩ : Slot ν) ≤ s.kind.inputPrecedence := by
      simpa [Slot.precedence] using hprec
    simp only [step, hn, htop, if_neg hle]
    split
    · next h => exact absurd (Entry.active.inj h) hopen
    · next h => exact absurd h (by simp)
    · next h => exact absurd h (by simp)
    · simp [reduce, hbase, hhandle, he]
  · rw [view, Lexer.results_unget hn, hr]

theorem step_of_close {s : Symbol ν} {rs : Stream ν} {e : Expr ν} {openSpan span : Span}
    {lower : Stack ν} (hr : p.lexer.results = .ok s :: rs)
    (hst : p.stack = ⟨.reduced e, span⟩ :: ⟨.active .openParen, openSpan⟩ :: lower)
    (hs : s.kind = .closeParen) :
    ∃ lexer, lexer.results = rs ∧
      p.step = p.close lexer ⟨.active .openParen, openSpan⟩ lower s := by
  obtain ⟨lexer, hn, hrest⟩ := Lexer.next_of_results hr
  refine ⟨lexer, hrest (by rw [hs]; rfl), ?_⟩
  have hle : ¬ Slot.precedence (⟨.active .openParen, openSpan⟩ : Slot ν) ≤
      s.kind.inputPrecedence := by
    simp [hs, Slot.precedence, SymbolKind.stackPrecedence, SymbolKind.inputPrecedence]
  simp only [step, hn, hst, Stack.fromActive_reduced, Stack.fromActive_active, if_neg hle]
  rw [hs]

/-- **A transition whose conditions hold is taken.** -/
theorem step_of_transition {ev : Option (ParserEvent ν)} {v : View ν}
    (h : Transition p.limit p.view ev v) :
    ∃ p', p.step = (ev, .next p') ∧ p'.view = v ∧ p'.limit = p.limit := by
  generalize hv : p.view = w at h
  have hst : p.stack = w.1 := congrArg Prod.fst hv
  have hr : p.lexer.results = w.2 := congrArg Prod.snd hv
  cases h with
  | shift htop hprec hroom =>
    have := step_of_shift hr (by rw [hst]; exact htop) hprec (by rw [hst]; exact hroom)
    rwa [hst] at this
  | @leaf k e span x lower s rs hk hx hprec =>
    refine step_of_reduce k span (x :: lower) [⟨.active k, span⟩] hr (by simp [hst])
      (Stack.fromActive_cons hx _) (by simp [hst, hx]) hprec ?_ ?_
    · cases k <;> simp_all [SymbolKind.leaf?]
    · cases k <;> simp_all [SymbolKind.leaf?, reduceHandle]
  | @neg a opSpan span x lower s rs hx hprec =>
    exact step_of_reduce .neg opSpan (x :: lower) [⟨.reduced a, span⟩, ⟨.active .neg, opSpan⟩] hr
      (by simp [hst]) (Stack.fromActive_cons hx _) (by simp [hst, hx]) hprec (by simp) rfl
  | @binary op a b lhsSpan opSpan rhsSpan x lower s rs hx hprec =>
    exact step_of_reduce (.binary op) opSpan (⟨.reduced a, lhsSpan⟩ :: x :: lower)
      [⟨.reduced b, rhsSpan⟩, ⟨.active (.binary op), opSpan⟩, ⟨.reduced a, lhsSpan⟩] hr
      (by simp [hst]) (by simp [hx]) (by simp [hst, hx]) hprec (by simp) rfl
  | @paren e openSpan span lower s rs hs hlower =>
    obtain ⟨lexer, hrest, hstep⟩ := step_of_close hr hst hs
    refine ⟨⟨lexer, ⟨.reduced e, openSpan.through s.span⟩ :: lower, p.limit⟩, ?_, ?_, rfl⟩
    · rw [hstep]
      unfold close
      simp [hst]
    · rw [view, hrest]
  | @call f e name openSpan span base s rs hs =>
    obtain ⟨lexer, hrest, hstep⟩ := step_of_close hr hst hs
    refine ⟨⟨lexer, ⟨.reduced (.call f e), name.through (openSpan.through s.span)⟩ :: base,
      p.limit⟩, ?_, ?_, rfl⟩
    · rw [hstep]
      simp [close, hst]
    · rw [view, hrest]

end Parser

end SymbolicCalculus
