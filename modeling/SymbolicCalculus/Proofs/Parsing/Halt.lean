/-
# How runs end

A `Halt` is a step that ends a run, written out on views: one constructor for each way in which a
formula is accepted or refused.

Over a stack of a sound shape the halts are exactly the steps that end a run (`Parser.halt_of_step`,
`Parser.step_of_halt`).  Together with the transitions, which are the steps that go on, they say
what parsing gives: it gives a result exactly if transitions lead from the formula to a view that
halts with the result (`Expr.parseWithin_eq_iff`).
-/
import SymbolicCalculus.Proofs.Parsing.Positions

namespace SymbolicCalculus

universe u

variable {ν : Type u}

/-! ## 1. Halts -/

/-- A step of a parser of the given capacity that ends the run, and the result of the run. -/
inductive Halt (limit : Nat) : View ν → Except ParseError (Expr ν) → Prop where
  /-- What comes next means nothing. -/
  | unreadable {st : Stack ν} {err : ParseError} {rs : Stream ν} :
      Halt limit (st, .error err :: rs) (.error err)
  /-- The stack is full once the symbol is pushed. -/
  | overflow {st : Stack ν} {top : Slot ν} {lower : Stack ν} {s : Symbol ν} {rs : Stream ν}
      (htop : st.fromActive = top :: lower)
      (hprec : top.precedence ≤ s.kind.inputPrecedence) (hfull : limit ≤ st.length + 1) :
      Halt limit (st, .ok s :: rs) (.error ⟨.stackOverflow limit, s.span⟩)
  /-- Parentheses do not hold exactly one expression. -/
  | contents {st lower : Stack ν} {openSpan : Span} {s : Symbol ν} {rs : Stream ν}
      (htop : st.fromActive = ⟨.active .openParen, openSpan⟩ :: lower) (hs : s.kind = .closeParen)
      (hcontents : st.operands.length ≠ 1) :
      Halt limit (st, .ok s :: rs) (.error ⟨.parenMismatch .contents, openSpan.through s.span⟩)
  /-- No parenthesis is open that could be closed. -/
  | unopened {st lower : Stack ν} {span : Span} {s : Symbol ν} {rs : Stream ν}
      (htop : st.fromActive = ⟨.start, span⟩ :: lower) (hs : s.kind = .closeParen) :
      Halt limit (st, .ok s :: rs) (.error ⟨.parenMismatch .unopened, s.span⟩)
  /-- At the end of the formula there is one expression. -/
  | answer {e : Expr ν} {span startSpan : Span} {s : Symbol ν} {rs : Stream ν}
      (hs : s.kind = .endOfInput) :
      Halt limit ([⟨.reduced e, span⟩, ⟨.start, startSpan⟩], .ok s :: rs) (.ok e)
  /-- At the end of the formula there is more than one expression. -/
  | leftover {st more : Stack ν} {first : Slot ν} {startSpan : Span} {s : Symbol ν}
      {rs : Stream ν} (htop : st.fromActive = [⟨.start, startSpan⟩]) (hs : s.kind = .endOfInput)
      (hoperands : st.operands = more ++ [first]) (hmore : more ≠ []) :
      Halt limit (st, .ok s :: rs) (.error ⟨.malformed, more.span⟩)
  /-- At the end of the formula there is no expression. -/
  | empty {startSpan : Span} {s : Symbol ν} {rs : Stream ν} (hs : s.kind = .endOfInput) :
      Halt limit ([⟨.start, startSpan⟩], .ok s :: rs) (.error ⟨.malformed, s.span⟩)
  /-- The handle above the next lower active entry does not reduce. -/
  | handle {st : Stack ν} {top : Slot ν} {lower : Stack ν} {x : Slot ν} {base : Stack ν}
      {s : Symbol ν} {rs : Stream ν} {err : ParseError} (htop : st.fromActive = top :: lower)
      (hbase : lower.fromActive = x :: base) (hstart : top.entry ≠ .start)
      (hclose : s.kind = .closeParen → top.entry ≠ .active .openParen)
      (hprec : s.kind.inputPrecedence < top.precedence)
      (hhandle : Parser.reduceHandle (st.operands ++ top :: lower.operands) = .error err) :
      Halt limit (st, .ok s :: rs) (.error err)

/-! ## 2. Halts are the steps that end a run -/

/-- Over a sound stack, the sentinel is the topmost active entry only if nothing lies below it. -/
theorem Stack.IsSound.lower_eq_nil {st lower : Stack ν} {top : Slot ν} (h : st.IsSound)
    (htop : st.fromActive = top :: lower) (hstart : top.entry = .start) : lower = [] := by
  obtain ⟨above, hst, habove⟩ := h.sentinel
  by_contra hne
  obtain ⟨front, last, rfl⟩ : ∃ front last, lower = front ++ [last] :=
    ⟨_, _, (List.dropLast_append_getLast hne).symm⟩
  have hst' := eq_of_fromActive htop
  rw [hst, ← List.cons_append, ← List.append_assoc] at hst'
  obtain ⟨hsplit, -⟩ := List.append_inj' hst' rfl
  have hmem : top ∈ above := by
    rw [hsplit]
    simp
  exact habove top hmem hstart

namespace Parser

variable {p : Parser ν}

/-- At the end of the formula, the sentinel alone holds no answer, one expression above it is the
answer, and more than one are too many. -/
theorem halt_of_finish {limit : Nat} {s : Symbol ν} {rs : Stream ν} {startSpan : Span}
    (htop : p.stack.fromActive = [⟨.start, startSpan⟩]) (hs : s.kind = .endOfInput) :
    Halt limit (p.stack, .ok s :: rs) (p.finish s) := by
  have hst := Stack.eq_of_fromActive htop
  have hreduced : ∀ y ∈ p.stack.operands, y.isReduced = true := fun y hy =>
    List.mem_takeWhile_imp hy
  rw [finish]
  generalize hoperands : p.stack.operands = operands at hst hreduced
  rcases List.eq_nil_or_concat operands with rfl | ⟨more, first, rfl⟩
  · rw [hst]
    exact .empty hs
  · rw [List.concat_eq_append] at hst hoperands hreduced
    cases hmore : more with
    | nil =>
      obtain ⟨e, span, rfl⟩ := Slot.exists_reduced (hreduced first (by simp))
      rw [hst, hmore]
      exact .answer hs
    | cons y ys =>
      have hne : more ≠ [] := by simp [hmore]
      obtain ⟨extra, rest, hrest⟩ := List.exists_cons_of_ne_nil (List.reverse_ne_nil_iff.mpr hne)
      have hspan : (extra :: rest).reverse = more := by rw [← hrest, List.reverse_reverse]
      have hreverse : p.stack.reverse = ⟨.start, startSpan⟩ :: first :: extra :: rest := by
        rw [hst]
        simp [hrest]
      rw [hreverse]
      simp only [hspan]
      exact .leftover htop hs hoperands hne

variable [Literal ν]

/-- **A step that ends a run is a halt.** -/
theorem halt_of_step {ev : Option (ParserEvent ν)} {r : Except ParseError (Expr ν)}
    (hsound : p.stack.IsSound) (h : p.step = (ev, .done r)) : Halt p.limit p.view r := by
  unfold step at h
  split at h
  · next err lexer hn =>
    obtain ⟨-, rfl⟩ : none = ev ∧ Except.error err = r := by simpa using h
    rw [view, Lexer.results_of_next_error hn]
    exact .unreadable
  · next s lexer hn =>
    obtain ⟨rs, hrs⟩ := Lexer.exists_results_of_next hn
    rw [view, hrs]
    obtain ⟨top, lower, htop⟩ := hsound.exists_fromActive
    rw [htop] at h
    simp only at h
    split at h
    · next hprec =>
      simp only [shift, List.length_cons, Prod.mk.injEq] at h
      split at h
      · next hfull =>
        obtain rfl := Move.done.inj h.2
        exact .overflow htop hprec hfull
      · exact absurd h.2 (by simp)
    · next hprec =>
      split at h
      · next hs hopen =>
        obtain ⟨entry, openSpan⟩ := top
        obtain rfl : entry = .active .openParen := hopen
        unfold close at h
        split at h
        · split at h <;> exact absurd h (by simp)
        · next hcontents =>
          obtain rfl := Move.done.inj (Prod.mk.inj h).2
          refine .contents htop hs fun hlength => ?_
          obtain ⟨x, hx⟩ := List.length_eq_one_iff.mp hlength
          obtain ⟨inner, span, rfl⟩ := Slot.exists_reduced
            (List.mem_takeWhile_imp (p := Slot.isReduced) (l := p.stack) (by
              rw [Stack.operands] at hx
              rw [hx]
              exact List.mem_singleton_self x))
          exact hcontents inner span hx
      · next hs hstart =>
        obtain ⟨entry, span⟩ := top
        obtain rfl : entry = .start := hstart
        obtain rfl := Move.done.inj (Prod.mk.inj h).2
        exact .unopened htop hs
      · next hs hstart =>
        obtain rfl := hsound.lower_eq_nil htop hstart
        obtain ⟨entry, span⟩ := top
        obtain rfl : entry = .start := hstart
        obtain rfl := Move.done.inj (Prod.mk.inj h).2
        exact halt_of_finish htop hs
      · next hclose hunopened hend =>
        have hstart : top.entry ≠ .start := by
          intro hstart
          have houtranked : s.kind.inputPrecedence < 5 := by
            simpa [Slot.precedence, hstart] using hprec
          rcases SymbolKind.eq_of_inputPrecedence_lt houtranked with hs | hs
          · exact hunopened hs hstart
          · exact hend hs hstart
        obtain ⟨x, base, hbase⟩ := hsound.exists_lower htop hstart
        unfold reduce at h
        rw [hbase] at h
        simp only [Prod.mk.injEq] at h
        split at h
        · exact absurd h.2 (by simp)
        · next err hhandle =>
          obtain rfl := Move.done.inj h.2
          exact .handle htop hbase hstart hclose (by omega) hhandle

/-- **A halt whose conditions hold ends the run.** -/
theorem step_of_halt {r : Except ParseError (Expr ν)} (h : Halt p.limit p.view r) :
    ∃ ev, p.step = (ev, .done r) := by
  generalize hv : p.view = v at h
  have hst : p.stack = v.1 := congrArg Prod.fst hv
  have hr : p.lexer.results = v.2 := congrArg Prod.snd hv
  cases h with
  | @unreadable st err rs =>
    cases hn : p.lexer.next with
    | mk result lexer =>
      cases result with
      | ok s =>
        obtain ⟨rest, hrest⟩ := Lexer.exists_results_of_next hn
        rw [hr] at hrest
        exact absurd hrest (by simp)
      | error err' =>
        rw [Lexer.results_of_next_error hn] at hr
        obtain rfl : err' = err := by simpa using congrArg List.head? hr
        exact ⟨none, by rw [step, hn]⟩
  | @overflow st top lower s rs htop hprec hfull =>
    obtain ⟨lexer, hn, -⟩ := Lexer.next_of_results hr
    exact ⟨_, by simp only [step, hn, hst, htop, if_pos hprec, shift, List.length_cons,
      if_pos hfull]; rfl⟩
  | @contents st lower openSpan s rs htop hs hcontents =>
    obtain ⟨lexer, hn, -⟩ := Lexer.next_of_results hr
    have hle : ¬ Slot.precedence (⟨.active .openParen, openSpan⟩ : Slot ν) ≤
        s.kind.inputPrecedence := by
      simp [hs, Slot.precedence, SymbolKind.stackPrecedence, SymbolKind.inputPrecedence]
    refine ⟨none, ?_⟩
    simp only [step, hn, hst, htop, if_neg hle]
    rw [hs]
    simp only [close, hst]
    split
    · next hoperands => exact absurd (congrArg List.length hoperands) hcontents
    · rfl
  | @unopened st lower span s rs htop hs =>
    obtain ⟨lexer, hn, -⟩ := Lexer.next_of_results hr
    have hle : ¬ Slot.precedence (⟨.start, span⟩ : Slot ν) ≤ s.kind.inputPrecedence := by
      simp [hs, Slot.precedence, SymbolKind.inputPrecedence]
    refine ⟨none, ?_⟩
    simp only [step, hn, hst, htop, if_neg hle]
    rw [hs]
  | @answer e span startSpan s rs hs =>
    obtain ⟨lexer, hn, -⟩ := Lexer.next_of_results hr
    have hle : ¬ Slot.precedence (⟨.start, startSpan⟩ : Slot ν) ≤ s.kind.inputPrecedence := by
      simp [hs, Slot.precedence, SymbolKind.inputPrecedence]
    have htop : Stack.fromActive [⟨.reduced e, span⟩, ⟨.start, startSpan⟩] =
        [⟨.start, startSpan⟩] := rfl
    refine ⟨none, ?_⟩
    simp only [step, hn, hst, htop, if_neg hle]
    rw [hs]
    simp [finish, hst]
  | @leftover st more first startSpan s rs htop hs hoperands hmore =>
    obtain ⟨lexer, hn, -⟩ := Lexer.next_of_results hr
    have hle : ¬ Slot.precedence (⟨.start, startSpan⟩ : Slot ν) ≤ s.kind.inputPrecedence := by
      simp [hs, Slot.precedence, SymbolKind.inputPrecedence]
    obtain ⟨extra, rest, hrest⟩ := List.exists_cons_of_ne_nil (List.reverse_ne_nil_iff.mpr hmore)
    have hspan : (extra :: rest).reverse = more := by rw [← hrest, List.reverse_reverse]
    have hreverse : st.reverse = ⟨.start, startSpan⟩ :: first :: extra :: rest := by
      rw [Stack.eq_of_fromActive htop, hoperands]
      simp [hrest]
    refine ⟨none, ?_⟩
    simp only [step, hn, hst, htop, if_neg hle]
    rw [hs]
    simp only [finish, hst, hreverse, hspan]
  | @empty startSpan s rs hs =>
    obtain ⟨lexer, hn, -⟩ := Lexer.next_of_results hr
    have hle : ¬ Slot.precedence (⟨.start, startSpan⟩ : Slot ν) ≤ s.kind.inputPrecedence := by
      simp [hs, Slot.precedence, SymbolKind.inputPrecedence]
    have htop : Stack.fromActive [⟨.start, startSpan⟩] = [(⟨.start, startSpan⟩ : Slot ν)] := rfl
    refine ⟨none, ?_⟩
    simp only [step, hn, hst, htop, if_neg hle]
    rw [hs]
    simp [finish, hst]
  | @handle st top lower x base s rs err htop hbase hstart hclose hprec hhandle =>
    obtain ⟨lexer, hn, -⟩ := Lexer.next_of_results hr
    have hle : ¬ top.precedence ≤ s.kind.inputPrecedence := by omega
    simp only [step, hn, hst, htop, if_neg hle]
    split
    · next hs hopen => exact absurd hopen (hclose hs)
    · next hs' => exact absurd hs' hstart
    · next hs' => exact absurd hs' hstart
    · exact ⟨_, by simp only [reduce, hbase, hst, hhandle]; rfl⟩

end Parser

/-! ## 3. What parsing gives -/

/-- **Parsing gives a result exactly if transitions lead from the formula to a view that halts with
the result.** -/
theorem Expr.parseWithin_eq_iff [Literal ν] {source : String} {limit : Nat}
    {r : Except ParseError (Expr ν)} :
    parseWithin limit source = r ↔ ∃ (evs : List (ParserEvent ν)) (v : View ν),
      Transitions limit (Parser.ofSource source limit : Parser ν).view evs v ∧ Halt limit v r := by
  constructor
  · rintro rfl
    obtain ⟨p, evs, ev, htransitions, hlimit, hdone, -⟩ :=
      (Parser.ofSource source limit : Parser ν).transitions_of_run
    have hlimit : p.limit = limit := hlimit
    obtain ⟨ss, bound, hviable, -, -⟩ :=
      htransitions.preserves Built.transition (Built.ofSource source limit)
    have hhalt := Parser.halt_of_step hviable.isSound hdone
    rw [hlimit] at hhalt
    exact ⟨evs, p.view, htransitions, hhalt⟩
  · rintro ⟨evs, v, htransitions, hhalt⟩
    obtain ⟨p, hview, hlimit, hrun⟩ :=
      Parser.run_of_transitions (p := Parser.ofSource source limit) htransitions rfl
    have hlimit : p.limit = limit := hlimit
    rw [← hview, ← hlimit] at hhalt
    obtain ⟨ev, hdone⟩ := Parser.step_of_halt hhalt
    rw [parseWithin, hrun, Parser.run_of_step_done hdone]

end SymbolicCalculus
