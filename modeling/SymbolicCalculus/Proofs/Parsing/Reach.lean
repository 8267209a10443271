/-
# The states of a run

`Parser.Reaches p n q` says that the parser `p` is in the state `q` after `n` steps that go on; a
run goes through such states to the step that ends it (`Parser.exists_reaches_done`).  What
transitions preserve holds in all of them (`Parser.Reaches.preserves`).

Two things are preserved in every run over a formula, whether it succeeds or fails.  The stack keeps
its shape (`Stack.IsSound`): the sentinel stays at the bottom, and no symbol waits that could not be
reduced.  And the number of steps is paid for: a symbol that can be read pays for two steps, an
active entry for one (`Transition.size_lt`), so that a run takes at most two steps for each symbol
and one more (`Parser.Reaches.length_le`).
-/
import SymbolicCalculus.Proofs.Parsing.Viable

namespace SymbolicCalculus

universe u

variable {ν : Type u}

/-! ## 1. States -/

namespace Parser

variable [Literal ν] {p p' q q' : Parser ν} {n : Nat} {ev : Option (ParserEvent ν)}

/-- After `n` steps that go on, the parser is in the state. -/
inductive Reaches (p : Parser ν) : Nat → Parser ν → Prop where
  | refl : Reaches p 0 p
  | next {n : Nat} {q q' : Parser ν} {ev : Option (ParserEvent ν)} (h : Reaches p n q)
      (hstep : q.step = (ev, .next q')) : Reaches p (n + 1) q'

namespace Reaches

/-- A step in front of the others. -/
theorem head (hstep : p.step = (ev, .next p')) (h : Reaches p' n q) : Reaches p (n + 1) q := by
  induction h with
  | refl => exact .next .refl hstep
  | next _ hnext ih => exact .next ih hnext

/-- What every transition preserves holds in every state of a run. -/
theorem preserves {Inv : View ν → Prop}
    (step : ∀ {limit v ev v'}, Transition limit v ev v' → Inv v → Inv v')
    (h : Reaches p n q) (hp : Inv p.view) : Inv q.view := by
  induction h with
  | refl => exact hp
  | next _ hstep ih => exact step (transition_of_step hstep).1 ih

end Reaches

/-- **Every run comes to a state whose step ends it.** -/
theorem exists_reaches_done (p : Parser ν) :
    ∃ (n : Nat) (q : Parser ν) (ev : Option (ParserEvent ν)),
      p.Reaches n q ∧ q.step = (ev, .done p.run.2) := by
  induction p using run.induct with
  | case1 p ev r h =>
    refine ⟨0, p, ev, .refl, ?_⟩
    rw [run_of_step_done h, h]
  | case2 p ev p' h _ ih =>
    obtain ⟨n, q, ev', hreach, hdone⟩ := ih
    refine ⟨n + 1, q, ev', hreach.head h, ?_⟩
    rw [run_of_step_next h, hdone]

end Parser

/-! ## 2. The shape of the stack -/

/-- The sentinel lies at the bottom and nowhere else, and neither a closing parenthesis nor the end
of the formula waits on the stack. -/
structure Stack.IsSound (st : Stack ν) : Prop where
  sentinel : ∃ above : Stack ν, st = above ++ [⟨.start, .empty 0⟩] ∧ ∀ x ∈ above, x.entry ≠ .start
  not_close : ∀ x ∈ st, x.entry ≠ .active .closeParen
  not_end : ∀ x ∈ st, x.entry ≠ .active .endOfInput

namespace Stack.IsSound

variable {st : Stack ν}

/-- Another entry on top keeps the shape, if it is no sentinel and no symbol that cannot wait. -/
theorem cons (h : st.IsSound) {x : Slot ν} (hstart : x.entry ≠ .start)
    (hclose : x.entry ≠ .active .closeParen) (hend : x.entry ≠ .active .endOfInput) :
    IsSound (x :: st) := by
  obtain ⟨above, rfl, habove⟩ := h.sentinel
  refine ⟨⟨x :: above, rfl, ?_⟩, ?_, ?_⟩
  · intro y hy
    rcases List.mem_cons.mp hy with rfl | hy
    · exact hstart
    · exact habove y hy
  · intro y hy
    rcases List.mem_cons.mp hy with rfl | hy
    · exact hclose
    · exact h.not_close y hy
  · intro y hy
    rcases List.mem_cons.mp hy with rfl | hy
    · exact hend
    · exact h.not_end y hy

/-- There is a topmost active entry. -/
theorem exists_fromActive (h : st.IsSound) : ∃ top lower, st.fromActive = top :: lower := by
  obtain ⟨above, rfl, -⟩ := h.sentinel
  refine List.exists_cons_of_ne_nil fun hnil => ?_
  have := List.dropWhile_eq_nil_iff.mp hnil ⟨.start, .empty 0⟩ (by simp)
  exact absurd this (by simp [Slot.isReduced])

/-- Below an active entry that is not the sentinel there is another one. -/
theorem exists_lower (h : st.IsSound) {top : Slot ν} {lower : Stack ν}
    (htop : st.fromActive = top :: lower) (hstart : top.entry ≠ .start) :
    ∃ x base, lower.fromActive = x :: base := by
  obtain ⟨above, hst, -⟩ := h.sentinel
  refine List.exists_cons_of_ne_nil fun hnil => ?_
  have hmem : (⟨.start, .empty 0⟩ : Slot ν) ∈ st := by simp [hst]
  rw [eq_of_fromActive htop] at hmem
  -- It is no operand, and it is not the topmost active entry; so it lies below that.
  rcases List.mem_append.mp hmem with hmem | hmem
  · exact absurd (List.mem_takeWhile_imp hmem) (by simp [Slot.isReduced])
  · rcases List.mem_cons.mp hmem with rfl | hmem
    · exact hstart rfl
    · exact absurd (List.dropWhile_eq_nil_iff.mp hnil _ hmem) (by simp [Slot.isReduced])

/-- The sentinel is an active entry. -/
theorem activeCount_pos (h : st.IsSound) : 0 < st.activeCount := by
  obtain ⟨above, rfl, -⟩ := h.sentinel
  rw [activeCount, List.countP_pos_iff]
  exact ⟨⟨.start, .empty 0⟩, by simp, rfl⟩

end Stack.IsSound

/-- A symbol that an active entry does not outrank can wait on the stack. -/
theorem SymbolKind.ne_of_inputPrecedence_pos {k : SymbolKind ν} (h : 0 < k.inputPrecedence) :
    k ≠ .closeParen ∧ k ≠ .endOfInput := by
  constructor
  · rintro rfl
    exact absurd h (by simp [inputPrecedence])
  · rintro rfl
    exact absurd h (by simp [inputPrecedence])

/-- **A viable stack is sound.** -/
theorem Viable.isSound {st : Stack ν} {ss : List (Symbol ν)} {bound : Nat}
    (h : Viable st ss bound) : st.IsSound := by
  induction h with
  | start => exact ⟨⟨[], rfl, by simp⟩, by simp, by simp⟩
  | active h s hactive _ ih =>
    have hpos := Nat.lt_of_lt_of_le h.activePrecedence_pos hactive
    obtain ⟨hclose, hend⟩ := SymbolKind.ne_of_inputPrecedence_pos hpos
    exact ih.cons (by simp) (by simpa using hclose) (by simpa using hend)
  | reduced _ p _ _ _ ih => exact ih.cons (by simp) (by simp) (by simp)

/-- What a step pushes is the symbol that is read next, and it comes in above the end of the
formula. -/
theorem Parser.next_of_shift [Literal ν] {p : Parser ν} {k : SymbolKind ν} {span : Span}
    {m : Move ν} (hstep : p.step = (some (.shift k span), m)) :
    (∃ lexer, p.lexer.next = (.ok ⟨k, span⟩, lexer)) ∧ 0 < k.inputPrecedence := by
  unfold step at hstep
  split at hstep
  · exact absurd hstep (by simp)
  · next s lexer hn =>
    split at hstep
    · exact absurd hstep (by simp)
    · next top lower htop =>
      split at hstep
      · next hprec =>
        obtain ⟨⟨rfl, rfl⟩, -⟩ : (s.kind = k ∧ s.span = span) ∧ _ := by simpa using hstep
        have hact := isReduced_of_fromActive htop
        exact ⟨⟨lexer, hn⟩, Nat.lt_of_lt_of_le (precedence_pos hact) hprec⟩
      · split at hstep
        · unfold close at hstep
          split at hstep
          · split at hstep <;> exact absurd hstep (by simp)
          · exact absurd hstep (by simp)
        · exact absurd hstep (by simp)
        · exact absurd hstep (by simp)
        · unfold reduce at hstep
          split at hstep <;> exact absurd hstep (by simp)

/-- **What a step pushes can wait on the stack**, even if the stack has no room for it. -/
theorem Stack.IsSound.of_shift [Literal ν] {p : Parser ν} (h : p.stack.IsSound) {k : SymbolKind ν}
    {span : Span} {m : Move ν} (hstep : p.step = (some (.shift k span), m)) :
    IsSound (⟨.active k, span⟩ :: p.stack) := by
  obtain ⟨hclose, hend⟩ := SymbolKind.ne_of_inputPrecedence_pos (Parser.next_of_shift hstep).2
  exact h.cons (by simp) (by simpa using hclose) (by simpa using hend)

/-! ## 3. The number of steps -/

/-- The symbols of a stream before the first error or the end of the formula. -/
def Stream.readable : Stream ν → List (Symbol ν)
  | .ok s :: rs => if s.kind.isEnd then [] else s :: readable rs
  | _ => []

theorem Stream.readable_cons {s : Symbol ν} (hs : s.kind.isEnd = false) (rs : Stream ν) :
    readable (.ok s :: rs) = s :: readable rs := by
  simp [readable, hs]

/-- A symbol that can be read is a symbol of the formula. -/
theorem Lexer.length_readable_le [Literal ν] (l : Lexer ν) :
    (Stream.readable l.results).length ≤ l.symbols.length := by
  rw [symbols]
  induction l.results with
  | nil => exact Nat.le_refl _
  | cons r rs ih =>
    cases r with
    | error e => exact Nat.zero_le _
    | ok s =>
      cases hs : s.kind.isEnd with
      | true => simp [Stream.readable, hs]
      | false => simpa [Stream.readable, hs] using ih

/-- The steps that a view can still pay for: two for each symbol that can be read, and one for each
active entry. -/
def View.size (v : View ν) : Nat :=
  2 * (Stream.readable v.2).length + Stack.activeCount v.1

/-- **Every transition is paid for**: it uses up a symbol, or it hands the symbol back and uses up
an active entry. -/
theorem Transition.size_lt {limit : Nat} {v v' : View ν} {ev : Option (ParserEvent ν)}
    (h : Transition limit v ev v') : View.size v' < View.size v := by
  cases h with
  | @shift st top lower s rs htop hprec _ =>
    have hs := Parser.isEnd_of_precedence_le (Parser.isReduced_of_fromActive htop) hprec
    simp only [View.size, Stream.readable_cons hs, Stack.activeCount_active, List.length_cons]
    omega
  | leaf | neg | binary =>
    -- the symbol is handed back, and is still to be read
    simp only [View.size, Stack.activeCount_active, Stack.activeCount_reduced]
    omega
  | @paren e openSpan span lower s rs hs _ =>
    have hend : s.kind.isEnd = false := by rw [hs]; rfl
    simp only [View.size, Stream.readable_cons hend, Stack.activeCount_active,
      Stack.activeCount_reduced, List.length_cons]
    omega
  | @call f e name openSpan span base s rs hs =>
    have hend : s.kind.isEnd = false := by rw [hs]; rfl
    simp only [View.size, Stream.readable_cons hend, Stack.activeCount_active,
      Stack.activeCount_reduced, List.length_cons]
    omega

namespace Parser

variable [Literal ν] {q : Parser ν} {n : Nat}

/-- The steps that were taken and those that can still be paid for. -/
theorem Reaches.size_le {p : Parser ν} (h : p.Reaches n q) :
    View.size q.view + n ≤ View.size p.view := by
  induction h with
  | refl => exact Nat.le_refl _
  | next _ hstep ih =>
    have hlt := (transition_of_step hstep).1.size_lt
    omega

variable {source : String} {limit : Nat}

/-- The stack of every state of a run over a formula has been built from its symbols. -/
theorem Reaches.built (h : (ofSource source limit : Parser ν).Reaches n q) :
    Built (Lexer.ofSource source : Lexer ν).results q.view :=
  h.preserves Built.transition (Built.ofSource source limit)

/-- **The stack is sound in every state of a run.** -/
theorem Reaches.isSound (h : (ofSource source limit : Parser ν).Reaches n q) : q.stack.IsSound := by
  obtain ⟨ss, bound, hviable, -, -⟩ := h.built
  exact hviable.isSound

/-- **A state is reached after at most two steps for each symbol** that can be read. -/
theorem Reaches.length_le (h : (ofSource source limit : Parser ν).Reaches n q) :
    n ≤ 2 * (Stream.readable (Lexer.ofSource source : Lexer ν).results).length := by
  have hsize := h.size_le
  have hpos : 0 < Stack.activeCount q.view.1 := h.isSound.activeCount_pos
  have hstart : Stack.activeCount (ofSource source limit : Parser ν).view.1 = 1 := rfl
  have hlexer : (ofSource source limit : Parser ν).view.2 =
    (Lexer.ofSource source : Lexer ν).results := rfl
  rw [View.size, View.size, hstart, hlexer] at hsize
  omega

end Parser

end SymbolicCalculus
