/-
# The stack addressed by positions

`Parser.step` takes the stack apart from the top.  A parser can also address its entries by their
positions, counted from the bottom, remove as many entries as it has counted, and hand symbols back
to a lexer that holds one at most.  `Parser.stepAt` is the step of such a parser: whatever is only
possible under a condition is a `Fault` where the condition fails.

Over a stack with the sentinel at its bottom no fault arises, and the step is the same
(`Parser.stepAt_eq_ok`).  Together with the shape of the stacks of a run and the number of its
steps, this says that every run over a formula ends and never leaves its data
(`Parser.ofSource_run_safe`).
-/
import SymbolicCalculus.Proofs.Parsing.Reach

namespace SymbolicCalculus

universe u

variable {ν : Type u}

/-! ## 1. Faults -/

/-- What can go wrong in a step that addresses entries by their positions. -/
inductive Fault where
  /-- There is no entry at the position. -/
  | outOfRange
  /-- No active entry lies below the topmost one. -/
  | noLowerActive
  /-- There are fewer entries than have to be removed. -/
  | handleMissing
  /-- A symbol is handed back while another one is held. -/
  | alreadyHeld
deriving DecidableEq

namespace Stack

/-- The entry at a position, counted from the bottom. -/
def entryAt (st : Stack ν) (i : Nat) : Except Fault (Slot ν) :=
  match st.reverse[i]? with
  | some x => .ok x
  | none => .error .outOfRange

/-- The entries below a position. -/
def below (st : Stack ν) (i : Nat) : Except Fault (Stack ν) :=
  if i ≤ st.length then .ok (st.drop (st.length - i)) else .error .outOfRange

/-- The position of the topmost active entry: the number of entries below it. -/
def topActive? : Stack ν → Option Nat
  | [] => none
  | x :: st => if x.isReduced then topActive? st else some st.length

/-- The topmost `n` entries, and what lies below them. -/
def popHandle (st : Stack ν) (n : Nat) : Except Fault (Stack ν × Stack ν) :=
  if n ≤ st.length then .ok (st.take n, st.drop n) else .error .handleMissing

end Stack

/-- Hands a symbol back to a lexer that must not hold one already. -/
def Lexer.handBack (l : Lexer ν) (s : Symbol ν) : Except Fault (Lexer ν) :=
  match l.held with
  | none => .ok (l.unget s)
  | some _ => .error .alreadyHeld

/-! ## 2. Steps that address positions -/

namespace Parser

/-- `Parser.reduce`, with the topmost active entry at the position `top`. -/
def reduceAt (lexer : Lexer ν) (p : Parser ν) (top : Nat) (s : Symbol ν) :
    Except Fault (Option (ParserEvent ν) × Move ν) := do
  match (← p.stack.below top).topActive? with
  | none => throw .noLowerActive
  | some lower =>
    let bottom ← p.stack.entryAt (lower + 1)
    let last ← p.stack.entryAt (p.stack.length - 1)
    let span := bottom.span.through last.span
    let n := p.stack.length - lower - 1
    let event := some (.reduce n span)
    if n = 1 ∨ n = 2 ∨ n = 3 then
      let (handle, base) ← p.stack.popHandle n
      match reduceHandle handle with
      | .ok e =>
        return (event, .next ⟨← lexer.handBack s, ⟨.reduced e, span⟩ :: base, p.limit⟩)
      | .error err => return (event, .done (.error err))
    else return (event, .done (.error ⟨.malformed, span⟩))

/-- `Parser.close`, with the open parenthesis at the position `opening`. -/
def closeAt (lexer : Lexer ν) (p : Parser ν) (opening : Nat) (s : Symbol ν) :
    Except Fault (Option (ParserEvent ν) × Move ν) := do
  let span := (← p.stack.entryAt opening).span.through s.span
  if p.stack.length - opening ≠ 2 then
    return (none, .done (.error ⟨.parenMismatch .contents, span⟩))
  else
    match ← p.stack.popHandle 2 with
    | ([⟨.reduced inner, _⟩, _], ⟨.active (.func f), name⟩ :: base) =>
      return (some (.fold f),
        .next ⟨lexer, ⟨.reduced (.call f inner), name.through span⟩ :: base, p.limit⟩)
    | ([⟨.reduced inner, _⟩, _], base) =>
      return (none, .next ⟨lexer, ⟨.reduced inner, span⟩ :: base, p.limit⟩)
    | _ => return (none, .done (.error ⟨.parenMismatch .contents, span⟩))

/-- `Parser.finish`, with the superfluous entries addressed by their positions. -/
def finishAt (p : Parser ν) (s : Symbol ν) : Except Fault (Except ParseError (Expr ν)) := do
  if p.stack.length ≠ 2 then
    match p.stack.reverse[2]? with
    | some extra =>
      let last ← p.stack.entryAt (p.stack.length - 1)
      return .error ⟨.malformed, extra.span.through last.span⟩
    | none => return .error ⟨.malformed, s.span⟩
  else
    match p.stack with
    | ⟨.reduced e, _⟩ :: _ => return .ok e
    | _ => return .error ⟨.malformed, s.span⟩

/-- `Parser.step`, with the topmost active entry found by its position. -/
def stepAt [Literal ν] (p : Parser ν) : Except Fault (Option (ParserEvent ν) × Move ν) :=
  match p.lexer.next with
  | (.error err, _) => return (none, .done (.error err))
  | (.ok s, lexer) => do
    let i := p.stack.topActive?.getD 0
    let top ← p.stack.entryAt i
    if top.precedence ≤ s.kind.inputPrecedence then
      return (some (.shift s.kind s.span), p.shift lexer s)
    else
      match s.kind, top.entry with
      | .closeParen, .active .openParen => p.closeAt lexer i s
      | .closeParen, .start => return (none, .done (.error ⟨.parenMismatch .unopened, s.span⟩))
      | .endOfInput, .start => return (none, .done (← p.finishAt s))
      | _, _ => p.reduceAt lexer i s

end Parser

/-! ## 3. The positions of entries -/

/-- A complete subexpression. -/
theorem Slot.exists_reduced {x : Slot ν} (h : x.isReduced = true) :
    ∃ e span, x = ⟨.reduced e, span⟩ := by
  obtain ⟨entry, span⟩ := x
  cases entry with
  | reduced e => exact ⟨e, span, rfl⟩
  | start => exact absurd h (by simp [isReduced])
  | active k => exact absurd h (by simp [isReduced])

namespace Stack

variable {x : Slot ν} {base : Stack ν}

/-- The position of an entry is the number of entries below it. -/
theorem entryAt_length (above : Stack ν) (x : Slot ν) (base : Stack ν) :
    entryAt (above ++ x :: base) base.length = .ok x := by
  simp [entryAt]

theorem below_length (above base : Stack ν) : below (above ++ base) base.length = .ok base := by
  simp [below]

theorem popHandle_length (handle base : Stack ν) :
    popHandle (handle ++ base) handle.length = .ok (handle, base) := by
  simp [popHandle]

/-- The entry at the position of the topmost active entry. -/
theorem entryAt_of_fromActive {st : Stack ν} (h : st.fromActive = x :: base) :
    st.entryAt base.length = .ok x := by
  rw [eq_of_fromActive h, entryAt_length]

/-- What lies below the position of the topmost active entry. -/
theorem below_of_fromActive {st : Stack ν} (h : st.fromActive = x :: base) :
    st.below base.length = .ok base := by
  rw [eq_of_fromActive h, ← List.singleton_append, ← List.append_assoc, below_length]

/-- The topmost active entry is found at its position. -/
theorem topActive?_of_fromActive {st : Stack ν} (h : st.fromActive = x :: base) :
    st.topActive? = some base.length := by
  induction st with
  | nil => exact absurd h (by simp [fromActive])
  | cons y st ih =>
    cases hy : y.isReduced with
    | true =>
      have htail : fromActive st = x :: base := by
        rw [← h]
        simp [fromActive, hy]
      simp [topActive?, hy, ih htail]
    | false =>
      rw [fromActive_cons hy] at h
      obtain ⟨rfl, rfl⟩ := List.cons.inj h
      simp [topActive?, hy]

/-- The ends of a handle are found at their positions, and the handle reaches from one to the
other. -/
theorem exists_ends {handle : Stack ν} (h : handle ≠ []) (base : Stack ν) :
    ∃ bottom last, entryAt (handle ++ base) base.length = .ok bottom ∧
      entryAt (handle ++ base) ((handle ++ base).length - 1) = .ok last ∧
      handle.span = bottom.span.through last.span := by
  obtain ⟨last, rest, rfl⟩ := List.exists_cons_of_ne_nil h
  obtain ⟨front, bottom, hfront⟩ : ∃ front bottom, last :: rest = front ++ [bottom] :=
    ⟨_, _, (List.dropLast_append_getLast h).symm⟩
  refine ⟨bottom, last, ?_, entryAt_length [] last (rest ++ base), ?_⟩
  · rw [hfront, List.append_assoc]
    exact entryAt_length front bottom base
  · have hbottom : (last :: rest).getLast? = some bottom := by rw [hfront, List.getLast?_concat]
    rw [span, hbottom]
    rfl

end Stack

/-! ## 4. The same steps -/

/-- The sentinel outranks nothing but a closing parenthesis and the end of the formula. -/
theorem SymbolKind.eq_of_inputPrecedence_lt {k : SymbolKind ν} (h : k.inputPrecedence < 5) :
    k = .closeParen ∨ k = .endOfInput := by
  cases k with
  | closeParen => exact .inl rfl
  | endOfInput => exact .inr rfl
  | binary op => cases op <;> exact absurd h (by simp [inputPrecedence])
  | _ => exact absurd h (by simp [inputPrecedence])

namespace Parser

/-- Only one, two or three entries can be reduced. -/
theorem reduceHandle_of_length {handle : Stack ν}
    (h : ¬ (handle.length = 1 ∨ handle.length = 2 ∨ handle.length = 3)) :
    reduceHandle handle = .error ⟨.malformed, handle.span⟩ := by
  match handle, h with
  | [], _ => rfl
  | [_], h => exact absurd (.inl rfl) h
  | [_, _], h => exact absurd (.inr (.inl rfl)) h
  | [_, _, _], h => exact absurd (.inr (.inr rfl)) h
  | _ :: _ :: _ :: _ :: _, _ => rfl

variable {p : Parser ν} {lexer : Lexer ν} {s : Symbol ν} {top x : Slot ν} {lower base : Stack ν}

/-- Over an active entry below the topmost one, a reduction addresses entries that exist. -/
theorem reduceAt_eq_ok (htop : p.stack.fromActive = top :: lower)
    (hbase : lower.fromActive = x :: base) (hheld : lexer.held = none) :
    p.reduceAt lexer lower.length s = .ok (p.reduce lexer top lower s) := by
  have hbelow := Stack.below_of_fromActive htop
  have hne : p.stack.operands ++ top :: lower.operands ≠ [] := by simp
  have hstack := Stack.eq_handle_append htop hbase
  rw [reduce, hbase]
  generalize p.stack.operands ++ top :: lower.operands = handle at hne hstack ⊢
  obtain ⟨bottom, last, hbottom, hlast, hspan⟩ := Stack.exists_ends hne (x :: base)
  have hlength : p.stack.length - base.length - 1 = handle.length := by
    rw [hstack, List.length_append, List.length_cons]
    omega
  have hback : lexer.handBack s = .ok (lexer.unget s) := by
    rw [Lexer.handBack, hheld]
  rw [List.length_cons, ← hstack] at hbottom
  rw [← hstack] at hlast
  rw [reduceAt, hbelow]
  simp only [bind, Except.bind, Stack.topActive?_of_fromActive hbase, hbottom, hlast, hlength,
    ← hspan]
  split
  · rw [hstack, Stack.popHandle_length]
    simp only
    cases hhandle : reduceHandle handle with
    | ok e => simp only [hback, pure, Except.pure]
    | error err => rfl
  · next h =>
    rw [reduceHandle_of_length h]
    rfl

/-- Closing a parenthesis addresses entries that exist. -/
theorem closeAt_eq_ok (htop : p.stack.fromActive = top :: lower) :
    p.closeAt lexer lower.length s = .ok (p.close lexer top lower s) := by
  have hstack := Stack.eq_of_fromActive htop
  have hentry := Stack.entryAt_of_fromActive htop
  have hreduced : ∀ y ∈ p.stack.operands, y.isReduced = true := fun y hy =>
    List.mem_takeWhile_imp hy
  have hlength : p.stack.length - lower.length = p.stack.operands.length + 1 := by
    have := congrArg List.length hstack
    rw [List.length_append, List.length_cons] at this
    omega
  simp only [closeAt, close, hentry, hlength, bind, Except.bind, pure, Except.pure]
  generalize p.stack.operands = operands at hstack hreduced ⊢
  cases operands with
  | nil => rfl
  | cons y ys =>
    cases ys with
    | cons z ys => simp
    | nil =>
      obtain ⟨inner, span, rfl⟩ := Slot.exists_reduced (hreduced y (List.mem_singleton_self y))
      have hpop : p.stack.popHandle 2 = .ok ([⟨.reduced inner, span⟩, top], lower) := by
        rw [hstack]
        exact Stack.popHandle_length [⟨.reduced inner, span⟩, top] lower
      rw [hpop]
      cases lower with
      | nil => rfl
      | cons x base =>
        obtain ⟨entry, name⟩ := x
        cases entry with
        | active k => cases k <;> rfl
        | start => rfl
        | reduced e => rfl

/-- The superfluous entries at the end of the formula are found at their positions. -/
theorem finishAt_eq_ok : p.finishAt s = .ok (p.finish s) := by
  obtain ⟨lexer, stack, limit⟩ := p
  obtain ⟨entries, rfl⟩ : ∃ entries : Stack ν, stack = entries.reverse :=
    ⟨stack.reverse, stack.reverse_reverse.symm⟩
  simp only [finishAt, finish, List.reverse_reverse, List.length_reverse]
  match entries with
  | [] => rfl
  | [_] => rfl
  | [_, ⟨entry, _⟩] => cases entry <;> rfl
  | x :: y :: extra :: rest =>
    have hne : (extra :: rest).reverse ≠ [] := by simp
    obtain ⟨bottom, last, hbottom, hlast, hspan⟩ := Stack.exists_ends hne [y, x]
    have hstack : (extra :: rest).reverse ++ [y, x] = (x :: y :: extra :: rest).reverse := by simp
    rw [hstack] at hbottom hlast
    obtain rfl : extra = bottom := by simpa [Stack.entryAt] using hbottom
    rw [List.length_reverse] at hlast
    rw [if_pos (by simp)]
    simp only [List.getElem?_cons_succ, List.getElem?_cons_zero, hlast, hspan]
    rfl

variable [Literal ν]

/-- **Over a stack of a sound shape no fault arises**, and the step that addresses positions is the
step. -/
theorem stepAt_eq_ok (h : p.stack.IsSound) : p.stepAt = .ok p.step := by
  have hheld := p.lexer.next_held
  obtain ⟨top, lower, htop⟩ := h.exists_fromActive
  have hentry := Stack.entryAt_of_fromActive htop
  rw [stepAt, step]
  cases hn : p.lexer.next with
  | mk r lexer =>
    rw [hn] at hheld
    cases r with
    | error err => rfl
    | ok s =>
      simp only [htop, Stack.topActive?_of_fromActive htop, Option.getD_some, hentry, bind,
        Except.bind]
      split
      · rfl
      · next hprec =>
        -- All that the sentinel outranks has a case of its own, so what is reduced lies above it.
        have houtranked (hstart : top.entry = .start) :
            s.kind = .closeParen ∨ s.kind = .endOfInput := by
          refine SymbolKind.eq_of_inputPrecedence_lt ?_
          simpa [Slot.precedence, hstart] using hprec
        have hreduce (hstart : top.entry ≠ .start) :
            p.reduceAt lexer lower.length s = .ok (p.reduce lexer top lower s) := by
          obtain ⟨x, base, hbase⟩ := h.exists_lower htop hstart
          exact reduceAt_eq_ok htop hbase hheld
        cases hs : s.kind with
        | closeParen =>
          cases hentry : top.entry with
          | start => rfl
          | reduced e => exact hreduce (by simp [hentry])
          | active k =>
            cases k with
            | openParen => exact closeAt_eq_ok htop
            | _ => exact hreduce (by simp [hentry])
        | endOfInput =>
          cases hentry : top.entry with
          | start =>
            rw [finishAt_eq_ok]
            rfl
          | _ => exact hreduce (by simp [hentry])
        | _ => exact hreduce fun hstart => by simpa [hs] using houtranked hstart

/-! ## 5. Runs over formulas -/

/-- **Every run over a formula ends and never leaves its data.**  It ends with a step that is taken
after at most two steps for each symbol before the end of the formula.  In all its states the stack
has the sentinel at its bottom and nowhere else, and no closing parenthesis and no end of the
formula on it, even while a symbol is pushed that the stack has no room for; and the step that
addresses entries by their positions, removes handles and hands symbols back meets no fault. -/
theorem ofSource_run_safe (source : String) (limit : Nat) :
    let p : Parser ν := ofSource source limit
    let n := (Stream.readable p.lexer.results).length
    n ≤ p.lexer.symbols.length ∧
    (∃ (i : Nat) (q : Parser ν) (ev : Option (ParserEvent ν)),
      p.Reaches i q ∧ q.step = (ev, .done p.run.2)) ∧
    ∀ (i : Nat) (q : Parser ν), p.Reaches i q →
      i + 1 ≤ 2 * n + 1 ∧ q.stack.IsSound ∧ q.stepAt = .ok q.step ∧
      ∀ (k : SymbolKind ν) (span : Span) (m : Move ν), q.step = (some (.shift k span), m) →
        Stack.IsSound (⟨.active k, span⟩ :: q.stack) := by
  refine ⟨Lexer.length_readable_le _, exists_reaches_done _, fun i q h => ?_⟩
  have hsound := h.isSound
  exact ⟨Nat.succ_le_succ h.length_le, hsound, stepAt_eq_ok hsound,
    fun _ _ _ => hsound.of_shift⟩

end Parser

end SymbolicCalculus
