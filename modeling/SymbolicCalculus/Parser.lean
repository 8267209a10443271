/-
# The operator-precedence parser

The parser reads symbols and keeps a stack of entries: symbols that still wait for operands
(*active*), and subexpressions that are complete (*reduced*).  The bottom of the stack is a
sentinel.  In one `step` it reads a symbol and compares it with the topmost active entry:

* if the entry does not outrank the symbol, the symbol is *shifted*, that is, pushed;
* a closing parenthesis over an open one replaces the pair by what stands between them, or, behind a
  function, makes it the argument of the call;
* at the end of the formula, over the sentinel, the stack holds the answer;
* otherwise the *handle*, everything above the next lower active entry, is *reduced* to a
  subexpression, and the symbol is handed back to be read again.

The handle decides what is built: one entry is a number or a parameter, two are a negation, three an
infix operation.

`run` repeats the step.  It ends because every step lowers `Parser.size` (`step_size_lt`): shifting
and closing use up a symbol, and reducing uses up an active entry.
-/
import SymbolicCalculus.Expr.Basic
import SymbolicCalculus.Lexer

namespace SymbolicCalculus

universe u

/-! ## 1. The stack -/

/-- An entry of the stack. -/
inductive Entry (ν : Type u) where
  /-- The sentinel at the bottom. -/
  | start
  /-- A symbol that waits for operands. -/
  | active (kind : SymbolKind ν)
  /-- A complete subexpression. -/
  | reduced (e : Expr ν)

/-- An entry of the stack and the region of the source that it covers. -/
structure Slot (ν : Type u) where
  entry : Entry ν
  span : Span

namespace Slot

variable {ν : Type u}

/-- Whether the entry is a complete subexpression. -/
def isReduced (s : Slot ν) : Bool :=
  match s.entry with
  | .reduced _ => true
  | _ => false

/-- The precedence of an entry; complete subexpressions take no part in comparisons. -/
def precedence (s : Slot ν) : Nat :=
  match s.entry with
  | .start => 5
  | .active kind => kind.stackPrecedence
  | .reduced _ => 0

end Slot

/-- The entries of the parser, the topmost first. -/
abbrev Stack (ν : Type u) := List (Slot ν)

namespace Stack

variable {ν : Type u}

/-- The complete subexpressions above the topmost active entry. -/
def operands (st : Stack ν) : Stack ν := st.takeWhile Slot.isReduced

/-- The stack from the topmost active entry down. -/
def fromActive (st : Stack ν) : Stack ν := st.dropWhile Slot.isReduced

/-- The number of entries that are not complete subexpressions. -/
def activeCount (st : Stack ν) : Nat := st.countP (fun s => !s.isReduced)

/-- A complete subexpression is not counted. -/
@[simp] theorem activeCount_reduced (e : Expr ν) (span : Span) (st : Stack ν) :
    activeCount (⟨.reduced e, span⟩ :: st) = activeCount st := by
  simp [activeCount, Slot.isReduced]

/-- A waiting symbol counts. -/
@[simp] theorem activeCount_active (kind : SymbolKind ν) (span : Span) (st : Stack ν) :
    activeCount (⟨.active kind, span⟩ :: st) = activeCount st + 1 := by
  simp [activeCount, Slot.isReduced]

/-- The region that a run of entries covers. -/
def span (st : Stack ν) : Span :=
  match st.getLast?, st.head? with
  | some bottom, some top => bottom.span.through top.span
  | _, _ => .empty 0

end Stack

/-! ## 2. The moves of the parser -/

/-- What a step of the parser does, for those who watch it. -/
inductive ParserEvent (ν : Type u) where
  /-- A symbol is pushed onto the stack. -/
  | shift (kind : SymbolKind ν) (span : Span)
  /-- A handle is about to be reduced. -/
  | reduce (entries : Nat) (span : Span)
  /-- A parenthesized subexpression becomes the argument of a call. -/
  | fold (f : Func)

/-- The state of the parser. -/
structure Parser (ν : Type u) where
  /-- The symbols still to be read. -/
  lexer : Lexer ν
  stack : Stack ν
  /-- The number of entries at which the stack is full. -/
  limit : Nat

/-- The outcome of a step: the next state, or the end of the run. -/
inductive Move (ν : Type u) where
  | next (p : Parser ν)
  | done (result : Except ParseError (Expr ν))

namespace Parser

variable {ν : Type u}

/-- The capacity of the stack unless another one is asked for. -/
def defaultLimit : Nat := 100

/-- The parser in front of a formula. -/
def ofSource (source : String) (limit : Nat) : Parser ν :=
  ⟨.ofSource source, [⟨.start, .empty 0⟩], limit⟩

/-- The subexpression that a handle, topmost entry first, stands for. -/
def reduceHandle (handle : Stack ν) : Except ParseError (Expr ν) :=
  match handle with
  | [leaf] =>
    match leaf.entry with
    | .active (.number v) => .ok (.number v)
    | .active (.param p) => .ok (.param p)
    | _ => .error ⟨.parameterExpected, handle.span⟩
  | [operand, op] =>
    match op.entry, operand.entry with
    | .active .neg, .reduced a => .ok (.neg a)
    | .active .openParen, _ => .error ⟨.parenMismatch .unclosed, op.span⟩
    | _, _ => .error ⟨.oneOperandExpected, handle.span⟩
  | [rhs, op, lhs] =>
    match lhs.entry, op.entry, rhs.entry with
    | .reduced a, .active (.binary op), .reduced b => .ok (.binary op a b)
    | _, _, _ => .error ⟨.twoOperandsExpected, handle.span⟩
  | _ => .error ⟨.malformed, handle.span⟩

/-- Pushes a symbol. -/
def shift (lexer : Lexer ν) (p : Parser ν) (s : Symbol ν) : Move ν :=
  let stack := ⟨.active s.kind, s.span⟩ :: p.stack
  if p.limit ≤ stack.length then .done (.error ⟨.stackOverflow p.limit, s.span⟩)
  else .next ⟨lexer, stack, p.limit⟩

/-- Reduces the handle above the active entries in `lower`, which lie below the active entry
`top`. -/
def reduce (lexer : Lexer ν) (p : Parser ν) (top : Slot ν) (lower : Stack ν)
    (s : Symbol ν) : Option (ParserEvent ν) × Move ν :=
  match Stack.fromActive lower with
  | [] => (none, .done (.error ⟨.malformed, s.span⟩))
  | base =>
    let handle : Stack ν := p.stack.operands ++ top :: Stack.operands lower
    (some (.reduce handle.length handle.span),
      match reduceHandle handle with
      | .ok e => .next ⟨lexer.unget s, ⟨.reduced e, handle.span⟩ :: base, p.limit⟩
      | .error err => .done (.error err))

/-- Closes the parenthesis `opening`, which lies above the entries in `lower`. -/
def close (lexer : Lexer ν) (p : Parser ν) (opening : Slot ν) (lower : Stack ν)
    (s : Symbol ν) : Option (ParserEvent ν) × Move ν :=
  let span := opening.span.through s.span
  match p.stack.operands with
  | [⟨.reduced inner, _⟩] =>
    match lower with
    | ⟨.active (.func f), name⟩ :: base =>
      (some (.fold f),
        .next ⟨lexer, ⟨.reduced (.call f inner), name.through span⟩ :: base, p.limit⟩)
    | base => (none, .next ⟨lexer, ⟨.reduced inner, span⟩ :: base, p.limit⟩)
  | _ => (none, .done (.error ⟨.parenMismatch .contents, span⟩))

/-- The answer at the end of the formula, when only the sentinel is active. -/
def finish (p : Parser ν) (s : Symbol ν) : Except ParseError (Expr ν) :=
  match p.stack.reverse with
  | [_, ⟨.reduced e, _⟩] => .ok e
  | _ :: _ :: extra :: rest => .error ⟨.malformed, Stack.span (extra :: rest).reverse⟩
  | _ => .error ⟨.malformed, s.span⟩

/-- Reads one symbol and does what it asks for. -/
def step [Literal ν] (p : Parser ν) : Option (ParserEvent ν) × Move ν :=
  match p.lexer.next with
  | (.error err, _) => (none, .done (.error err))
  | (.ok s, lexer) =>
    match p.stack.fromActive with
    | [] => (none, .done (.error ⟨.malformed, s.span⟩))
    | top :: lower =>
      if top.precedence ≤ s.kind.inputPrecedence then
        (some (.shift s.kind s.span), p.shift lexer s)
      else
        match s.kind, top.entry with
        | .closeParen, .active .openParen => p.close lexer top lower s
        | .closeParen, .start => (none, .done (.error ⟨.parenMismatch .unopened, s.span⟩))
        | .endOfInput, .start => (none, .done (p.finish s))
        | _, _ => p.reduce lexer top lower s

/-! ## 3. Every step makes progress -/

/-- A bound on the number of steps that are still to be done. -/
def size (p : Parser ν) : Nat := 2 * p.lexer.pending + Stack.activeCount p.stack

/-- What lies at and below the topmost active entry holds no more active entries than the stack. -/
theorem activeCount_fromActive_le (st : Stack ν) :
    Stack.activeCount (Stack.fromActive st) ≤ Stack.activeCount st :=
  (List.dropWhile_sublist _).countP_le

/-- The topmost active entry is not a complete subexpression. -/
theorem isReduced_of_fromActive {st lower : Stack ν} {top : Slot ν}
    (h : Stack.fromActive st = top :: lower) : top.isReduced = false := by
  have := List.head?_dropWhile_not Slot.isReduced st
  rw [Stack.fromActive] at h
  simpa [h] using this

/-- An active entry outranks the end of the formula. -/
theorem precedence_pos {s : Slot ν} (h : s.isReduced = false) : 0 < s.precedence := by
  unfold Slot.isReduced at h
  unfold Slot.precedence
  split
  · decide
  · exact SymbolKind.stackPrecedence_pos _
  · next he => simp [he] at h

/-- A symbol that an active entry does not outrank does not end the formula. -/
theorem isEnd_of_precedence_le {x : Slot ν} {k : SymbolKind ν} (hx : x.isReduced = false)
    (h : x.precedence ≤ k.inputPrecedence) : k.isEnd = false :=
  SymbolKind.isEnd_of_inputPrecedence_pos (Nat.lt_of_lt_of_le (precedence_pos hx) h)

/-- Shifting uses up a symbol. -/
theorem shift_size_lt {p p' : Parser ν} {lexer : Lexer ν} {s : Symbol ν}
    (hl : lexer.pending + 1 ≤ p.lexer.pending) (h : p.shift lexer s = .next p') :
    p'.size < p.size := by
  simp only [shift] at h
  split at h
  · exact absurd h (by simp)
  · simp only [Move.next.injEq] at h
    subst h
    simp only [size, Stack.activeCount_active]
    omega

/-- Closing a parenthesis uses up a symbol. -/
theorem close_size_lt {p p' : Parser ν} {lexer : Lexer ν} {top : Slot ν} {lower : Stack ν}
    {s : Symbol ν} (hl : lexer.pending + 1 ≤ p.lexer.pending)
    (hs : Stack.activeCount lower ≤ Stack.activeCount p.stack)
    (h : (p.close lexer top lower s).2 = .next p') : p'.size < p.size := by
  unfold close at h
  split at h
  · split at h
    · simp only [Move.next.injEq] at h
      subst h
      simp only [Stack.activeCount_active] at hs
      simp only [size, Stack.activeCount_reduced]
      omega
    · simp only [Move.next.injEq] at h
      subst h
      simp only [size, Stack.activeCount_reduced]
      omega
  · exact absurd h (by simp)

/-- Reducing uses up an active entry. -/
theorem reduce_size_lt {p p' : Parser ν} {lexer : Lexer ν} {top : Slot ν} {lower : Stack ν}
    {s : Symbol ν} (hl : (lexer.unget s).pending ≤ p.lexer.pending)
    (hs : Stack.activeCount lower + 1 ≤ Stack.activeCount p.stack)
    (h : (p.reduce lexer top lower s).2 = .next p') : p'.size < p.size := by
  have hle := activeCount_fromActive_le lower
  unfold reduce at h
  split at h
  · exact absurd h (by simp)
  · simp only at h
    split at h
    · simp only [Move.next.injEq] at h
      subst h
      simp only [size, Stack.activeCount_reduced]
      omega
    · exact absurd h (by simp)

/-- Every step makes progress: it uses up a symbol or an active entry. -/
theorem step_size_lt [Literal ν] {p p' : Parser ν} (h : p.step.2 = .next p') :
    p'.size < p.size := by
  unfold step at h
  split at h
  · exact absurd h (by simp)
  · next s lexer hn =>
    have hp := Lexer.next_pending hn
    have hu := Lexer.next_unget_pending hn
    split at h
    · exact absurd h (by simp)
    · next top lower hst =>
      have hact := isReduced_of_fromActive hst
      have hcount : Stack.activeCount lower + 1 ≤ Stack.activeCount p.stack := by
        have := activeCount_fromActive_le p.stack
        rw [hst] at this
        simpa [Stack.activeCount, List.countP_cons, hact] using this
      split at h
      · next hle =>
        refine shift_size_lt ?_ h
        simpa [isEnd_of_precedence_le hact hle] using hp
      · split at h
        · next hk _ =>
          refine close_size_lt ?_ (by omega) h
          simpa [hk, SymbolKind.isEnd] using hp
        · exact absurd h (by simp)
        · exact absurd h (by simp)
        · exact reduce_size_lt hu hcount h

/-! ## 4. Runs -/

/-- The events of a run from the given state, and its result. -/
def run [Literal ν] (p : Parser ν) : List (ParserEvent ν) × Except ParseError (Expr ν) :=
  match h : p.step with
  | (event, .done result) => (event.toList, result)
  | (event, .next p') =>
    have := step_size_lt (congrArg Prod.snd h)
    (event.toList ++ p'.run.1, p'.run.2)
termination_by p.size

end Parser

/-- The expression that a formula stands for, found with a stack of the given capacity. -/
def Expr.parseWithin {ν : Type u} [Literal ν] (limit : Nat) (source : String) :
    Except ParseError (Expr ν) :=
  (Parser.ofSource source limit).run.2

/-- The expression that a formula stands for. -/
def Expr.parse {ν : Type u} [Literal ν] (source : String) : Except ParseError (Expr ν) :=
  parseWithin Parser.defaultLimit source

end SymbolicCalculus
