/-
# From tokens to symbols

A `Lexer` reads the symbols of a formula one after another.  It remembers whether an operand is
expected, which decides what a minus sign means, and it can hold one symbol that was handed back
(`unget`) and is delivered again by the next reading.

A function keyword may be split behind its prefix `arc`, as in `arc sin(x)`: a name that is just
`arc` takes the token behind it along.

`pending` counts what is left to read; `next_pending` says that reading lowers it, except at the end
of the formula, where nothing changes any more.  So `results` can read everything.
-/
import SymbolicCalculus.Keyword
import SymbolicCalculus.ParseError
import SymbolicCalculus.Symbol
import SymbolicCalculus.Token

namespace SymbolicCalculus

universe u

/-! ## 1. Classifying tokens -/

/-- The error for a token that means nothing.  Only a name suggests a function. -/
def ParseError.undefined (t : Token) : ParseError :=
  ⟨.undefinedToken t.text (if t.kind = .name then Func.suggest? t.lexeme else none), t.span⟩

namespace SymbolKind

variable {ν : Type u}

/-- The meaning of a run of letters: a single letter is a parameter, a keyword is a function. -/
def ofName? : List Char → Option (SymbolKind ν)
  | [c] => (Param.ofLetter? c).map param
  | cs => (Func.ofKeyword? cs).map func

/-- The meaning of a token that stands for itself alone. -/
def ofToken? [Literal ν] (expectsOperand : Bool) (t : Token) : Option (SymbolKind ν) :=
  match t.kind with
  | .number => some (number (Literal.ofDecimal (Decimal.ofLexeme t.lexeme)))
  | .name => ofName? t.lexeme
  | .add => some (binary .add)
  | .sub => some (if expectsOperand then neg else binary .sub)
  | .mul => some (binary .mul)
  | .div => some (binary .div)
  | .exp => some (binary .pow)
  | .openParen => some openParen
  | .closeParen => some closeParen
  | .whitespace | .symbol => none

end SymbolKind

/-- Whether the token is the prefix of an inverse function, standing alone. -/
def Token.isArc (t : Token) : Bool :=
  t.kind == .name && lowercase t.lexeme == ['a', 'r', 'c']

namespace Symbol

variable {ν : Type u}

/-- The inverse function whose keyword is split over the two tokens. -/
def ofSplitName (arc name : Token) : Except ParseError (Symbol ν) :=
  let joined := arc.lexeme ++ name.lexeme
  let span := arc.span.through name.span
  match Func.ofKeyword? joined with
  | some f => .ok ⟨.func f, span⟩
  | none => .error ⟨.undefinedToken (String.ofList joined) (Func.suggest? joined), span⟩

/-- The symbol that starts with the token, and the tokens behind it.  An `arc` that no name follows
means nothing, but the token behind it is used up all the same. -/
def read [Literal ν] (expectsOperand : Bool) (t : Token) (rest : List Token) :
    Except ParseError (Symbol ν) × List Token :=
  if t.isArc then
    match Token.nextSolid? rest with
    | some (u, rest) =>
      if u.kind = .name then (ofSplitName t u, rest) else (.error (.undefined t), rest)
    | none => (.error (.undefined t), [])
  else
    match SymbolKind.ofToken? expectsOperand t with
    | some kind => (.ok ⟨kind, t.span⟩, rest)
    | none => (.error (.undefined t), rest)

/-- Reading a symbol uses up no token twice. -/
theorem length_read_le [Literal ν] (b : Bool) (t : Token) (rest : List Token) :
    (read (ν := ν) b t rest).2.length ≤ rest.length := by
  unfold read
  split
  · split
    · next u us hn =>
      have := Token.length_nextSolid? hn
      split <;> simp only <;> omega
    · simp
  · split <;> simp

end Symbol

/-! ## 2. The lexer -/

/-- The symbols of a formula that are still to be read. -/
structure Lexer (ν : Type u) where
  /-- The tokens that have not been read. -/
  tokens : List Token
  /-- The length of the formula, where its end symbol stands. -/
  length : Nat
  /-- Whether the last symbol read asks for an operand; the start of the formula does. -/
  expectsOperand : Bool
  /-- The symbol that was handed back. -/
  held : Option (Symbol ν)

namespace Lexer

variable {ν : Type u}

/-- The lexer in front of a formula. -/
def ofSource (source : String) : Lexer ν :=
  ⟨Token.tokenize source, source.utf8ByteSize, true, none⟩

/-- Hands a symbol back, to be read again. -/
def unget (l : Lexer ν) (s : Symbol ν) : Lexer ν := { l with held := some s }

/-- The symbol at the end of the formula. -/
def endSymbol (l : Lexer ν) : Symbol ν := ⟨.endOfInput, .empty l.length⟩

/-- The next symbol or what is wrong there, and the lexer behind it.  At the end of the formula the
end symbol is read again and again. -/
def next [Literal ν] (l : Lexer ν) : Except ParseError (Symbol ν) × Lexer ν :=
  match l.held with
  | some s => (.ok s, { l with held := none })
  | none =>
    match Token.nextSolid? l.tokens with
    | none => (.ok l.endSymbol, { l with tokens := [] })
    | some (t, rest) =>
      match Symbol.read l.expectsOperand t rest with
      | (.ok s, rest) => (.ok s, { l with tokens := rest, expectsOperand := s.kind.expectsOperand })
      | (.error e, rest) => (.error e, { l with tokens := rest })

/-! ## 3. What is left to read -/

/-- The number of tokens and held symbols that are still to be read; a held end symbol does not
count, since it can always be read again. -/
def pending (l : Lexer ν) : Nat :=
  l.tokens.length + match l.held with
    | some s => if s.kind.isEnd then 0 else 1
    | none => 0

/-- Nothing is held after a reading. -/
theorem next_held [Literal ν] (l : Lexer ν) : l.next.2.held = none := by
  unfold next
  split
  · rfl
  · next hh =>
    split
    · exact hh
    · split <;> exact hh

/-- Reading a symbol uses it up, unless it is the end symbol. -/
theorem next_pending [Literal ν] {l l' : Lexer ν} {s : Symbol ν} (h : l.next = (.ok s, l')) :
    l'.pending + (if s.kind.isEnd then 0 else 1) ≤ l.pending := by
  unfold next at h
  split at h
  · next t hh =>
    simp only [Prod.mk.injEq, Except.ok.injEq] at h
    obtain ⟨rfl, rfl⟩ := h
    simp [pending, hh]
  · next hh =>
    split at h
    · simp only [Prod.mk.injEq, Except.ok.injEq] at h
      obtain ⟨rfl, rfl⟩ := h
      simp [pending, hh, endSymbol, SymbolKind.isEnd]
    · next t rest ht =>
      have hlt := Token.length_nextSolid? ht
      have hle := Symbol.length_read_le (ν := ν) l.expectsOperand t rest
      split at h
      · next u us hr =>
        simp only [Prod.mk.injEq, Except.ok.injEq] at h
        obtain ⟨rfl, rfl⟩ := h
        rw [hr] at hle
        simp only [pending, hh]
        split <;> simp only at hle <;> omega
      · exact absurd h (by simp)

/-- Reading past an error uses up the token that is in error. -/
theorem next_error_pending [Literal ν] {l l' : Lexer ν} {e : ParseError}
    (h : l.next = (.error e, l')) : l'.pending + 1 ≤ l.pending := by
  unfold next at h
  split at h
  · exact absurd h (by simp)
  · next hh =>
    split at h
    · exact absurd h (by simp)
    · next t rest ht =>
      have hlt := Token.length_nextSolid? ht
      have hle := Symbol.length_read_le (ν := ν) l.expectsOperand t rest
      split at h
      · exact absurd h (by simp)
      · next u us hr =>
        simp only [Prod.mk.injEq, Except.error.injEq] at h
        obtain ⟨rfl, rfl⟩ := h
        simp only [hr] at hle
        simp only [pending, hh]
        omega

/-- Handing back the symbol just read does not leave more to read than there was. -/
theorem next_unget_pending [Literal ν] {l l' : Lexer ν} {s : Symbol ν}
    (h : l.next = (.ok s, l')) : (l'.unget s).pending ≤ l.pending := by
  have hp := next_pending h
  have hh : l'.held = none := by simpa [h] using l.next_held
  simp only [pending, hh] at hp
  simpa [pending, unget] using hp

/-! ## 4. Reading everything -/

/-- Everything that reading gives up to the first end symbol, going on behind each error. -/
def results [Literal ν] (l : Lexer ν) : List (Except ParseError (Symbol ν)) :=
  match h : l.next with
  | (.error e, l') =>
    have := next_error_pending h
    .error e :: l'.results
  | (.ok s, l') =>
    have := next_pending h
    if he : s.kind.isEnd then [.ok s]
    else
      have : l'.pending + 1 ≤ l.pending := by simpa [he] using this
      .ok s :: l'.results
termination_by l.pending

end Lexer

end SymbolicCalculus
