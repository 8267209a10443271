/-
# Tokens

`Token.tokenize` cuts a source text into tokens.  Each token is as long as its kind allows: a run
of blanks, a run of letters, a number with at most one decimal point, or a single sign.  A character
that begins nothing else is a token of kind `symbol`.

`Token.munch` takes the first token off a text; `munch_append` says that nothing is lost by it, and
`tokenizeFrom_lexemes` that the lexemes of the tokens make up the text.
-/
import SymbolicCalculus.Text.Span

namespace SymbolicCalculus

namespace Token

/-- What kind of piece a token is. -/
inductive Kind where
  /-- A run of spaces and tabs. -/
  | whitespace
  | add
  | sub
  | mul
  | div
  | exp
  | openParen
  | closeParen
  /-- A run of ASCII letters. -/
  | name
  /-- A decimal number without a sign. -/
  | number
  /-- A character with no meaning in formulas. -/
  | symbol
deriving DecidableEq

/-- The capitalized name of the kind. -/
def Kind.tag : Kind → String
  | whitespace => "Whitespace"
  | add => "Add"
  | sub => "Sub"
  | mul => "Mul"
  | div => "Div"
  | exp => "Exp"
  | openParen => "OpenParen"
  | closeParen => "CloseParen"
  | name => "Name"
  | number => "Number"
  | symbol => "Symbol"

end Token

/-- A piece of a source text. -/
structure Token where
  /-- What kind of piece it is. -/
  kind : Token.Kind
  /-- The region that it covers. -/
  span : Span
  /-- The characters of the region. -/
  lexeme : List Char
deriving DecidableEq

namespace Token

/-! ## 1. Characters -/

/-- Whether the character only separates tokens. -/
def isBlankChar (c : Char) : Bool := c == ' ' || c == '\t'

/-- The kind of the sign that a character is, if it is one. -/
def signKind? : Char → Option Kind
  | '+' => some .add
  | '-' => some .sub
  | '*' => some .mul
  | '/' => some .div
  | '^' => some .exp
  | '(' => some .openParen
  | ')' => some .closeParen
  | _ => none

/-! ## 2. The first token of a text -/

/-- The text cut behind the longest run, in front of it, of characters that pass the test. -/
def splitRun (test : Char → Bool) (cs : List Char) : List Char × List Char :=
  (cs.takeWhile test, cs.dropWhile test)

/-- The part of a number behind its leading digits, and what follows it: a point, if there is one,
and the digits after it. -/
def munchFraction : List Char → List Char × List Char
  | '.' :: cs =>
    let (digits, rest) := splitRun Char.isDigit cs
    ('.' :: digits, rest)
  | cs => ([], cs)

/-- The kind and the lexeme of the token that starts with `c`, and the text behind it. -/
def munch (c : Char) (cs : List Char) : Kind × List Char × List Char :=
  if isBlankChar c then
    let (blanks, rest) := splitRun isBlankChar cs
    (.whitespace, c :: blanks, rest)
  else if c.isAlpha then
    let (letters, rest) := splitRun Char.isAlpha cs
    (.name, c :: letters, rest)
  else if c.isDigit then
    let (digits, more) := splitRun Char.isDigit cs
    let (fraction, rest) := munchFraction more
    (.number, c :: digits ++ fraction, rest)
  else if c == '.' then
    match splitRun Char.isDigit cs with
    | ([], rest) => (.symbol, [c], rest)
    | (digits, rest) => (.number, c :: digits, rest)
  else ((signKind? c).getD .symbol, [c], cs)

theorem splitRun_append (test : Char → Bool) (cs : List Char) :
    (splitRun test cs).1 ++ (splitRun test cs).2 = cs := by
  simp [splitRun]

theorem munchFraction_append (cs : List Char) :
    (munchFraction cs).1 ++ (munchFraction cs).2 = cs := by
  unfold munchFraction
  split
  · simp [splitRun_append]
  · rfl

/-- The first token and the text behind it make up the text. -/
theorem munch_append (c : Char) (cs : List Char) :
    (munch c cs).2.1 ++ (munch c cs).2.2 = c :: cs := by
  unfold munch
  split
  · simp [splitRun_append]
  · split
    · simp [splitRun_append]
    · split
      · simp [munchFraction_append, splitRun_append]
      · split
        · have h := splitRun_append Char.isDigit cs
          split
          · next hs => simpa [hs] using h
          · next hs => simpa [hs] using h
        · rfl

/-- A token has at least one character. -/
theorem munch_lexeme_ne_nil (c : Char) (cs : List Char) : (munch c cs).2.1 ≠ [] := by
  unfold munch
  split
  · simp
  · split
    · simp
    · split
      · simp
      · split
        · split <;> simp
        · simp

/-- What follows the first token is no longer than what follows its first character. -/
theorem length_munch_le (c : Char) (cs : List Char) : (munch c cs).2.2.length ≤ cs.length := by
  have h := congrArg List.length (munch_append c cs)
  have hpos := List.length_pos_iff.mpr (munch_lexeme_ne_nil c cs)
  simp only [List.length_append, List.length_cons] at h
  omega

/-! ## 3. All tokens of a text -/

/-- The tokens of a text that starts at a byte of the source. -/
def tokenizeFrom (start : Nat) : List Char → List Token
  | [] => []
  | c :: cs =>
    let stop := start + utf8Length (munch c cs).2.1
    ⟨(munch c cs).1, ⟨start, stop⟩, (munch c cs).2.1⟩ :: tokenizeFrom stop (munch c cs).2.2
termination_by cs => cs.length
decreasing_by
  have := length_munch_le c cs
  simp only [List.length_cons]
  omega

/-- The tokens of a source text. -/
def tokenize (source : String) : List Token := tokenizeFrom 0 source.toList

/-- The lexemes of the tokens make up the text. -/
theorem tokenizeFrom_lexemes (start : Nat) (cs : List Char) :
    ((tokenizeFrom start cs).map Token.lexeme).flatten = cs := by
  induction start, cs using tokenizeFrom.induct with
  | case1 start => simp [tokenizeFrom]
  | case2 start c cs stop ih =>
    rw [tokenizeFrom]
    simp only [List.map_cons, List.flatten_cons]
    rw [ih, munch_append]

/-! ## 4. Reading past blanks -/

/-- Whether the token only separates others. -/
def isBlank (t : Token) : Bool := t.kind == .whitespace

/-- The text of the token. -/
def text (t : Token) : String := String.ofList t.lexeme

/-- The first token that is not blank, and the tokens behind it. -/
def nextSolid? (ts : List Token) : Option (Token × List Token) :=
  match ts.dropWhile isBlank with
  | [] => none
  | t :: rest => some (t, rest)

/-- Reading a token leaves fewer tokens. -/
theorem length_nextSolid? {ts rest : List Token} {t : Token} (h : nextSolid? ts = some (t, rest)) :
    rest.length < ts.length := by
  unfold nextSolid? at h
  split at h
  · exact absurd h (by simp)
  · next u us hd =>
    have hle : (ts.dropWhile isBlank).length ≤ ts.length :=
      (List.dropWhile_sublist isBlank).length_le
    simp only [Option.some.injEq, Prod.mk.injEq] at h
    obtain ⟨-, rfl⟩ := h
    rw [hd, List.length_cons] at hle
    omega

end Token

end SymbolicCalculus
