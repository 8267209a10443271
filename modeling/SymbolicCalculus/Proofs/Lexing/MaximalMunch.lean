/-
# Cutting a text into its longest tokens

Every kind of token has a pattern, a language of spellings (`Token.Kind.pattern`).  A text is cut
into tokens by maximal munch: each token is spelled as its kind says, and nothing longer at its
place is spelled as any kind says.  The catch-all `symbol` does not count as longer: it stands only
where nothing else begins, and for a single character.

No spelling has a newline in it (`Token.Kind.newline_notMem`).  A newline is left over where tokens
are cut, and is kept as a symbol that is not spelled as one.  It is the only exception
(`Token.IsMunched.spelled`).

The reason is that a spelling of any other kind, in front of any text, can be continued to a lexeme
of the same kind (`Token.exists_lexeme`), and a text has only one lexeme at its front.

A lexeme looks at no more than the character behind it, and it stays one where the text ends there
(`Token.Lexeme.of_append`).  So cutting a piece of the text from the start of a token to the end of
one gives the tokens that are there (`Token.tokenizeFrom_middle`).
-/
import SymbolicCalculus.Proofs.Lexing.Parentheses

namespace SymbolicCalculus

namespace Token

open Computability

/-! ## 1. Patterns -/

/-- The words of one character that passes the test. -/
def oneOf (test : Char → Bool) : Language Char := {w | ∃ c, test c = true ∧ w = [c]}

/-- The words of one or more characters that pass the test. -/
def someOf (test : Char → Bool) : Language Char := oneOf test * (oneOf test)∗

/-- The spellings of a kind.  Any character but the newline may be a symbol. -/
def Kind.pattern : Kind → Language Char
  | whitespace => someOf isBlankChar
  | add => {['+']}
  | sub => {['-']}
  | mul => {['*']}
  | div => {['/']}
  | exp => {['^']}
  | openParen => {['(']}
  | closeParen => {[')']}
  | name => someOf Char.isAlpha
  | number =>
    someOf Char.isDigit * (1 + {['.']} * (oneOf Char.isDigit)∗) + {['.']} * someOf Char.isDigit
  | symbol => oneOf fun c => c != '\n'

section Languages

variable {test : Char → Bool} {w : List Char}

theorem mem_kstar_oneOf : w ∈ (oneOf test)∗ ↔ ∀ x ∈ w, test x = true := by
  rw [Language.mem_kstar]
  constructor
  · rintro ⟨parts, rfl, hparts⟩ x hx
    obtain ⟨part, hpart, hx⟩ := List.mem_flatten.mp hx
    obtain ⟨c, hc, rfl⟩ := hparts part hpart
    rwa [List.mem_singleton.mp hx]
  · intro hw
    refine ⟨w.map ([·]), by simp [← List.flatMap_def], ?_⟩
    intro part hpart
    obtain ⟨c, hc, rfl⟩ := List.mem_map.mp hpart
    exact ⟨c, hw c hc, rfl⟩

theorem mem_someOf : w ∈ someOf test ↔ w ≠ [] ∧ ∀ x ∈ w, test x = true := by
  rw [someOf, Language.mem_mul]
  constructor
  · rintro ⟨_, ⟨c, hc, rfl⟩, cs, hcs, rfl⟩
    exact ⟨by simp, List.forall_mem_cons.mpr ⟨hc, mem_kstar_oneOf.mp hcs⟩⟩
  · rintro ⟨hne, hw⟩
    obtain ⟨c, cs, rfl⟩ := List.exists_cons_of_ne_nil hne
    obtain ⟨hc, hcs⟩ := List.forall_mem_cons.mp hw
    exact ⟨[c], ⟨c, hc, rfl⟩, cs, mem_kstar_oneOf.mpr hcs, rfl⟩

/-- Digits, and maybe a point and more digits, or a point and digits. -/
theorem mem_pattern_number : w ∈ Kind.number.pattern ↔
    (∃ ds fraction, w = ds ++ fraction ∧ ds ≠ [] ∧ (∀ x ∈ ds, x.isDigit = true) ∧
      (fraction = [] ∨ ∃ fs, fraction = '.' :: fs ∧ ∀ x ∈ fs, x.isDigit = true)) ∨
    ∃ ds, w = '.' :: ds ∧ ds ≠ [] ∧ ∀ x ∈ ds, x.isDigit = true := by
  rw [Kind.pattern, Language.mem_add]
  refine or_congr ?_ ?_
  · rw [Language.mem_mul]
    constructor
    · rintro ⟨ds, hds, fraction, hfraction, rfl⟩
      obtain ⟨hne, hdigits⟩ := mem_someOf.mp hds
      refine ⟨ds, fraction, rfl, hne, hdigits, ?_⟩
      rcases hfraction with hnil | hpoint
      · exact .inl ((Language.mem_one _).mp hnil)
      · obtain ⟨_, rfl, fs, hfs, rfl⟩ := Language.mem_mul.mp hpoint
        exact .inr ⟨fs, rfl, mem_kstar_oneOf.mp hfs⟩
    · rintro ⟨ds, fraction, rfl, hne, hdigits, hfraction⟩
      refine ⟨ds, mem_someOf.mpr ⟨hne, hdigits⟩, fraction, ?_, rfl⟩
      rcases hfraction with rfl | ⟨fs, rfl, hfs⟩
      · exact .inl rfl
      · exact .inr (Language.mem_mul.mpr ⟨_, rfl, fs, mem_kstar_oneOf.mpr hfs, rfl⟩)
  · rw [Language.mem_mul]
    constructor
    · rintro ⟨_, rfl, ds, hds, rfl⟩
      exact ⟨ds, rfl, mem_someOf.mp hds⟩
    · rintro ⟨ds, rfl, hds⟩
      exact ⟨['.'], rfl, ds, mem_someOf.mpr hds, rfl⟩

/-- The pattern of a sign is the sign. -/
theorem mem_pattern_of_signKind? {c : Char} {kind : Kind} (h : signKind? c = some kind) :
    w ∈ kind.pattern ↔ w = [c] := by
  unfold signKind? at h
  split at h
  case h_8 => exact absurd h (by simp)
  all_goals
    obtain rfl := Option.some.inj h
    rfl

theorem notMem_of_forall {c : Char} (hc : test c = false) (hw : ∀ x ∈ w, test x = true) :
    c ∉ w := by
  intro hmem
  exact Bool.eq_false_iff.mp hc (hw c hmem)

/-- **Nothing is spelled with a newline.** -/
theorem Kind.newline_notMem {kind : Kind} (h : w ∈ kind.pattern) : '\n' ∉ w := by
  have hdigits {ds : List Char} (hds : ∀ x ∈ ds, x.isDigit = true) : '\n' ∉ ds :=
    notMem_of_forall (by decide) hds
  cases kind with
  | whitespace => exact notMem_of_forall (by decide) (mem_someOf.mp h).2
  | name => exact notMem_of_forall (by decide) (mem_someOf.mp h).2
  | number =>
    rcases mem_pattern_number.mp h with ⟨ds, fraction, rfl, -, hds, hfraction⟩ | ⟨ds, rfl, -, hds⟩
    · rcases hfraction with rfl | ⟨fs, rfl, hfs⟩
      · simpa using hdigits hds
      · simpa using ⟨hdigits hds, hdigits hfs⟩
    · simpa using hdigits hds
  | symbol =>
    obtain ⟨c, hc, rfl⟩ := h
    intro hmem
    exact bne_iff_ne.mp hc (List.mem_singleton.mp hmem).symm
  | _ =>
    obtain rfl := h
    decide

end Languages

/-! ## 2. Lexemes are the longest matches -/

/-- A lexeme is spelled as its kind says, or it is a newline that is left over. -/
theorem Lexeme.mem_pattern {kind : Kind} {lexeme rest : List Char} (h : Lexeme kind lexeme rest) :
    lexeme ∈ kind.pattern ∨ kind = .symbol ∧ lexeme = ['\n'] := by
  cases h with
  | blanks hne hcs hrest => exact .inl (mem_someOf.mpr ⟨hne, hcs⟩)
  | word hne hcs hrest => exact .inl (mem_someOf.mpr ⟨hne, hcs⟩)
  | number hne hds hfraction hdigit hpoint =>
    exact .inl (mem_pattern_number.mpr (.inl ⟨_, _, rfl, hne, hds, hfraction⟩))
  | fraction hne hds hrest => exact .inl (mem_pattern_number.mpr (.inr ⟨_, rfl, hne, hds⟩))
  | point hrest => exact .inl ⟨'.', rfl, rfl⟩
  | sign hc => exact .inl ((mem_pattern_of_signKind? hc).mpr rfl)
  | @other c rest hblank halpha hdigit hpoint hsign =>
    by_cases hc : c = '\n'
    · exact .inr ⟨rfl, by rw [hc]⟩
    · exact .inl ⟨c, bne_iff_ne.mpr hc, rfl⟩

/-- The part of the text behind a run that continues the run, and what follows it. -/
theorem exists_continuation (test : Char → Bool) {cs : List Char} (hcs : ∀ x ∈ cs, test x = true)
    (rest : List Char) :
    ∃ more rest', rest = more ++ rest' ∧ (∀ x ∈ cs ++ more, test x = true) ∧
      ∀ x ∈ rest'.head?, test x = false := by
  refine ⟨rest.takeWhile test, rest.dropWhile test, List.takeWhile_append_dropWhile.symm, ?_,
    not_head_dropWhile test rest⟩
  intro x hx
  rcases List.mem_append.mp hx with hx | hx
  · exact hcs x hx
  · exact List.mem_takeWhile_imp hx

/-- **A spelling of a kind continues to a lexeme of the kind**, in front of any text. -/
theorem exists_lexeme {kind : Kind} (hkind : kind ≠ .symbol) {w : List Char}
    (hw : w ∈ kind.pattern) (rest : List Char) :
    ∃ more rest', rest = more ++ rest' ∧ Lexeme kind (w ++ more) rest' := by
  cases kind with
  | symbol => exact absurd rfl hkind
  | whitespace =>
    obtain ⟨hne, hcs⟩ := mem_someOf.mp hw
    obtain ⟨more, rest', rfl, hall, hstop⟩ := exists_continuation _ hcs rest
    exact ⟨more, rest', rfl, .blanks (List.append_ne_nil_of_left_ne_nil hne more) hall hstop⟩
  | name =>
    obtain ⟨hne, hcs⟩ := mem_someOf.mp hw
    obtain ⟨more, rest', rfl, hall, hstop⟩ := exists_continuation _ hcs rest
    exact ⟨more, rest', rfl, .word (List.append_ne_nil_of_left_ne_nil hne more) hall hstop⟩
  | number =>
    rcases mem_pattern_number.mp hw with ⟨ds, fraction, rfl, hne, hds, hfraction⟩ |
      ⟨ds, rfl, hne, hds⟩
    · rcases hfraction with rfl | ⟨fs, rfl, hfs⟩
      · obtain ⟨more, rest', rfl, hall, hstop⟩ := exists_continuation _ hds rest
        have hne' : ds ++ more ≠ [] := List.append_ne_nil_of_left_ne_nil hne more
        have hcut := munchFraction_append rest'
        rcases munchFraction_cases rest' with ⟨-, -, hpoint⟩ | ⟨fs, rest'', hmunch, hfs, hstop'⟩
        · refine ⟨more, rest', rfl, ?_⟩
          rw [List.append_nil, ← List.append_nil (ds ++ more)]
          exact .number hne' hall (.inl rfl) hstop fun _ => hpoint
        · rw [hmunch] at hcut
          refine ⟨more ++ '.' :: fs, rest'', by rw [List.append_assoc, hcut], ?_⟩
          rw [List.append_nil, ← List.append_assoc]
          exact .number hne' hall (.inr ⟨fs, rfl, hfs⟩) hstop' fun h => absurd h (by simp)
      · obtain ⟨more, rest', rfl, hall, hstop⟩ := exists_continuation _ hfs rest
        refine ⟨more, rest', rfl, ?_⟩
        rw [List.append_assoc]
        exact .number hne hds (.inr ⟨fs ++ more, rfl, hall⟩) hstop fun h => absurd h (by simp)
    · obtain ⟨more, rest', rfl, hall, hstop⟩ := exists_continuation _ hds rest
      exact ⟨more, rest', rfl, .fraction (List.append_ne_nil_of_left_ne_nil hne more) hall hstop⟩
  | _ =>
    obtain rfl := hw
    exact ⟨[], rest, rfl, .sign rfl⟩

/-- Whatever at the front of a text is spelled as a kind says, its first lexeme is of that kind and
no shorter. -/
theorem Lexeme.longest {kind kind' : Kind} {lexeme rest w : List Char}
    (h : Lexeme kind lexeme rest) (hkind : kind' ≠ .symbol) (hw : w ∈ kind'.pattern)
    (hfront : w <+: lexeme ++ rest) : kind = kind' ∧ w.length ≤ lexeme.length := by
  obtain ⟨tail, htail⟩ := hfront
  obtain ⟨more, rest', rfl, hmore⟩ := exists_lexeme hkind hw tail
  obtain ⟨c, cs, hcs⟩ := List.exists_cons_of_ne_nil
    (List.append_ne_nil_of_left_ne_nil h.ne_nil rest)
  have hmunch := h.munch_eq hcs.symm
  rw [hmore.munch_eq (by rw [← hcs, ← htail, List.append_assoc])] at hmunch
  obtain ⟨rfl, rfl, -⟩ : kind' = kind ∧ w ++ more = lexeme ∧ rest' = rest := by simpa using hmunch
  exact ⟨rfl, by simp⟩

/-- A symbol is one character. -/
theorem Lexeme.exists_eq_singleton {lexeme rest : List Char} (h : Lexeme .symbol lexeme rest) :
    ∃ c, lexeme = [c] := by
  rcases h.mem_pattern with ⟨c, -, hc⟩ | ⟨-, hc⟩
  · exact ⟨c, hc⟩
  · exact ⟨'\n', hc⟩

/-- The token is what maximal munch takes off the front of the text. -/
structure IsMunched (t : Token) (text : List Char) : Prop where
  /-- The text begins with the token. -/
  front : t.lexeme <+: text
  /-- It is spelled as its kind says, or it is a newline, left over and kept as a symbol. -/
  spelled : t.lexeme ∈ t.kind.pattern ∨ t.kind = .symbol ∧ t.lexeme = ['\n']
  /-- Every newline is left over: no token has one in it but the one that it is kept as. -/
  newline : '\n' ∈ t.lexeme → t.kind = .symbol ∧ t.lexeme = ['\n']
  /-- Nothing longer at the front of the text is spelled as a kind says. -/
  longest : ∀ kind : Kind, kind ≠ .symbol →
    ∀ w ∈ kind.pattern, w <+: text → w.length ≤ t.lexeme.length
  /-- A symbol is one character, with which no other token begins. -/
  symbol : t.kind = .symbol → (∃ c, t.lexeme = [c]) ∧
    ∀ kind : Kind, kind ≠ .symbol → ∀ w ∈ kind.pattern, ¬w <+: text

/-- A token that is a lexeme in front of what follows it is munched. -/
theorem Lexeme.isMunched {t : Token} {rest : List Char} (h : Lexeme t.kind t.lexeme rest) :
    t.IsMunched (t.lexeme ++ rest) where
  front := List.prefix_append t.lexeme rest
  spelled := h.mem_pattern
  newline := by
    intro hmem
    exact h.mem_pattern.resolve_left fun hw => Kind.newline_notMem hw hmem
  longest := by
    intro kind hkind w hw hfront
    exact (h.longest hkind hw hfront).2
  symbol := by
    intro hsymbol
    rw [hsymbol] at h
    refine ⟨h.exists_eq_singleton, ?_⟩
    intro kind hkind w hw hfront
    exact hkind (h.longest hkind hw hfront).1.symm

/-! ## 3. Tokens cover the text -/

/-- The regions are not empty, and they cover what lies between the places one behind the other. -/
def Tiles : Nat → Nat → List Span → Prop
  | start, stop, [] => start = stop
  | start, stop, a :: as => a.start = start ∧ a.IsInhabited ∧ Tiles a.stop stop as

theorem Tiles.of_head? {start stop : Nat} {as : List Span} {a : Span} (h : Tiles start stop as)
    (ha : as.head? = some a) : a.start = start := by
  cases as with
  | nil => exact absurd ha (by simp)
  | cons b as =>
    obtain rfl := Option.some.inj ha
    exact h.1

theorem Tiles.of_getLast? {start stop : Nat} {as : List Span} {a : Span} (h : Tiles start stop as)
    (ha : as.getLast? = some a) : a.stop = stop := by
  induction as generalizing start with
  | nil => exact absurd ha (by simp)
  | cons b as ih =>
    cases as with
    | nil =>
      obtain rfl : b = a := by simpa using ha
      exact h.2.2
    | cons c as => exact ih h.2.2 (by simpa using ha)

/-- The tokens of a text tile it. -/
theorem tiles_tokenizeFrom (start : Nat) (cs : List Char) :
    Tiles start (start + utf8Length cs) ((tokenizeFrom start cs).map Token.span) := by
  induction start, cs using tokenizeFrom.induct with
  | case1 start => simp [tokenizeFrom, Tiles, utf8Length]
  | case2 start c cs stop ih =>
    have hlength : stop + utf8Length (munch c cs).2.2 = start + utf8Length (c :: cs) := by
      rw [← munch_append c cs, utf8Length_append, Nat.add_assoc]
    rw [tokenizeFrom, List.map_cons, ← hlength]
    refine ⟨rfl, ?_, ih⟩
    have hpos := utf8Length_pos (munch_lexeme_ne_nil c cs)
    simp only [Span.IsInhabited]
    omega

/-! ## 4. The tokens of a piece of a text -/

/-- A lexeme stays one where the text ends earlier behind it. -/
theorem Lexeme.of_append {kind : Kind} {lexeme rest more : List Char}
    (h : Lexeme kind lexeme (rest ++ more)) : Lexeme kind lexeme rest := by
  have hhead : ∀ x ∈ rest.head?, x ∈ (rest ++ more).head? := by
    intro x hx
    simp [Option.mem_def.mp hx]
  cases h with
  | blanks hne hcs hrest => exact .blanks hne hcs fun x hx => hrest x (hhead x hx)
  | word hne hcs hrest => exact .word hne hcs fun x hx => hrest x (hhead x hx)
  | number hne hds hfraction hdigit hpoint =>
    exact .number hne hds hfraction (fun x hx => hdigit x (hhead x hx))
      fun hnil x hx => hpoint hnil x (hhead x hx)
  | fraction hne hds hrest => exact .fraction hne hds fun x hx => hrest x (hhead x hx)
  | point hrest => exact .point fun x hx => hrest x (hhead x hx)
  | sign hc => exact .sign hc
  | other hblank halpha hdigit hpoint hsign => exact .other hblank halpha hdigit hpoint hsign

/-- Behind some of its tokens, a text has the other tokens. -/
theorem tokenizeFrom_back {start : Nat} {cs : List Char} {front back : List Token}
    (h : tokenizeFrom start cs = front ++ back) :
    ∃ pre rest, cs = pre ++ rest ∧ tokenizeFrom (start + utf8Length pre) rest = back := by
  induction front generalizing start cs with
  | nil => exact ⟨[], cs, rfl, h⟩
  | cons t front ih =>
    obtain ⟨rest, rfl, -, -, hrest⟩ := exists_of_tokenizeFrom h
    obtain ⟨pre, rest', rfl, hback⟩ := ih hrest.symm
    refine ⟨t.lexeme ++ pre, rest', by rw [List.append_assoc], ?_⟩
    rw [utf8Length_append, ← Nat.add_assoc, hback]

/-- Where a text is cut off behind some of its tokens, it has these tokens. -/
theorem tokenizeFrom_front {start : Nat} {cs : List Char} {front back : List Token}
    (h : tokenizeFrom start cs = front ++ back) :
    ∃ text rest, cs = text ++ rest ∧ tokenizeFrom start text = front := by
  induction front generalizing start cs with
  | nil => exact ⟨[], cs, rfl, by simp [tokenizeFrom]⟩
  | cons t front ih =>
    obtain ⟨rest, rfl, hlexeme, hspan, hrest⟩ := exists_of_tokenizeFrom h
    obtain ⟨text, rest', rfl, hfront⟩ := ih hrest.symm
    refine ⟨t.lexeme ++ text, rest', by rw [List.append_assoc], ?_⟩
    rw [hlexeme.of_append.tokenizeFrom_append, hfront, ← hspan]

/-- **The tokens in the middle of a text are the tokens of the piece of text that they cover.** -/
theorem tokenizeFrom_middle {start : Nat} {cs : List Char} {front middle back : List Token}
    (h : tokenizeFrom start cs = front ++ (middle ++ back)) :
    ∃ pre text rest, cs = pre ++ (text ++ rest) ∧
      tokenizeFrom (start + utf8Length pre) text = middle := by
  obtain ⟨pre, rest, rfl, hrest⟩ := tokenizeFrom_back h
  obtain ⟨text, rest', rfl, htext⟩ := tokenizeFrom_front hrest
  exact ⟨pre, text, rest', rfl, htext⟩

/-- The token, as many bytes further on. -/
def moved (n : Nat) (t : Token) : Token := { t with span := ⟨n + t.span.start, n + t.span.stop⟩ }

/-- The place where a text starts does not matter for its tokens. -/
theorem tokenizeFrom_add (n start : Nat) (cs : List Char) :
    tokenizeFrom (n + start) cs = (tokenizeFrom start cs).map (moved n) := by
  induction start, cs using tokenizeFrom.induct with
  | case1 start => simp [tokenizeFrom]
  | case2 start c cs stop ih =>
    rw [tokenizeFrom, tokenizeFrom, List.map_cons, ← ih]
    simp only [moved, stop, Nat.add_assoc]

/-- The piece of a text from the start of one of its tokens to the end of the same or a later one
has the tokens between these. -/
theorem exists_piece {source : String} {front middle back : List Token} {first last : Token}
    (h : tokenize source = front ++ (middle ++ back)) (hfirst : middle.head? = some first)
    (hlast : middle.getLast? = some last) :
    ∃ piece : String, (first.span.through last.span).Marks source piece.toList ∧
      (tokenize piece).map (moved first.span.start) = middle := by
  obtain ⟨pre, text, rest, hsource, hmiddle⟩ := tokenizeFrom_middle h
  rw [Nat.zero_add] at hmiddle
  have htiles := tiles_tokenizeFrom (utf8Length pre) text
  rw [hmiddle] at htiles
  have hstart : first.span.start = utf8Length pre :=
    htiles.of_head? (by rw [List.head?_map, hfirst]; rfl)
  have hstop : last.span.stop = utf8Length pre + utf8Length text :=
    htiles.of_getLast? (by rw [List.getLast?_map, hlast]; rfl)
  refine ⟨String.ofList text, ⟨pre, rest, by simpa using hsource, ?_⟩, ?_⟩
  · rw [Span.through, hstart, hstop, String.toList_ofList]
  · rw [tokenize, String.toList_ofList, hstart, ← tokenizeFrom_add, Nat.add_zero, hmiddle]

/-! ## 5. Tokenizing is lossless maximal munch -/

/-- **A text is cut into its longest tokens, without loss.**  The regions of the tokens are not
empty and cover the text, one behind the other; at the region of each token stands its lexeme, which
is what maximal munch takes off the text that begins there, a newline that nothing matches being
kept as a symbol; and the piece of the text that reaches from the start of a token to the end of the
same or a later one has exactly the tokens between these. -/
theorem tokenize_lossless (source : String) :
    Tiles 0 source.utf8ByteSize ((tokenize source).map Token.span) ∧
    ((tokenize source).map Token.lexeme).flatten = source.toList ∧
    (∀ t ∈ tokenize source, ∃ front text, source.toList = front ++ text ∧
      t.span = ⟨utf8Length front, utf8Length (front ++ t.lexeme)⟩ ∧ t.IsMunched text) ∧
    ∀ (front middle back : List Token) (first last : Token),
      tokenize source = front ++ (middle ++ back) →
      middle.head? = some first → middle.getLast? = some last →
      ∃ piece : String, (first.span.through last.span).Marks source piece.toList ∧
        (tokenize piece).map (moved first.span.start) = middle := by
  refine ⟨?_, tokenizeFrom_lexemes 0 source.toList, ?_, ?_⟩
  · have htiles := tiles_tokenizeFrom 0 source.toList
    rwa [Nat.zero_add, ← utf8ByteSize_ofList, String.ofList_toList] at htiles
  · intro t ht
    obtain ⟨front, rest, htext, hlexeme, hspan⟩ := exists_of_mem_tokenizeFrom ht
    refine ⟨front, t.lexeme ++ rest, htext, ?_, hlexeme.isMunched⟩
    rw [hspan, Nat.zero_add, utf8Length_append]
  · intro front middle back first last h hfirst hlast
    exact exists_piece h hfirst hlast

/-- The token that a newline is kept as is not spelled as a symbol, nor is it as any other kind. -/
theorem tokenize_newline :
    tokenize "\n" = [⟨.symbol, ⟨0, 1⟩, ['\n']⟩] ∧ (∀ kind : Kind, ['\n'] ∉ kind.pattern) ∧
      ¬∀ t ∈ tokenize "\n", t.lexeme ∈ t.kind.pattern := by
  have htokens : tokenize "\n" = [⟨.symbol, ⟨0, 1⟩, ['\n']⟩] := by decide +kernel
  have hpattern : ∀ kind : Kind, ['\n'] ∉ kind.pattern := by
    intro kind h
    exact Kind.newline_notMem h List.mem_cons_self
  refine ⟨htokens, hpattern, fun h => ?_⟩
  rw [htokens] at h
  exact hpattern .symbol (h _ List.mem_cons_self)

/-- Points, a character of two bytes and a newline. -/
example : ((tokenize "1.2.3 7.π..\n").map fun t => (t.kind, t.span.start)) =
    [(.number, 0), (.number, 3), (.whitespace, 5), (.number, 6), (.symbol, 8), (.symbol, 10),
      (.symbol, 11), (.symbol, 12)] := by
  decide +kernel

end Token

end SymbolicCalculus
