/-
# How pieces of text are read

`Reads b cs ks b'` says what a piece of text means to the lexer: where `b` says whether an operand
is expected, the characters `cs` are read as symbols of the kinds `ks`, and `b'` says whether an
operand is expected behind them.  It holds in front of every text that is `Delimited`, that is, one
that continues neither a word nor a number.

Pieces that are read one behind the other are read together (`Reads.append`).  The single pieces are
signs (`Reads.sign`), parameters, function names and decimals (`Reads.number`).
-/
import SymbolicCalculus.Expr.Text
import SymbolicCalculus.Proofs.Stream

namespace SymbolicCalculus

universe u

variable {ν : Type u}

/-! ## 1. Characters -/

theorem Token.isBlankChar_of_isDigit {c : Char} (h : c.isDigit = true) : isBlankChar c = false := by
  simp only [isBlankChar, Bool.or_eq_false_iff, beq_eq_false_iff_ne]
  constructor <;> rintro rfl <;> exact absurd h (by decide)

theorem Token.isBlankChar_of_isAlpha {c : Char} (h : c.isAlpha = true) : isBlankChar c = false := by
  simp only [isBlankChar, Bool.or_eq_false_iff, beq_eq_false_iff_ne]
  constructor <;> rintro rfl <;> exact absurd h (by decide)

theorem Token.isAlpha_of_isDigit {c : Char} (h : c.isDigit = true) : c.isAlpha = false := by
  simp only [Char.isDigit, ge_iff_le, Bool.and_eq_true, decide_eq_true_eq,
    UInt32.le_iff_toNat_le] at h
  simp only [Char.isAlpha, Char.isUpper, Char.isLower, ge_iff_le, Bool.or_eq_false_iff,
    Bool.and_eq_false_iff, decide_eq_false_iff_not, UInt32.le_iff_toNat_le]
  change 48 ≤ c.val.toNat ∧ c.val.toNat ≤ 57 at h
  change ¬(65 ≤ c.val.toNat ∧ c.val.toNat ≤ 90) ∧ (¬97 ≤ c.val.toNat ∨ ¬c.val.toNat ≤ 122)
  omega

/-- The text continues neither a word nor a number. -/
def Delimited (cs : List Char) : Prop :=
  ∀ c ∈ cs.head?, c.isAlpha = false ∧ c.isDigit = false ∧ c ≠ '.'

theorem Delimited.nil : Delimited [] := nofun

theorem Delimited.cons {c : Char} (h : c.isAlpha = false ∧ c.isDigit = false ∧ c ≠ '.')
    (cs : List Char) : Delimited (c :: cs) := by
  rintro c' ⟨⟩
  exact h

/-- A run of characters that the text behind it does not continue is cut off whole. -/
theorem Token.splitRun_eq {test : Char → Bool} {cs rest : List Char} (hcs : ∀ c ∈ cs, test c = true)
    (hrest : ∀ c ∈ rest.head?, test c = false) : splitRun test (cs ++ rest) = (cs, rest) := by
  have hnil : rest.takeWhile test = [] ∧ rest.dropWhile test = rest := by
    cases rest with
    | nil => exact ⟨rfl, rfl⟩
    | cons c rest =>
      have hc := hrest c rfl
      exact ⟨by simp [hc], by simp [hc]⟩
  rw [splitRun, List.takeWhile_append_of_pos hcs, List.dropWhile_append_of_pos hcs, hnil.1, hnil.2,
    List.append_nil]

/-! ## 2. One token -/

namespace Token

/-- A sign is a token on its own. -/
theorem munch_sign {c : Char} {kind : Kind} (h : signKind? c = some kind) (cs : List Char) :
    munch c cs = (kind, [c], cs) := by
  unfold signKind? at h
  split at h
  case h_8 => exact absurd h (by simp)
  all_goals
    obtain rfl := Option.some.inj h
    rfl

/-- A word is a token if the text behind it does not continue it. -/
theorem munch_word {c : Char} {cs rest : List Char} (h : ∀ x ∈ c :: cs, x.isAlpha = true)
    (hrest : ∀ x ∈ rest.head?, x.isAlpha = false) :
    munch c (cs ++ rest) = (.name, c :: cs, rest) := by
  have hc := h c List.mem_cons_self
  have hrun := splitRun_eq (fun x hx => h x (List.mem_cons_of_mem c hx)) hrest
  simp only [munch, isBlankChar_of_isAlpha hc, hc, hrun, if_true, Bool.false_eq_true, if_false]

/-- Digits, and digits behind a point, are a token if the text behind them does not continue it. -/
theorem munch_number {c : Char} {cs fraction rest : List Char}
    (h : ∀ x ∈ c :: cs, x.isDigit = true)
    (hfraction : fraction = [] ∨ ∃ ds, fraction = '.' :: ds ∧ ∀ x ∈ ds, x.isDigit = true)
    (hdigit : ∀ x ∈ rest.head?, x.isDigit = false)
    (hpoint : fraction = [] → ∀ x ∈ rest.head?, x ≠ '.') :
    munch c (cs ++ fraction ++ rest) = (.number, c :: cs ++ fraction, rest) := by
  have hc := h c List.mem_cons_self
  have hstop : ∀ x ∈ (fraction ++ rest).head?, x.isDigit = false := by
    rcases hfraction with rfl | ⟨ds, rfl, -⟩
    · exact hdigit
    · rintro x ⟨⟩
      rfl
  have hrun := splitRun_eq (fun x hx => h x (List.mem_cons_of_mem c hx)) hstop
  have hmore : munchFraction (fraction ++ rest) = (fraction, rest) := by
    rcases hfraction with rfl | ⟨ds, rfl, hds⟩
    · unfold munchFraction
      split
      · next hdot => exact absurd rfl (hpoint rfl '.' (by rw [← List.nil_append rest, hdot]; rfl))
      · rfl
    · rw [List.cons_append, munchFraction, splitRun_eq hds hdigit]
  rw [List.append_assoc]
  simp only [munch, isBlankChar_of_isDigit hc, isAlpha_of_isDigit hc, hc, hrun, hmore, if_true,
    Bool.false_eq_true, if_false, List.cons_append]

end Token

/-! ## 3. One symbol -/

/-- A lone `arc` is a name that is so spelled, in either case. -/
theorem Token.isArc_iff {t : Token} :
    t.isArc = true ↔ t.kind = .name ∧ lowercase t.lexeme = ['a', 'r', 'c'] := by
  simp [isArc]

/-- No function has the keyword `arc`. -/
theorem Func.ofKeyword?_arc {cs : List Char} (h : lowercase cs = ['a', 'r', 'c']) :
    ofKeyword? cs = none := by
  rw [ofKeyword?, h]
  decide

namespace SymbolKind

/-- No name means the end of the formula. -/
theorem ofName?_ne_endOfInput (cs : List Char) :
    ofName? cs ≠ some (endOfInput : SymbolKind ν) := by
  unfold ofName?
  split
  · cases Param.ofLetter? _ <;> simp
  · cases Func.ofKeyword? cs <;> simp

/-- A lone `arc` means nothing by itself. -/
theorem ofName?_of_isArc {t : Token} (h : t.isArc = true) :
    (ofName? t.lexeme : Option (SymbolKind ν)) = none := by
  obtain ⟨-, hlower⟩ := Token.isArc_iff.mp h
  unfold ofName?
  split
  · next c hc => rw [hc] at hlower; exact absurd hlower (by simp [lowercase])
  · rw [Func.ofKeyword?_arc hlower]
    rfl

variable [Literal ν] {b : Bool} {t : Token} {k : SymbolKind ν}

/-- A token with a meaning of its own is not the prefix of a split name. -/
theorem isArc_eq_false (h : ofToken? b t = some k) : t.isArc = false := by
  cases harc : t.isArc with
  | false => rfl
  | true =>
    obtain ⟨hkind, -⟩ := Token.isArc_iff.mp harc
    simp [ofToken?, hkind, ofName?_of_isArc harc] at h

/-- No token means the end of the formula. -/
theorem isEnd_of_ofToken? (h : ofToken? b t = some k) : k.isEnd = false := by
  cases k with
  | endOfInput =>
    unfold ofToken? at h
    cases hkind : t.kind with
    | name => exact absurd (by simpa only [hkind] using h) (ofName?_ne_endOfInput t.lexeme)
    | sub => cases b <;> simp [hkind] at h
    | _ => simp [hkind] at h
  | _ => rfl

/-- A token with a meaning is not blank. -/
theorem isBlank_of_ofToken? (h : ofToken? b t = some k) : t.isBlank = false := by
  cases hkind : t.kind <;> simp [ofToken?, hkind, Token.isBlank] at h ⊢

end SymbolKind

namespace Lexer

/-- The lexer in front of a text that starts at a byte of the source, where `b` says whether an
operand is expected. -/
def before (start length : Nat) (b : Bool) (cs : List Char) : Lexer ν :=
  ⟨Token.tokenizeFrom start cs, length, b, none⟩

theorem ofSource_eq_before (source : String) :
    (ofSource source : Lexer ν) = before 0 source.utf8ByteSize true source.toList := rfl

variable [Literal ν]

/-- A token with a meaning of its own is read as one symbol. -/
theorem results_before (start length : Nat) {b : Bool} {c : Char} {cs lexeme rest : List Char}
    {kind : Token.Kind} {k : SymbolKind ν} (hmunch : Token.munch c cs = (kind, lexeme, rest))
    (hk : ∀ span, SymbolKind.ofToken? b ⟨kind, span, lexeme⟩ = some k) :
    ∃ s : Symbol ν, s.kind = k ∧ (before start length b (c :: cs) : Lexer ν).results =
      .ok s :: (before (start + utf8Length lexeme) length k.expectsOperand rest).results := by
  have hk := hk ⟨start, start + utf8Length lexeme⟩
  refine ⟨⟨k, ⟨start, start + utf8Length lexeme⟩⟩, rfl, ?_⟩
  refine results_of_next ?_ (SymbolKind.isEnd_of_ofToken? hk)
  have hblank := SymbolKind.isBlank_of_ofToken? hk
  have harc := SymbolKind.isArc_eq_false hk
  simp only [before, next, Token.tokenizeFrom, hmunch, Token.nextSolid?]
  rw [List.dropWhile_cons_of_neg (by simp [hblank])]
  simp only [Symbol.read, harc, Bool.false_eq_true, if_false, hk]

/-- At the end of the text there is the end symbol. -/
theorem results_before_nil (start length : Nat) (b : Bool) :
    (before start length b [] : Lexer ν).results = [.ok ⟨.endOfInput, .empty length⟩] := by
  have hnext : (before start length b [] : Lexer ν).next =
      (.ok ⟨.endOfInput, .empty length⟩, before start length b []) := by
    simp [before, next, Token.tokenizeFrom, Token.nextSolid?, endSymbol]
  exact results_of_next_end hnext rfl

end Lexer

/-! ## 4. Decimals -/

namespace Decimal

theorem isDigit_of_mem_digitChars {d : Decimal} {c : Char} (h : c ∈ d.digitChars) :
    c.isDigit = true :=
  Nat.isDigit_of_mem_toDigits (by decide) (by decide) h

theorem digitChars_ne_nil (d : Decimal) : d.digitChars ≠ [] := Nat.toDigits_ne_nil

/-- A decimal is written as digits, and maybe a point and more digits. -/
theorem positional_digits (d : Decimal) :
    ∃ ds fs : List Char, d.positional = ds ++ fs ∧ ds ≠ [] ∧ (∀ x ∈ ds, x.isDigit = true) ∧
      (fs = [] ∨ ∃ gs, fs = '.' :: gs ∧ ∀ x ∈ gs, x.isDigit = true) := by
  unfold positional
  split
  · next n _ =>
    split
    · exact ⟨['0'], [], rfl, by simp, List.forall_mem_singleton.mpr rfl, .inl rfl⟩
    · refine ⟨_, [], (List.append_nil _).symm, by simp [digitChars_ne_nil], ?_, .inl rfl⟩
      intro x hx
      rcases List.mem_append.mp hx with hx | hx
      · exact isDigit_of_mem_digitChars hx
      · rw [List.eq_of_mem_replicate hx]
        decide
  · next n _ =>
    have hpadded : ∀ x ∈ List.replicate (n + 1 + 1 - d.digitChars.length) '0' ++ d.digitChars,
        x.isDigit = true := by
      intro x hx
      rcases List.mem_append.mp hx with hx | hx
      · rw [List.eq_of_mem_replicate hx]
        decide
      · exact isDigit_of_mem_digitChars hx
    refine ⟨_, _, rfl, ?_, fun x hx => hpadded x (List.mem_of_mem_take hx),
      .inr ⟨_, rfl, fun x hx => hpadded x (List.mem_of_mem_drop hx)⟩⟩
    rw [← List.length_pos_iff, List.length_take, List.length_append, List.length_replicate]
    omega

end Decimal

/-! ## 5. Pieces of text -/

theorem utf8Length_append (cs ds : List Char) :
    utf8Length (cs ++ ds) = utf8Length cs + utf8Length ds := by
  induction cs with
  | nil => simp [utf8Length]
  | cons c cs ih => rw [List.cons_append, utf8Length, utf8Length, ih, Nat.add_assoc]

theorem utf8ByteSize_ofList (cs : List Char) :
    (String.ofList cs).utf8ByteSize = utf8Length cs := by
  induction cs with
  | nil => rfl
  | cons c cs ih =>
    rw [utf8Length, ← ih, ← List.singleton_append, String.ofList_append,
      String.utf8ByteSize_append, ← String.singleton_eq_ofList, String.utf8ByteSize_singleton]

/-- The piece of text is read as symbols of the given kinds, where `b` says whether an operand is
expected in front of it and `b'` whether one is expected behind it. -/
def Reads [Literal ν] (b : Bool) (cs : List Char) (ks : List (SymbolKind ν)) (b' : Bool) : Prop :=
  ∀ (start length : Nat) (rest : List Char), Delimited rest →
    ∃ ss : List (Symbol ν), ss.map Symbol.kind = ks ∧
      (Lexer.before start length b (cs ++ rest)).results =
        ss.map .ok ++ (Lexer.before (start + utf8Length cs) length b' rest).results

namespace Reads

variable [Literal ν] {b b' b'' : Bool} {cs cs' : List Char} {ks ks' : List (SymbolKind ν)}

/-- Pieces are read one behind the other, if the second does not continue the first. -/
theorem append (h : Reads b cs ks b') (h' : Reads b' cs' ks' b'')
    (hd : ∀ rest, Delimited rest → Delimited (cs' ++ rest)) :
    Reads b (cs ++ cs') (ks ++ ks') b'' := by
  intro start length rest hrest
  obtain ⟨ss, hss, hresults⟩ := h start length (cs' ++ rest) (hd rest hrest)
  obtain ⟨ts, hts, hresults'⟩ := h' (start + utf8Length cs) length rest hrest
  refine ⟨ss ++ ts, by rw [List.map_append, hss, hts], ?_⟩
  rw [List.append_assoc, hresults, hresults', List.map_append, List.append_assoc,
    utf8Length_append, Nat.add_assoc]

/-- A sign is read on its own, whatever follows. -/
theorem sign {c : Char} {kind : Token.Kind} {k : SymbolKind ν} (hc : Token.signKind? c = some kind)
    (hk : ∀ span, SymbolKind.ofToken? b ⟨kind, span, [c]⟩ = some k)
    (h : Reads k.expectsOperand cs ks b') : Reads b (c :: cs) (k :: ks) b' := by
  intro start length rest hrest
  obtain ⟨s, hs, hresults⟩ := Lexer.results_before start length
    (Token.munch_sign hc (cs ++ rest)) hk
  obtain ⟨ss, hss, hresults'⟩ := h (start + utf8Length [c]) length rest hrest
  refine ⟨s :: ss, by rw [List.map_cons, hs, hss], ?_⟩
  rw [List.cons_append, hresults, hresults', List.map_cons, List.cons_append, Nat.add_assoc,
    ← utf8Length_append, List.singleton_append]

/-- Nothing is read as nothing. -/
theorem nil (b : Bool) : Reads b [] ([] : List (SymbolKind ν)) b :=
  fun _ _ _ _ => ⟨[], rfl, rfl⟩

/-- A token that the text behind it does not continue is read as one symbol. -/
theorem token {c : Char} {cs : List Char} {kind : Token.Kind} {k : SymbolKind ν}
    (hmunch : ∀ rest, Delimited rest → Token.munch c (cs ++ rest) = (kind, c :: cs, rest))
    (hk : ∀ span, SymbolKind.ofToken? b ⟨kind, span, c :: cs⟩ = some k) :
    Reads b (c :: cs) [k] k.expectsOperand := by
  intro start length rest hrest
  obtain ⟨s, hs, hresults⟩ := Lexer.results_before start length
    (hmunch rest hrest) hk
  exact ⟨[s], by rw [List.map_singleton, hs], hresults⟩

/-- A parameter is read as itself. -/
theorem param (b : Bool) (p : Param) : Reads b [p.char] [(.param p : SymbolKind ν)] false := by
  have hchar : ∀ x ∈ [p.char], x.isAlpha = true := by
    rintro x hx
    obtain rfl := List.mem_singleton.mp hx
    obtain ⟨i⟩ := p
    revert i
    decide
  refine token (fun rest hrest => Token.munch_word hchar fun x hx => (hrest x hx).1) fun span => ?_
  simp [SymbolKind.ofToken?, SymbolKind.ofName?, Param.ofLetter?_char]

/-- The name of a function is read as the function. -/
theorem func (b : Bool) (f : Func) : Reads b f.name.toList [(.func f : SymbolKind ν)] false := by
  have hname : ∃ c d cs, f.name.toList = c :: d :: cs ∧
      (c :: d :: cs).all Char.isAlpha = true := by
    cases f <;> exact ⟨_, _, _, rfl, by decide⟩
  obtain ⟨c, d, cs, hcs, hall⟩ := hname
  have hletters : ∀ x ∈ c :: d :: cs, x.isAlpha = true := List.all_eq_true.mp hall
  rw [hcs]
  refine token (fun rest hrest => Token.munch_word hletters fun x hx => (hrest x hx).1)
    fun span => ?_
  simp [SymbolKind.ofToken?, SymbolKind.ofName?, ← hcs, Func.ofKeyword?_name]

/-- Digits, and digits behind a point, are read as the number that they denote. -/
theorem number (b : Bool) {cs fraction : List Char} (hne : cs ≠ [])
    (h : ∀ x ∈ cs, x.isDigit = true)
    (hfraction : fraction = [] ∨ ∃ ds, fraction = '.' :: ds ∧ ∀ x ∈ ds, x.isDigit = true) :
    Reads b (cs ++ fraction)
      [(.number (Literal.ofDecimal (Decimal.ofLexeme (cs ++ fraction))) : SymbolKind ν)] false := by
  obtain ⟨c, cs, rfl⟩ := List.exists_cons_of_ne_nil hne
  exact token (fun rest hrest => Token.munch_number h hfraction (fun x hx => (hrest x hx).2.1)
    fun _ x hx => (hrest x hx).2.2) fun span => rfl

/-- A decimal is read as the number that it denotes. -/
theorem positional (b : Bool) (d : Decimal) : Reads b d.positional
    [(.number (Literal.ofDecimal (Decimal.ofLexeme d.positional)) : SymbolKind ν)] false := by
  obtain ⟨ds, fs, hd, hne, hds, hfs⟩ := d.positional_digits
  rw [hd]
  exact number b hne hds hfs

/-- Parentheses around what is read where an operand is expected. -/
theorem parens (b : Bool) (h : Reads true cs ks false) :
    Reads b ('(' :: cs ++ [')']) (.openParen :: (ks ++ [.closeParen])) false :=
  sign rfl (fun _ => rfl) (h.append (sign rfl (fun _ => rfl) (nil false)) fun rest _ =>
    Delimited.cons (by decide) rest)

end Reads

end SymbolicCalculus
