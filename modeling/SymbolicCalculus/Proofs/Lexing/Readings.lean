/-
# What a lexer reads at a time

Blanks only separate tokens; what a lexer reads are the tokens that are *solid*.  Each reading takes
one of them, except that a lone `arc` takes the token behind it along.  `Token.readings` cuts the
solid tokens into readings without looking at anything but the tokens themselves, and
`Lexer.results_eq_ofReadings` says that the stream of a lexer consists of its readings, one result
for each, and the end symbol.
-/
import SymbolicCalculus.Proofs.Printing.Reading
import SymbolicCalculus.Proofs.Parsing.Transition

namespace SymbolicCalculus

universe u

variable {ν : Type u}

/-! ## 1. Solid tokens and readings -/

namespace Token

/-- The tokens that are not blank. -/
def solids (ts : List Token) : List Token := ts.filter fun t => !t.isBlank

theorem solids_cons_of_isBlank {t : Token} (h : t.isBlank = true) (ts : List Token) :
    solids (t :: ts) = solids ts := by
  simp [solids, h]

theorem solids_cons_of_not_isBlank {t : Token} (h : t.isBlank = false) (ts : List Token) :
    solids (t :: ts) = t :: solids ts := by
  simp [solids, h]

/-- Where no token can be read, none is solid. -/
theorem solids_eq_nil_of_nextSolid? {ts : List Token} (h : nextSolid? ts = none) :
    solids ts = [] := by
  unfold nextSolid? at h
  split at h
  · next hd =>
    rw [solids, List.filter_eq_nil_iff]
    intro t ht
    simpa using List.dropWhile_eq_nil_iff.mp hd t ht
  · exact absurd h (by simp)

/-- The token that is read next is the first solid one. -/
theorem solids_eq_of_nextSolid? {ts rest : List Token} {t : Token}
    (h : nextSolid? ts = some (t, rest)) : solids ts = t :: solids rest := by
  induction ts with
  | nil => exact absurd h (by simp [nextSolid?])
  | cons u us ih =>
    cases hu : u.isBlank with
    | true =>
      rw [solids_cons_of_isBlank hu]
      refine ih ?_
      simpa [nextSolid?, hu] using h
    | false =>
      obtain ⟨rfl, rfl⟩ : u = t ∧ us = rest := by simpa [nextSolid?, hu] using h
      exact solids_cons_of_not_isBlank hu us

/-- A solid token is read as it stands. -/
theorem nextSolid?_cons {t : Token} (h : t.isBlank = false) (ts : List Token) :
    nextSolid? (t :: ts) = some (t, ts) := by
  simp [nextSolid?, h]

theorem isBlank_of_mem_solids {ts : List Token} {t : Token} (h : t ∈ solids ts) :
    t.isBlank = false := by
  simpa using (List.mem_filter.mp h).2

/-- The tokens that are used up by one reading. -/
structure Reading where
  /-- The token that is read. -/
  token : Token
  /-- The token that is taken along. -/
  along : Option Token

/-- The readings of solid tokens: a lone `arc` takes the token behind it along. -/
def readings : List Token → List Reading
  | [] => []
  | [t] => [⟨t, none⟩]
  | t :: u :: ts => if t.isArc then ⟨t, some u⟩ :: readings ts else ⟨t, none⟩ :: readings (u :: ts)

/-- Anything but a lone `arc` is read alone. -/
theorem readings_of_not_isArc {t : Token} (h : t.isArc = false) (ts : List Token) :
    readings (t :: ts) = ⟨t, none⟩ :: readings ts := by
  cases ts with
  | nil => rfl
  | cons u ts => simp [readings, h]

theorem readings_of_isArc {t : Token} (h : t.isArc = true) (u : Token) (ts : List Token) :
    readings (t :: u :: ts) = ⟨t, some u⟩ :: readings ts := by
  simp [readings, h]

/-- A reading takes one of the tokens, and a lone `arc` takes the one behind it along. -/
theorem exists_append_of_mem_readings {ts : List Token} {r : Reading} (h : r ∈ readings ts) :
    ∃ front back, ts = front ++ r.token :: back ∧
      r.along = if r.token.isArc then back.head? else none := by
  induction ts using readings.induct with
  | case1 => exact absurd h (by simp [readings])
  | case2 t =>
    obtain rfl : r = ⟨t, none⟩ := by simpa [readings] using h
    exact ⟨[], [], rfl, by simp⟩
  | case3 t u ts harc ih =>
    rw [readings_of_isArc harc] at h
    rcases List.mem_cons.mp h with rfl | h
    · exact ⟨[], u :: ts, rfl, by simp [harc]⟩
    · obtain ⟨front, back, hts, halong⟩ := ih h
      exact ⟨t :: u :: front, back, by simp [hts], halong⟩
  | case4 t u ts harc ih =>
    rw [readings_of_not_isArc (by simpa using harc)] at h
    rcases List.mem_cons.mp h with rfl | h
    · exact ⟨[], u :: ts, rfl, by simp [harc]⟩
    · obtain ⟨front, back, hts, halong⟩ := ih h
      exact ⟨t :: front, back, by simp [hts], halong⟩

theorem of_mem_readings {ts : List Token} {r : Reading} (h : r ∈ readings ts) :
    r.token ∈ ts ∧ ∀ u ∈ r.along, u ∈ ts := by
  obtain ⟨front, back, rfl, halong⟩ := exists_append_of_mem_readings h
  refine ⟨by simp, fun u hu => ?_⟩
  rw [halong] at hu
  split at hu
  · have hmem := List.mem_of_mem_head? hu
    simp [hmem]
  · exact absurd hu (by simp)

theorem along_eq_none {ts : List Token} {r : Reading} (h : r ∈ readings ts)
    (harc : r.token.isArc = false) : r.along = none := by
  obtain ⟨front, back, -, halong⟩ := exists_append_of_mem_readings h
  simpa [harc] using halong

/-! ## 2. The stream of the readings -/

namespace Reading

variable [Literal ν]

/-- What the reading gives. -/
def read (b : Bool) (r : Reading) : Except ParseError (Symbol ν) :=
  (Symbol.read b r.token r.along.toList).1

/-- The results of readings, one constructor for each way of reading. -/
inductive Gives (b : Bool) : Reading → Except ParseError (Symbol ν) → Prop where
  | symbol {t : Token} {along : Option Token} {k : SymbolKind ν} (harc : t.isArc = false)
      (hk : SymbolKind.ofToken? b t = some k) : Gives b ⟨t, along⟩ (.ok ⟨k, t.span⟩)
  | undefined {t : Token} {along : Option Token} (harc : t.isArc = false)
      (hk : SymbolKind.ofToken? (ν := ν) b t = none) : Gives b ⟨t, along⟩ (.error (.undefined t))
  /-- A lone `arc` and the name behind it are a function. -/
  | joined {t u : Token} {f : Func} (harc : t.isArc = true) (hname : u.kind = .name)
      (hf : Func.ofKeyword? (t.lexeme ++ u.lexeme) = some f) :
      Gives b ⟨t, some u⟩ (.ok ⟨.func f, t.span.through u.span⟩)
  | joinedUndefined {t u : Token} (harc : t.isArc = true) (hname : u.kind = .name)
      (hnone : Func.ofKeyword? (t.lexeme ++ u.lexeme) = none) :
      Gives b ⟨t, some u⟩ (.error ⟨.undefinedToken (String.ofList (t.lexeme ++ u.lexeme))
        (Func.suggest? (t.lexeme ++ u.lexeme)), t.span.through u.span⟩)
  /-- No name follows a lone `arc`. -/
  | lone {t : Token} {along : Option Token} (harc : t.isArc = true)
      (halong : ∀ u ∈ along, u.kind ≠ .name) : Gives b ⟨t, along⟩ (.error (.undefined t))

/-- A lone `arc` that takes no name along means nothing. -/
theorem read_lone (b : Bool) {t : Token} {along : Option Token} (harc : t.isArc = true)
    (halong : ∀ u ∈ along, u.kind ≠ .name) :
    read b ⟨t, along⟩ = (.error (.undefined t) : Except ParseError (Symbol ν)) := by
  cases along with
  | none => simp [read, Symbol.read, harc, nextSolid?]
  | some u =>
    have hkind := halong u rfl
    cases hu : u.isBlank with
    | true => simp [read, Symbol.read, harc, nextSolid?, hu]
    | false => simp [read, Symbol.read, harc, nextSolid?_cons hu, hkind]

theorem gives_read (r : Reading) (b : Bool) :
    Gives b r (r.read b : Except ParseError (Symbol ν)) := by
  obtain ⟨t, along⟩ := r
  cases harc : t.isArc with
  | false =>
    simp only [read, Symbol.read, harc, Bool.false_eq_true, if_false]
    cases hk : SymbolKind.ofToken? (ν := ν) b t with
    | some k => exact .symbol harc hk
    | none => exact .undefined harc hk
  | true =>
    by_cases hname : ∃ u ∈ along, u.kind = .name
    · obtain ⟨u, rfl, hname⟩ := hname
      have hu : u.isBlank = false := by simp [isBlank, hname]
      simp only [read, Symbol.read, harc, if_true, Option.toList_some, nextSolid?_cons hu, hname,
        Symbol.ofSplitName]
      cases hf : Func.ofKeyword? (t.lexeme ++ u.lexeme) with
      | some f => exact .joined harc hname hf
      | none => exact .joinedUndefined harc hname hf
    · have halong : ∀ u ∈ along, u.kind ≠ .name := fun u hu hkind => hname ⟨u, hu, hkind⟩
      rw [read_lone b harc halong]
      exact .lone harc halong

/-- A reading has one result. -/
theorem gives_iff {b : Bool} {r : Reading} {result : Except ParseError (Symbol ν)} :
    Gives b r result ↔ r.read b = result := by
  refine ⟨fun h => ?_, fun h => h ▸ r.gives_read b⟩
  have hnext {u : Token} (hname : u.kind = .name) : nextSolid? [u] = some (u, []) :=
    nextSolid?_cons (by simp [isBlank, hname]) []
  cases h with
  | symbol harc hk | undefined harc hk => simp [read, Symbol.read, harc, hk]
  | joined harc hname hf =>
    simp [read, Symbol.read, harc, hnext hname, hname, Symbol.ofSplitName, hf]
  | joinedUndefined harc hname hnone =>
    simp [read, Symbol.read, harc, hnext hname, hname, Symbol.ofSplitName, hnone]
  | lone harc halong => exact read_lone b harc halong

/-- A reading never gives the end of the formula. -/
theorem Gives.isEnd_eq_false {b : Bool} {r : Reading} {s : Symbol ν} (h : Gives b r (.ok s)) :
    s.kind.isEnd = false := by
  cases h with
  | symbol harc hk => exact SymbolKind.isEnd_of_ofToken? hk
  | joined harc hname hf => rfl

theorem isEnd_of_read {b : Bool} {r : Reading} {s : Symbol ν} (h : r.read b = .ok s) :
    s.kind.isEnd = false :=
  (gives_iff.mpr h).isEnd_eq_false

end Reading

end Token

open Token (Reading readings solids)

/-- Whether an operand is expected behind a result, if `b` says whether one is expected in front of
it; an error changes nothing. -/
def expectsBehind (b : Bool) : Except ParseError (Symbol ν) → Bool
  | .ok s => s.kind.expectsOperand
  | .error _ => b

/-- The results of readings and the end symbol of a formula of the given length. -/
def Stream.ofReadings [Literal ν] (length : Nat) : Bool → List Reading → Stream ν
  | _, [] => [.ok ⟨.endOfInput, .empty length⟩]
  | b, r :: rs =>
    r.read b :: ofReadings length (expectsBehind b (r.read b : Except _ (Symbol ν))) rs

/-- The results in front of the end symbol are what the readings give. -/
theorem Stream.gives_of_mem_ofReadings [Literal ν] {length : Nat} {b : Bool} {rs : List Reading}
    {result : Except ParseError (Symbol ν)} (h : result ∈ (ofReadings length b rs : Stream ν)) :
    result = .ok ⟨.endOfInput, .empty length⟩ ∨ ∃ r ∈ rs, ∃ b, r.Gives b result := by
  induction rs generalizing b with
  | nil => exact .inl (List.mem_singleton.mp h)
  | cons r rs ih =>
    rw [ofReadings] at h
    rcases List.mem_cons.mp h with rfl | h
    · exact .inr ⟨r, List.mem_cons_self, b, r.gives_read b⟩
    · rcases ih h with hend | ⟨r', hr', hgives⟩
      · exact .inl hend
      · exact .inr ⟨r', List.mem_cons_of_mem r hr', hgives⟩

/-- The readings give the symbols, and no error.  The first `Bool` says whether an operand is
expected in front of them, the second whether one is expected behind them. -/
inductive Token.Reading.GiveSymbols [Literal ν] :
    Bool → List Reading → List (Symbol ν) → Bool → Prop where
  | nil (b : Bool) : GiveSymbols b [] [] b
  | cons {b b' : Bool} {r : Reading} {rs : List Reading} {s : Symbol ν} {ss : List (Symbol ν)}
      (h : r.Gives b (.ok s)) (hrest : GiveSymbols s.kind.expectsOperand rs ss b') :
      GiveSymbols b (r :: rs) (s :: ss) b'

namespace Token.Reading.GiveSymbols

variable [Literal ν] {b b' : Bool} {rs : List Reading} {ss ts : List (Symbol ν)}

/-- What readings give is never the end of the formula. -/
theorem isEnd_eq_false (h : GiveSymbols b rs ss b') : ∀ s ∈ ss, s.kind.isEnd = false := by
  induction h with
  | nil b => simp
  | cons hr _ ih => exact List.forall_mem_cons.mpr ⟨hr.isEnd_eq_false, ih⟩

/-- The symbols stand at the front of the stream. -/
theorem ofReadings_append (h : GiveSymbols b rs ss b') (length : Nat) (back : List Reading) :
    Stream.ofReadings length b (rs ++ back) =
      ss.map .ok ++ Stream.ofReadings length b' back := by
  induction h with
  | nil b => rfl
  | cons hr _ ih =>
    rw [List.cons_append, Stream.ofReadings, gives_iff.mp hr, List.map_cons, List.cons_append, ← ih]
    rfl

/-- Some of the readings give the first symbols, and the others what follows these. -/
theorem exists_append (h : GiveSymbols b rs (ss ++ ts) b') :
    ∃ (front back : List Reading) (mid : Bool), rs = front ++ back ∧
      GiveSymbols b front ss mid ∧ GiveSymbols mid back ts b' := by
  induction ss generalizing b rs with
  | nil => exact ⟨[], rs, b, rfl, .nil b, h⟩
  | cons s ss ih =>
    cases h with
    | cons hr hrest =>
      obtain ⟨front, back, mid, rfl, hfront, hback⟩ := ih hrest
      exact ⟨_ :: front, back, mid, rfl, .cons hr hfront, hback⟩

end Token.Reading.GiveSymbols

/-- The symbols at the front of a stream of readings are given by the first readings. -/
theorem Stream.exists_giveSymbols [Literal ν] {length : Nat} {b : Bool} {rs : List Reading}
    {ss : List (Symbol ν)} {tail : Stream ν} (hss : ∀ s ∈ ss, s.kind.isEnd = false)
    (h : ofReadings length b rs = ss.map .ok ++ tail) :
    ∃ (front back : List Reading) (b' : Bool), rs = front ++ back ∧
      Reading.GiveSymbols b front ss b' ∧ tail = ofReadings length b' back := by
  induction ss generalizing b rs with
  | nil => exact ⟨[], rs, b, rfl, .nil b, h.symm⟩
  | cons s ss ih =>
    cases rs with
    | nil =>
      obtain ⟨hs, -⟩ := List.cons.inj h
      obtain rfl := Except.ok.inj hs
      exact absurd (hss _ List.mem_cons_self) (by simp [SymbolKind.isEnd])
    | cons r rs =>
      obtain ⟨hs, hrest⟩ := List.cons.inj h
      rw [hs] at hrest
      obtain ⟨front, back, b', rfl, hfront, htail⟩ :=
        ih (fun t ht => hss t (List.mem_cons_of_mem s ht)) hrest
      exact ⟨r :: front, back, b', rfl, .cons (Reading.gives_iff.mpr hs) hfront, htail⟩

namespace Symbol

variable [Literal ν]

/-- Reading a symbol is the first reading of the solid tokens, and what it leaves of them are the
other readings. -/
theorem exists_reading (b : Bool) (t : Token) (rest : List Token) :
    ∃ r : Reading, (read (ν := ν) b t rest).1 = r.read b ∧
      readings (t :: solids rest) = r :: readings (solids (read (ν := ν) b t rest).2) := by
  cases harc : t.isArc with
  | false =>
    have hread (ts : List Token) : (read (ν := ν) b t ts).1 = (read b t []).1 ∧
        (read (ν := ν) b t ts).2 = ts := by
      simp only [read, harc, Bool.false_eq_true, if_false]
      split <;> exact ⟨rfl, rfl⟩
    refine ⟨⟨t, none⟩, (hread rest).1, ?_⟩
    rw [(hread rest).2, Token.readings_of_not_isArc harc]
  | true =>
    cases hn : Token.nextSolid? rest with
    | none =>
      refine ⟨⟨t, none⟩, ?_, ?_⟩
      · have hnil : Token.nextSolid? [] = none := rfl
        simp [Reading.read, read, harc, hn, hnil]
      · rw [Token.solids_eq_nil_of_nextSolid? hn]
        simp [read, harc, hn, readings, solids]
    | some next =>
      obtain ⟨u, us⟩ := next
      have hsolids := Token.solids_eq_of_nextSolid? hn
      have hmem : u ∈ solids rest := by rw [hsolids]; exact List.mem_cons_self
      have hu := Token.isBlank_of_mem_solids hmem
      refine ⟨⟨t, some u⟩, ?_, ?_⟩
      · simp only [Reading.read, read, harc, hn, if_true, Option.toList_some,
          Token.nextSolid?_cons hu]
        split <;> rfl
      · rw [hsolids, Token.readings_of_isArc harc]
        simp only [read, harc, hn, if_true]
        split <;> rfl

end Symbol

namespace Lexer

variable [Literal ν]

/-- The next result is that of the first reading, if there is one, and the end symbol otherwise. -/
theorem next_eq_reading (l : Lexer ν) (hheld : l.held = none) :
    (readings (solids l.tokens) = [] ∧ l.next = (.ok l.endSymbol, { l with tokens := [] })) ∨
    ∃ (r : Reading) (rest : List Token),
      readings (solids l.tokens) = r :: readings (solids rest) ∧
      l.next = (r.read l.expectsOperand,
        { l with tokens := rest, expectsOperand :=
            expectsBehind l.expectsOperand (r.read l.expectsOperand : Except _ (Symbol ν)) }) := by
  unfold next
  rw [hheld]
  cases hn : Token.nextSolid? l.tokens with
  | none =>
    refine .inl ⟨?_, rfl⟩
    rw [Token.solids_eq_nil_of_nextSolid? hn]
    rfl
  | some first =>
    obtain ⟨t, rest⟩ := first
    obtain ⟨r, hread, hreadings⟩ := Symbol.exists_reading (ν := ν) l.expectsOperand t rest
    refine .inr ⟨r, (Symbol.read (ν := ν) l.expectsOperand t rest).2, ?_, ?_⟩
    · rw [Token.solids_eq_of_nextSolid? hn, hreadings]
    · rw [← hread]
      simp only
      cases Symbol.read (ν := ν) l.expectsOperand t rest with
      | mk result rest' => cases result <;> rfl

/-- **The stream of a lexer is that of its readings.** -/
theorem results_eq_ofReadings (l : Lexer ν) (hheld : l.held = none) :
    l.results = Stream.ofReadings l.length l.expectsOperand (readings (solids l.tokens)) := by
  induction l using results.induct with
  | case1 l e l' hn _ ih =>
    rcases next_eq_reading l hheld with ⟨-, hnext⟩ | ⟨r, rest, hreadings, hnext⟩
    · rw [hn] at hnext
      exact absurd hnext (by simp)
    · rw [hn] at hnext
      obtain ⟨hread, rfl⟩ := Prod.mk.inj hnext
      rw [results_of_next_error hn, ih hheld, hreadings, Stream.ofReadings, ← hread]
  | case2 l s l' hn _ hend =>
    rcases next_eq_reading l hheld with ⟨hreadings, hnext⟩ | ⟨r, rest, -, hnext⟩
    · rw [hn] at hnext
      obtain ⟨hs, -⟩ := Prod.mk.inj hnext
      rw [results_of_next_end hn hend, hreadings, hs]
      rfl
    · rw [hn] at hnext
      have := Reading.isEnd_of_read (Prod.mk.inj hnext).1.symm
      exact absurd hend (by simp [this])
  | case3 l s l' hn _ hend _ ih =>
    rcases next_eq_reading l hheld with ⟨-, hnext⟩ | ⟨r, rest, hreadings, hnext⟩
    · rw [hn] at hnext
      obtain ⟨hs, -⟩ := Prod.mk.inj hnext
      obtain rfl := Except.ok.inj hs
      exact absurd rfl hend
    · rw [hn] at hnext
      obtain ⟨hread, rfl⟩ := Prod.mk.inj hnext
      rw [results_of_next hn (by simpa using hend), ih hheld, hreadings, Stream.ofReadings, ← hread]

/-- A lexer that holds nothing gives what its readings give, and the end of the formula. -/
theorem gives_of_mem_results {l : Lexer ν} (hheld : l.held = none)
    {result : Except ParseError (Symbol ν)} (h : result ∈ l.results) :
    result = .ok l.endSymbol ∨ ∃ r ∈ readings (solids l.tokens), ∃ b, r.Gives b result := by
  rw [results_eq_ofReadings l hheld] at h
  exact Stream.gives_of_mem_ofReadings h

/-- The stream of a formula is that of the readings of its tokens. -/
theorem results_ofSource (source : String) : (ofSource source : Lexer ν).results =
    Stream.ofReadings source.utf8ByteSize true (readings (solids (Token.tokenize source))) :=
  results_eq_ofReadings _ rfl

end Lexer

end SymbolicCalculus
