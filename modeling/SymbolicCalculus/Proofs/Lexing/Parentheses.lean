/-
# The parentheses of a formula

The parentheses of a formula are read off its tokens (`Bracket.ofSource`), each with the place where
it stands (`Bracket.marks_of_mem_ofSource`), and no two of them stand at the same place
(`Bracket.nodup_ofSource`).

A lexer may lose a parenthesis, but only with an error.  So as long as reading raises none, the
parentheses among the symbols are the first ones of the formula, and at the end they are all of them
(`Bracket.ofSource_eq_append`).  And since the symbols are read in the order in which they stand,
what is read between two of them is what stands there (`Lexer.between_of_results`).
-/
import SymbolicCalculus.Proofs.Brackets
import SymbolicCalculus.Proofs.Lexing.Lexeme
import SymbolicCalculus.Proofs.Lexing.Regions

namespace SymbolicCalculus

universe u

variable {ν : Type u}

open Token (Reading readings solids)

/-! ## 1. Parentheses among tokens -/

/-- The characters stand in the text at the region. -/
def Span.Marks (a : Span) (source : String) (cs : List Char) : Prop :=
  ∃ front back, source.toList = front ++ (cs ++ back) ∧
    a = ⟨utf8Length front, utf8Length front + utf8Length cs⟩

/-- The parenthesis that is written for a bracket. -/
def Bracket.sign : DyckStep → Char
  | .U => '('
  | .D => ')'

namespace Token

/-- Every token is a lexeme in front of what follows it, and stands behind what precedes it. -/
theorem exists_of_mem_tokenizeFrom {start : Nat} {cs : List Char} {t : Token}
    (h : t ∈ tokenizeFrom start cs) :
    ∃ front back, cs = front ++ (t.lexeme ++ back) ∧ Lexeme t.kind t.lexeme back ∧
      t.span = ⟨start + utf8Length front, start + utf8Length front + utf8Length t.lexeme⟩ := by
  induction start, cs using tokenizeFrom.induct with
  | case1 start => exact absurd h (by simp [tokenizeFrom])
  | case2 start c cs stop ih =>
    rw [tokenizeFrom] at h
    rcases List.mem_cons.mp h with rfl | h
    · exact ⟨[], _, (munch_append c cs).symm, lexeme_munch c cs, rfl⟩
    · obtain ⟨front, back, hrest, hlexeme, hspan⟩ := ih h
      refine ⟨(munch c cs).2.1 ++ front, back, ?_, hlexeme, ?_⟩
      · rw [List.append_assoc, ← hrest, munch_append]
      · rw [hspan, utf8Length_append]
        simp only [stop, Nat.add_assoc]

/-- The bracket that a token of the kind is, if it is a parenthesis. -/
def Kind.side? : Kind → Option DyckStep
  | openParen => some .U
  | closeParen => some .D
  | _ => none

/-- A parenthesis is written with its sign. -/
theorem Lexeme.eq_sign {kind : Kind} {lexeme rest : List Char} {side : DyckStep}
    (h : Lexeme kind lexeme rest) (hside : kind.side? = some side) :
    lexeme = [Bracket.sign side] := by
  cases h with
  | sign hc =>
    unfold signKind? at hc
    split at hc <;> cases hc <;> cases hside <;> rfl
  | _ => cases hside

/-- The bracket that the token is, if it is a parenthesis, and where it stands. -/
def bracket? (t : Token) : Option Bracket := t.kind.side?.map (⟨·, t.span⟩)

theorem span_of_bracket? {t : Token} {b : Bracket} (h : t.bracket? = some b) : b.span = t.span := by
  obtain ⟨side, -, rfl⟩ := Option.map_eq_some_iff.mp h
  rfl

end Token

namespace Bracket

/-- The parentheses of a formula. -/
def ofSource (source : String) : List Bracket :=
  (Token.tokenize source).filterMap Token.bracket?

/-- Every parenthesis stands at its region. -/
theorem marks_of_mem_ofSource {source : String} {side : DyckStep} {span : Span}
    (h : ⟨side, span⟩ ∈ ofSource source) : span.Marks source [sign side] := by
  obtain ⟨t, ht, hb⟩ := List.mem_filterMap.mp h
  obtain ⟨front, back, htext, hlexeme, hspan⟩ := Token.exists_of_mem_tokenizeFrom ht
  obtain ⟨_, hside, ⟨⟩⟩ := Option.map_eq_some_iff.mp hb
  rw [hlexeme.eq_sign hside] at htext hspan
  exact ⟨front, back, htext, by rw [hspan, Nat.zero_add]⟩

/-- No two parentheses stand at the same place. -/
theorem nodup_ofSource (source : String) : (ofSource source).Nodup := by
  have hbefore : (Token.tokenize source).Pairwise fun t u => t.span ≠ u.span := by
    refine (Token.pairwise_tokenizeFrom 0 source.toList).imp_of_mem fun _ hu h heq => ?_
    exact h.not_covers (Token.span_of_mem_tokenizeFrom hu).2 (heq ▸ ⟨Nat.le_refl _, Nat.le_refl _⟩)
  refine hbefore.filterMap _ ?_
  rintro t u hne b hb c hc rfl
  exact hne ((Token.span_of_bracket? hb).symm.trans (Token.span_of_bracket? hc))

end Bracket

/-! ## 2. Parentheses among symbols -/

/-- The bracket that the symbol is, if it is a parenthesis, and where it stands. -/
def Symbol.bracket? (s : Symbol ν) : Option Bracket := s.kind.side?.map (⟨·, s.span⟩)

/-- The brackets among symbols face the way their kinds say. -/
theorem map_side_filterMap_bracket? (ss : List (Symbol ν)) :
    (ss.filterMap Symbol.bracket?).map Bracket.side = brackets (ss.map Symbol.kind) := by
  rw [brackets, List.map_filterMap, List.filterMap_map]
  refine List.filterMap_congr fun s _ => ?_
  simp [Symbol.bracket?, Function.comp_def]

/-- The tokens that a reading uses up. -/
def Token.Reading.tokens (r : Reading) : List Token := r.token :: r.along.toList

/-- Readings use up all tokens. -/
theorem Token.flatMap_tokens_readings (ts : List Token) :
    (readings ts).flatMap Reading.tokens = ts := by
  induction ts using readings.induct with
  | case1 => rfl
  | case2 t => rfl
  | case3 t u ts harc ih =>
    rw [readings_of_isArc harc, List.flatMap_cons, ih]
    rfl
  | case4 t u ts harc ih =>
    rw [readings_of_not_isArc (by simpa using harc), List.flatMap_cons, ih]
    rfl

section Readings

variable [Literal ν]

/-- A token with a meaning of its own is the parenthesis that its symbol is. -/
theorem SymbolKind.side?_of_ofToken? {b : Bool} {t : Token} {k : SymbolKind ν}
    (h : ofToken? b t = some k) : k.side? = t.kind.side? := by
  unfold ofToken? at h
  cases hkind : t.kind with
  | name =>
    simp only [hkind] at h
    unfold ofName? at h
    split at h
    · obtain ⟨p, -, rfl⟩ := Option.map_eq_some_iff.mp h
      rfl
    · obtain ⟨f, -, rfl⟩ := Option.map_eq_some_iff.mp h
      rfl
  | sub =>
    simp only [hkind, Option.some.injEq] at h
    subst h
    cases b <;> rfl
  | whitespace | symbol => exact absurd h (by simp [hkind])
  | _ =>
    simp only [hkind, Option.some.injEq] at h
    subst h
    rfl

/-- Where a reading gives a symbol, no parenthesis is lost. -/
theorem Token.Reading.Gives.brackets {ts : List Token} {b : Bool} {r : Reading} {s : Symbol ν}
    (h : Gives b r (.ok s)) (hr : r ∈ readings ts) :
    r.tokens.filterMap Token.bracket? = [s].filterMap Symbol.bracket? := by
  cases h with
  | symbol harc hk =>
    obtain rfl := along_eq_none hr harc
    simp only [tokens, Option.toList_none, List.filterMap_cons, List.filterMap_nil, bracket?,
      Symbol.bracket?, SymbolKind.side?_of_ofToken? hk]
  | joined harc hname hf =>
    obtain ⟨hkind, -⟩ := isArc_iff.mp harc
    simp [tokens, bracket?, Kind.side?, Symbol.bracket?, SymbolKind.side?, hkind, hname]

/-- Readings that give symbols hold the same parentheses as the symbols. -/
theorem Token.Reading.GiveSymbols.brackets {ts : List Token} {b b' : Bool} {rs : List Reading}
    {ss : List (Symbol ν)} (h : GiveSymbols b rs ss b') (hrs : rs ⊆ readings ts) :
    (rs.flatMap Reading.tokens).filterMap Token.bracket? = ss.filterMap Symbol.bracket? := by
  induction h with
  | nil b => rfl
  | @cons b b' r rs s ss hr _ ih =>
    obtain ⟨hmem, hrs⟩ := List.cons_subset.mp hrs
    rw [List.flatMap_cons, List.filterMap_append, hr.brackets hmem, ih hrs,
      ← List.filterMap_append, List.singleton_append]

/-- **No parenthesis is lost while reading raises no error.**  The parentheses among the symbols in
front of what is still to be read are the first ones of the formula, and they are all of them if the
end of the formula is what comes next. -/
theorem Bracket.ofSource_eq_append {source : String} {ss : List (Symbol ν)} {tail : Stream ν}
    (hss : ∀ s ∈ ss, s.kind.isEnd = false)
    (h : (Lexer.ofSource source : Lexer ν).results = ss.map .ok ++ tail) :
    ∃ rest, ofSource source = ss.filterMap Symbol.bracket? ++ rest ∧
      ∀ s : Symbol ν, s.kind = .endOfInput → tail.head? = some (.ok s) → rest = [] := by
  rw [Lexer.results_ofSource] at h
  obtain ⟨front, back, b, hreadings, hgive, htail⟩ := Stream.exists_giveSymbols hss h
  have hbrackets := hgive.brackets (hreadings ▸ List.subset_append_left front back)
  refine ⟨(back.flatMap Reading.tokens).filterMap Token.bracket?, ?_, ?_⟩
  · have hsolids : ofSource source = (solids (Token.tokenize source)).filterMap Token.bracket? := by
      rw [ofSource, solids, List.filterMap_filter]
      refine List.filterMap_congr fun t _ => ?_
      cases hblank : t.isBlank with
      | true =>
        have hkind : t.kind = .whitespace := beq_iff_eq.mp hblank
        simp [Token.bracket?, hkind, Token.Kind.side?]
      | false => rfl
    rw [hsolids, ← hbrackets, ← List.filterMap_append, ← List.flatMap_append, ← hreadings,
      Token.flatMap_tokens_readings]
  · intro s hs hhead
    cases back with
    | nil => rfl
    | cons r back =>
      rw [htail, Stream.ofReadings, List.head?_cons] at hhead
      have hend := Reading.isEnd_of_read (Option.some.inj hhead)
      exact absurd hend (by simp [hs, SymbolKind.isEnd])

end Readings

/-! ## 3. What stands between two places -/

namespace Symbol

/-- The symbols are not empty and stand one behind the other. -/
structure InOrder (ss : List (Symbol ν)) : Prop where
  isInhabited : ∀ s ∈ ss, s.span.IsInhabited
  pairwise : ss.Pairwise fun s t => s.span.Before t.span

theorem InOrder.sublist {ss ts : List (Symbol ν)} (h : InOrder ss) (hts : ts.Sublist ss) :
    InOrder ts :=
  ⟨fun s hs => h.isInhabited s (hts.subset hs), h.pairwise.sublist hts⟩

/-- The symbols that stand between two regions. -/
def between (a b : Span) (ss : List (Symbol ν)) : List (Symbol ν) :=
  ss.filter fun s => a.Before s.span ∧ s.span.Before b

/-- Among symbols in the order in which they stand, those between two of them in the list are those
that stand between them. -/
theorem between_eq {front inside back : List (Symbol ν)} {a b : Symbol ν}
    (h : InOrder (front ++ a :: (inside ++ b :: back))) :
    between a.span b.span (front ++ a :: (inside ++ b :: back)) = inside := by
  obtain ⟨hspan, hordered⟩ := h
  obtain ⟨-, hbehind, hfront⟩ := List.pairwise_append.mp hordered
  obtain ⟨ha, hbehind⟩ := List.pairwise_cons.mp hbehind
  obtain ⟨-, hback, hinside⟩ := List.pairwise_append.mp hbehind
  obtain ⟨hb, -⟩ := List.pairwise_cons.mp hback
  have hspana := hspan a (by simp)
  have hspanb := hspan b (by simp)
  have hfrontNil : between a.span b.span front = [] := List.filter_eq_nil_iff.mpr fun s hs h =>
    (hfront s hs a List.mem_cons_self).asymm (hspan s (by simp [hs])) hspana (of_decide_eq_true h).1
  have hbackNil : between a.span b.span back = [] := List.filter_eq_nil_iff.mpr fun s hs h =>
    (hb s hs).asymm hspanb (hspan s (by simp [hs])) (of_decide_eq_true h).2
  have hinsideAll : between a.span b.span inside = inside := List.filter_eq_self.mpr fun s hs =>
    decide_eq_true ⟨ha s (List.mem_append_left _ hs), hinside s hs b List.mem_cons_self⟩
  rw [between, List.filter_append,
    List.filter_cons_of_neg fun h => hspana.not_before (of_decide_eq_true h).1, List.filter_append,
    List.filter_cons_of_neg fun h => hspanb.not_before (of_decide_eq_true h).2]
  change between a.span b.span front ++ (between _ _ inside ++ between _ _ back) = inside
  rw [hfrontNil, hinsideAll, hbackNil, List.nil_append, List.append_nil]

end Symbol

section Readings

variable [Literal ν]

namespace Lexer

/-- The symbols are what the stream gives, but for the errors and the end of the formula. -/
theorem symbols_of_results {l : Lexer ν} {ss : List (Symbol ν)} {tail : Stream ν}
    (hss : ∀ s ∈ ss, s.kind.isEnd = false) (h : l.results = ss.map .ok ++ tail) :
    ∃ more, l.symbols = ss ++ more := by
  rw [symbols, h, List.filterMap_append, List.filterMap_map]
  refine ⟨_, congrArg (· ++ _) ?_⟩
  refine (List.filterMap_congr (g := some) fun t ht => ?_).trans List.filterMap_some
  simp [hss t ht]

theorem map_span_symbols_sublist (l : Lexer ν) : (l.symbols.map Symbol.span).Sublist l.regions := by
  rw [symbols, regions]
  induction l.results with
  | nil => exact .slnil
  | cons r rs ih =>
    cases r with
    | error err => exact ih.cons err.span
    | ok s =>
      cases hs : s.kind.isEnd with
      | true => simpa [region?, hs] using ih
      | false => simpa [region?, hs] using ih

/-- The symbols of a formula are read in the order in which they stand. -/
theorem symbols_inOrder (source : String) :
    Symbol.InOrder (ofSource source : Lexer ν).symbols := by
  obtain ⟨hinhabited, hordered⟩ := regions_ordered (ν := ν) source
  have hsub := (ofSource source : Lexer ν).map_span_symbols_sublist
  exact ⟨fun s hs => hinhabited _ (hsub.subset (List.mem_map_of_mem hs)),
    List.pairwise_map.mp (hordered.sublist hsub)⟩

theorem inOrder_of_results {source : String} {ss : List (Symbol ν)} {tail : Stream ν}
    (hss : ∀ s ∈ ss, s.kind.isEnd = false)
    (h : (ofSource source : Lexer ν).results = ss.map .ok ++ tail) : Symbol.InOrder ss := by
  obtain ⟨more, hsymbols⟩ := symbols_of_results hss h
  have hordered := symbols_inOrder (ν := ν) source
  rw [hsymbols] at hordered
  exact hordered.sublist (List.sublist_append_left ss more)

/-- **What is read between two symbols is what stands between them.** -/
theorem between_of_results {source : String} {front inside : List (Symbol ν)} {a b : Symbol ν}
    {tail : Stream ν} (hend : ∀ s ∈ front ++ a :: (inside ++ [b]), s.kind.isEnd = false)
    (h : (ofSource source : Lexer ν).results = (front ++ a :: (inside ++ [b])).map .ok ++ tail) :
    Symbol.between a.span b.span (ofSource source : Lexer ν).symbols = inside := by
  obtain ⟨more, hsymbols⟩ := symbols_of_results hend h
  have hordered := symbols_inOrder (ν := ν) source
  simp only [hsymbols, List.append_assoc, List.cons_append, List.nil_append] at hordered ⊢
  exact Symbol.between_eq hordered

end Lexer

end Readings

end SymbolicCalculus
