/-
# The stream of a respelled text

Reading a text and reading it in another spelling gives the same results, one for one: symbols of
the same kinds at the same characters, and errors that differ at most in the case of the name that
they report (`Respells.results`).  A name that is cut in two behind its prefix is read as one, by
the way of the lone `arc`, and so means the same and suggests the same.
-/
import SymbolicCalculus.Proofs.Lexing.Respelling

namespace SymbolicCalculus

universe u

variable {ν : Type u}

/-! ## 1. Results that are the same -/

/-- The causes are the same, but for the case of a name that is reported. -/
inductive SameCause : ParseError.Cause → ParseError.Cause → Prop where
  | refl (c : ParseError.Cause) : SameCause c c
  | undefinedToken {name name' : String} {suggestion : Option Func}
      (h : lowercase name'.toList = lowercase name.toList) :
      SameCause (.undefinedToken name suggestion) (.undefinedToken name' suggestion)

/-- The regions begin and end with the same characters, or are both the end of the text. -/
inductive SamePlace (es : List Edit) : Span → Span → Prop where
  | region {a b : Span} (h : Edit.SameRegion es a b) : SamePlace es a b
  | finish : SamePlace es (.empty (utf8Length (Edit.old es))) (.empty (utf8Length (Edit.new es)))

/-- The errors have the same cause and place. -/
structure SameError (es : List Edit) (err err' : ParseError) : Prop where
  cause : SameCause err.cause err'.cause
  place : SamePlace es err.span err'.span

/-- The symbols have the same kind and place. -/
structure SameSymbol (es : List Edit) (s s' : Symbol ν) : Prop where
  kind : s'.kind = s.kind
  place : SamePlace es s.span s'.span
  region : s.kind.isEnd = false → Edit.SameRegion es s.span s'.span

/-- The results of reading are the same. -/
inductive SameResult (es : List Edit) :
    Except ParseError (Symbol ν) → Except ParseError (Symbol ν) → Prop where
  | symbol {s s' : Symbol ν} (h : SameSymbol es s s') : SameResult es (.ok s) (.ok s')
  | error {err err' : ParseError} (h : SameError es err err') :
      SameResult es (.error err) (.error err')

namespace SameResult

variable {es : List Edit}

/-- A symbol other than the end of the formula is the same at the same characters. -/
theorem of_region {k : SymbolKind ν} {a b : Span} (h : Edit.SameRegion es a b) :
    SameResult es (.ok ⟨k, a⟩) (.ok ⟨k, b⟩) :=
  .symbol ⟨rfl, .region h, fun _ => h⟩

theorem expectsBehind_eq {r r' : Except ParseError (Symbol ν)} (h : SameResult es r r')
    (b : Bool) : expectsBehind b r' = expectsBehind b r := by
  cases h with
  | symbol h => simp only [expectsBehind, h.kind]
  | error h => rfl

end SameResult

/-! ## 2. The same tokens are read alike -/

open Token (Reading readings solids)

section Readings

variable {es : List Edit} {t u v w : Token}

namespace SameToken

theorem isArc_eq (h : SameToken es t u) : u.isArc = t.isArc := by
  simp only [Token.isArc, h.kind, h.lexeme]

theorem isBlank_eq (h : SameToken es t u) : u.isBlank = t.isBlank := by
  simp only [Token.isBlank, h.kind]

/-- A token means the same in either text. -/
theorem ofToken?_eq [Literal ν] (h : SameToken es t u) (b : Bool) :
    (SymbolKind.ofToken? b u : Option (SymbolKind ν)) = SymbolKind.ofToken? b t := by
  unfold SymbolKind.ofToken?
  rw [h.kind]
  cases hkind : t.kind with
  | name => exact SymbolKind.ofName?_of_lowercase_eq h.lexeme
  | number => simp only [h.lexeme_eq (by simp [hkind])]
  | _ => rfl

/-- A token that means nothing is reported alike in either text. -/
theorem undefined (h : SameToken es t u) : SameError es (.undefined t) (.undefined u) := by
  refine ⟨?_, .region h.span⟩
  unfold ParseError.undefined
  rw [h.kind]
  split
  · rw [Func.suggest?_of_lowercase_eq h.lexeme]
    exact .undefinedToken (by simpa [Token.text] using h.lexeme)
  · next hname =>
    rw [Token.text, Token.text, h.lexeme_eq hname]
    exact .refl _

end SameToken

/-- Two names that make up one mean the same as the one. -/
theorem Symbol.ofSplitName_same [Literal ν] {arc arc' name name' : Token}
    (hlexeme : lowercase (arc'.lexeme ++ name'.lexeme) = lowercase (arc.lexeme ++ name.lexeme))
    (hspan : Edit.SameRegion es (arc.span.through name.span) (arc'.span.through name'.span)) :
    SameResult es (ofSplitName arc name : Except _ (Symbol ν)) (ofSplitName arc' name') := by
  have hkeyword : Func.ofKeyword? (arc'.lexeme ++ name'.lexeme) =
      Func.ofKeyword? (arc.lexeme ++ name.lexeme) := by
    rw [Func.ofKeyword?, Func.ofKeyword?, hlexeme]
  simp only [ofSplitName, hkeyword, Func.suggest?_of_lowercase_eq hlexeme]
  cases Func.ofKeyword? (arc.lexeme ++ name.lexeme) with
  | some f => exact .of_region hspan
  | none => exact .error ⟨.undefinedToken (by simpa using hlexeme), .region hspan⟩

namespace Token.Reading

variable [Literal ν] (b : Bool)

/-- A token that is read alone is read alike in either text. -/
theorem read_alone (h : SameToken es t u) :
    SameResult es (read b ⟨t, none⟩ : Except _ (Symbol ν)) (read b ⟨u, none⟩) := by
  have hnil : nextSolid? [] = none := rfl
  simp only [read, Symbol.read, Option.toList_none, hnil, h.isArc_eq, h.ofToken?_eq]
  cases t.isArc with
  | true => exact .error h.undefined
  | false =>
    cases SymbolKind.ofToken? (ν := ν) b t with
    | some k => exact .of_region h.span
    | none => exact .error h.undefined

/-- An `arc` and the token that it takes along are read alike in either text. -/
theorem read_along (h : SameToken es t u) (harc : t.isArc = true) (h' : SameToken es v w) :
    SameResult es (read b ⟨t, some v⟩ : Except _ (Symbol ν)) (read b ⟨u, some w⟩) := by
  have harc' := h.isArc_eq.trans harc
  simp only [read, Symbol.read, Option.toList_some, harc, harc', if_true]
  cases hblank : v.isBlank with
  | true =>
    have hblank' := h'.isBlank_eq.trans hblank
    simp only [nextSolid?, List.dropWhile, hblank, hblank']
    exact .error h.undefined
  | false =>
    rw [nextSolid?_cons hblank, nextSolid?_cons (h'.isBlank_eq.trans hblank)]
    simp only [h'.kind]
    split
    · refine Symbol.ofSplitName_same ?_ (h.span.through h'.span)
      simp only [lowercase, List.map_append] at *
      rw [← lowercase, ← lowercase, ← lowercase, ← lowercase, h.lexeme, h'.lexeme]
    · exact .error h.undefined

/-- A name is read as the two that it is cut in. -/
theorem read_split (ht : t.kind = .name) (hu : u.isArc = true) (hv : v.kind = .name)
    (hne : v.lexeme ≠ []) (hlexeme : lowercase (u.lexeme ++ v.lexeme) = lowercase t.lexeme)
    (hspan : Edit.SameRegion es t.span (u.span.through v.span)) :
    t.isArc = false ∧
      SameResult es (read b ⟨t, none⟩ : Except _ (Symbol ν)) (read b ⟨u, some v⟩) := by
  obtain ⟨-, hlower⟩ := isArc_iff.mp hu
  have hlong : 3 < t.lexeme.length := by
    have hlength := length_eq_of_lowercase_eq hlexeme
    have harc := congrArg List.length hlower
    have hpos := List.length_pos_iff.mpr hne
    rw [length_lowercase] at harc
    simp only [List.length_append, List.length_cons, List.length_nil] at hlength harc
    omega
  have harc : t.isArc = false := by
    rw [isArc, Bool.and_eq_false_iff, beq_eq_false_iff_ne (a := lowercase t.lexeme)]
    refine .inr fun h => ?_
    have := congrArg List.length h
    rw [length_lowercase, List.length_cons, List.length_cons, List.length_cons] at this
    simp only [List.length_nil] at this
    omega
  have hsolid : v.isBlank = false := by simp [isBlank, hv]
  have hkeyword : Func.ofKeyword? (u.lexeme ++ v.lexeme) = Func.ofKeyword? t.lexeme := by
    rw [Func.ofKeyword?, Func.ofKeyword?, hlexeme]
  have htoken : SymbolKind.ofToken? (ν := ν) b t = (Func.ofKeyword? t.lexeme).map .func := by
    simp only [SymbolKind.ofToken?, ht]
    exact SymbolKind.ofName?_of_one_lt (by omega)
  refine ⟨harc, ?_⟩
  simp only [read, Symbol.read, Option.toList_none, Option.toList_some, harc, hu, htoken,
    nextSolid?_cons hsolid, hv, Symbol.ofSplitName, hkeyword, if_true, Bool.false_eq_true, if_false,
    Func.suggest?_of_lowercase_eq hlexeme]
  cases Func.ofKeyword? t.lexeme with
  | some f => exact .of_region hspan
  | none =>
    refine .error ⟨?_, .region hspan⟩
    simp only [ParseError.undefined, ht, if_true]
    exact .undefinedToken (by simpa [Token.text] using hlexeme)

end Token.Reading

theorem Rewritten.eq_nil {b : Bool} {us : List Token} (h : Rewritten es b [] us) : us = [] := by
  cases h
  rfl

/-- **The readings of a respelled text are those of the text**, one for one. -/
theorem Rewritten.readings [Literal ν] {b : Bool} {ts us : List Token} (h : Rewritten es b ts us) :
    List.Forall₂ (fun r r' : Reading => ∀ b, SameResult es (r.read b : Except _ (Symbol ν))
      (r'.read b)) (readings ts) (readings us) := by
  induction ts using Token.readings.induct generalizing b us with
  | case1 =>
    rw [h.eq_nil]
    exact .nil
  | case2 t =>
    cases h with
    | token ht hrest =>
      rw [hrest.eq_nil]
      exact .cons (fun b => Reading.read_alone b ht) .nil
    | split ht hu hv hne hlexeme hspan hrest =>
      rw [hrest.eq_nil, Token.readings_of_isArc hu]
      exact .cons (fun b => (Reading.read_split b ht hu hv hne hlexeme hspan).2) .nil
  | case3 t u ts harc ih =>
    cases h with
    | token ht hrest =>
      -- behind a lone `arc` no name is cut in two
      rw [harc] at hrest
      cases hrest with
      | token hu hrest =>
        rw [Token.readings_of_isArc harc, Token.readings_of_isArc (ht.isArc_eq.trans harc)]
        exact .cons (fun b => Reading.read_along b ht harc hu) (ih hrest)
    | split ht hu hv hne hlexeme hspan hrest =>
      have := (Reading.read_split (ν := ν) true ht hu hv hne hlexeme hspan).1
      exact absurd harc (by simp [this])
  | case4 t u ts harc ih =>
    have harc : t.isArc = false := by simpa using harc
    rw [Token.readings_of_not_isArc harc]
    cases h with
    | token ht hrest =>
      rw [Token.readings_of_not_isArc (ht.isArc_eq.trans harc)]
      exact .cons (fun b => Reading.read_alone b ht) (ih hrest)
    | split ht hu hv hne hlexeme hspan hrest =>
      rw [Token.readings_of_isArc hu]
      exact .cons (fun b => (Reading.read_split b ht hu hv hne hlexeme hspan).2) (ih hrest)

end Readings

/-! ## 3. The stream -/

/-- The streams have the same results, one for one. -/
abbrev SameStream (es : List Edit) : Stream ν → Stream ν → Prop := List.Forall₂ (SameResult es)

theorem Stream.ofReadings_same [Literal ν] {es : List Edit} {rs rs' : List Reading} (b : Bool)
    (h : List.Forall₂ (fun r r' : Reading => ∀ b, SameResult es (r.read b : Except _ (Symbol ν))
      (r'.read b)) rs rs') :
    SameStream es (ofReadings (utf8Length (Edit.old es)) b rs : Stream ν)
      (ofReadings (utf8Length (Edit.new es)) b rs') := by
  induction h generalizing b with
  | nil => exact .cons (.symbol ⟨rfl, .finish, fun h => absurd h (by simp [SymbolKind.isEnd])⟩) .nil
  | @cons r r' rs rs' h hrest ih =>
    rw [ofReadings, ofReadings, (h b).expectsBehind_eq]
    exact .cons (h b) (ih _)

/-- **A text and a respelled one are read alike.** -/
theorem Respells.results [Literal ν] {source : String} {es : List Edit}
    (h : Respells false (Token.tokenize source) es) :
    SameStream es (Lexer.ofSource source : Lexer ν).results
      (Lexer.ofSource (String.ofList (Edit.new es))).results := by
  have hold : source.utf8ByteSize = utf8Length (Edit.old es) := by
    rw [h.old_eq, Token.tokenize, Token.tokenizeFrom_lexemes, ← utf8ByteSize_ofList,
      String.ofList_toList]
  rw [Lexer.results_ofSource, Lexer.results_ofSource, utf8ByteSize_ofList, hold]
  refine Stream.ofReadings_same true (Rewritten.readings (b := false) ?_)
  have hrewritten := h.rewritten (List.nil_append es).symm rfl
  simpa [Token.tokenize, Edit.new, utf8Length] using hrewritten

end SymbolicCalculus
