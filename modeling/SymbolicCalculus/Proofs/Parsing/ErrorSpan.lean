/-
# Where errors point

The region of an error is that of a result of the lexer, or it reaches from one entry of the stack
to another.  What the lexer gives covers tokens (`Lexer.overTokens_of_mem_regions`), and neighbouring
entries of the stack were made from symbols that were read one behind the other (`Viable.covers`).
So every error points at tokens, from the start of one to the end of one (`Halt.overTokens`), but
for the error of a formula without tokens, which points at its end (`Expr.error_span`).
-/
import SymbolicCalculus.Binary64
import SymbolicCalculus.Proofs.Parsing.Mismatch

namespace SymbolicCalculus

universe u

variable {ν : Type u}

open Token (Reading readings solids)

/-! ## 1. Regions over tokens -/

/-- The region is not empty, and it reaches from the start of a token to the end of one. -/
structure Span.OverTokens (ts : List Token) (a : Span) : Prop where
  isInhabited : a.IsInhabited
  exists_ends : ∃ first ∈ ts, ∃ last ∈ ts, a = first.span.through last.span

/-- In the order in which things stand, the last one is the first one or comes behind it. -/
theorem eq_or_rel_of_pairwise {α : Type u} {R : α → α → Prop} {xs : List α} {first last : α}
    (h : xs.Pairwise R) (hfirst : xs.head? = some first) (hlast : xs.getLast? = some last) :
    first = last ∨ R first last := by
  cases xs with
  | nil => exact absurd hfirst (by simp)
  | cons x xs =>
    obtain rfl : x = first := by simpa using hfirst
    rcases List.eq_nil_or_concat xs with rfl | ⟨front, y, rfl⟩
    · exact .inl (by simpa using hlast)
    · rw [List.concat_eq_append, ← List.cons_append, List.getLast?_concat] at hlast
      obtain rfl := Option.some.inj hlast
      exact .inr (List.rel_of_pairwise_cons h (by simp))

/-- A region from the first to the last of symbols that stand one behind the other is not empty. -/
theorem Covers.isInhabited {ss : List (Symbol ν)} {a : Span} (h : Covers ss a)
    (hss : Symbol.InOrder ss) : a.IsInhabited := by
  obtain ⟨first, last, hfirst, hlast, rfl⟩ := h
  have hinhabited := hss.isInhabited first (List.mem_of_head? hfirst)
  have hinhabited' := hss.isInhabited last (List.mem_of_getLast? hlast)
  rcases eq_or_rel_of_pairwise hss.pairwise hfirst hlast with rfl | hbefore
  · exact hinhabited
  · simp only [Span.IsInhabited, Span.Before, Span.through] at hinhabited hinhabited' hbefore ⊢
    omega

section Regions

variable [Literal ν] {source : String} {a : Span}

namespace Lexer

/-- **What reading gives covers tokens that are not blank.** -/
theorem overTokens_of_mem_regions (h : a ∈ (ofSource source : Lexer ν).regions) :
    a.OverTokens (solids (Token.tokenize source)) := by
  refine ⟨(regions_ordered source).1 a h, ?_⟩
  rw [regions_ofSource] at h
  obtain ⟨r, hr, rfl⟩ := List.mem_map.mp h
  exact Token.exists_of_mem_readings hr

/-- A region from the first to the last of symbols that stand one behind the other covers tokens. -/
theorem overTokens_of_covers {ss ts : List (Symbol ν)} {tail : Stream ν}
    (hend : ∀ s ∈ ss, s.kind.isEnd = false)
    (h : (ofSource source : Lexer ν).results = ss.map .ok ++ tail) (hts : ts.Sublist ss)
    (hcovers : Covers ts a) : a.OverTokens (solids (Token.tokenize source)) := by
  refine ⟨hcovers.isInhabited ((inOrder_of_results hend h).sublist hts), ?_⟩
  obtain ⟨first, last, hfirst, hlast, rfl⟩ := hcovers
  obtain ⟨more, hsymbols⟩ := symbols_of_results hend h
  have hmem (s : Symbol ν) (hs : s ∈ ts) : s.span.OverTokens (solids (Token.tokenize source)) := by
    refine overTokens_of_mem_regions ((map_span_symbols_sublist (ν := ν) _).subset ?_)
    rw [hsymbols]
    exact List.mem_map_of_mem (List.mem_append_left more (hts.subset hs))
  obtain ⟨-, first', hfirst', _, -, hspanFirst⟩ := hmem first (List.mem_of_head? hfirst)
  obtain ⟨-, _, -, last', hlast', hspanLast⟩ := hmem last (List.mem_of_getLast? hlast)
  refine ⟨first', hfirst', last', hlast', ?_⟩
  rw [hspanFirst, hspanLast]
  rfl

/-- If the formula ends at once, it has no tokens but blanks. -/
theorem solids_eq_nil_of_results {s : Symbol ν} {rs : Stream ν} (hs : s.kind.isEnd = true)
    (h : (ofSource source : Lexer ν).results = .ok s :: rs) :
    solids (Token.tokenize source) = [] ∧ s.span = .empty source.utf8ByteSize := by
  rw [results_ofSource] at h
  cases hreadings : readings (solids (Token.tokenize source)) with
  | nil =>
    rw [hreadings, Stream.ofReadings] at h
    obtain ⟨hsymbol, -⟩ := List.cons.inj h
    obtain rfl := Except.ok.inj hsymbol
    refine ⟨?_, rfl⟩
    rw [← Token.flatMap_tokens_readings (solids _), hreadings, List.flatMap_nil]
  | cons r rest =>
    rw [hreadings, Stream.ofReadings] at h
    have hread := Reading.isEnd_of_read (List.cons.inj h).1
    exact absurd hs (by simp [hread])

end Lexer

end Regions

/-! ## 2. Entries were made from symbols in a row -/

theorem Stack.span_cons (x : Slot ν) {st : Stack ν} (h : st ≠ []) :
    Stack.span (x :: st) = (Stack.span st).through x.span := by
  obtain ⟨y, ys, rfl⟩ := List.exists_cons_of_ne_nil h
  cases hlast : (y :: ys).getLast? with
  | none => exact absurd hlast (by simp)
  | some bottom => rw [span, span, List.getLast?_cons_cons, hlast]; rfl

/-- What covers the symbols of one more entry covers the symbols of the entries below it too. -/
theorem Covers.cons {ss ts : List (Symbol ν)} {x : Slot ν} {handle : Stack ν}
    (h : handle ≠ [] → ∃ front us, ss = front ++ us ∧ Covers us handle.span)
    (hx : Covers ts x.span) :
    ∃ front us, ss ++ ts = front ++ us ∧ Covers us (Stack.span (x :: handle)) := by
  by_cases hnil : handle = []
  · subst hnil
    exact ⟨ss, ts, rfl, hx⟩
  · obtain ⟨front, us, rfl, hus⟩ := h hnil
    rw [Stack.span_cons x hnil]
    exact ⟨front, us ++ ts, List.append_assoc front us ts, hus.around [] hx⟩

/-- **The entries at the top of the stack were made from the last symbols that have been read**, and
their region reaches from the first to the last of these. -/
theorem Viable.covers {st handle below : Stack ν} {ss : List (Symbol ν)} {bound : Nat}
    (h : Viable st ss bound) (hst : st = handle ++ below) (hne : handle ≠ [])
    (hstart : ∀ x ∈ handle, x.entry ≠ .start) :
    ∃ front ts, ss = front ++ ts ∧ Covers ts handle.span := by
  obtain ⟨x, handle, rfl⟩ := List.exists_cons_of_ne_nil hne
  have hrest : ∀ y ∈ handle, y.entry ≠ .start := fun y hy => hstart y (List.mem_cons_of_mem x hy)
  induction h generalizing x handle with
  | start =>
    obtain ⟨rfl, -⟩ := List.cons.inj hst
    exact absurd rfl (hstart _ List.mem_cons_self)
  | active h s _ _ ih =>
    obtain ⟨rfl, rfl⟩ := List.cons.inj hst
    refine Covers.cons (fun hne => ?_) (.single s)
    obtain ⟨y, handle, rfl⟩ := List.exists_cons_of_ne_nil hne
    exact ih y handle rfl hne hrest fun z hz => hrest z (List.mem_cons_of_mem y hz)
  | reduced h p _ hspan _ ih =>
    obtain ⟨rfl, rfl⟩ := List.cons.inj hst
    refine Covers.cons (fun hne => ?_) hspan
    obtain ⟨y, handle, rfl⟩ := List.exists_cons_of_ne_nil hne
    exact ih y handle rfl hne hrest fun z hz => hrest z (List.mem_cons_of_mem y hz)

/-- Complete subexpressions are not the sentinel. -/
theorem Stack.entry_ne_of_mem_operands {st : Stack ν} {x : Slot ν} (h : x ∈ st.operands) :
    x.entry ≠ .start := by
  intro hx
  have hreduced : x.isReduced = true := List.mem_takeWhile_imp h
  exact absurd hreduced (by simp [Slot.isReduced, hx])

/-- The error of a handle points at the handle, unless a parenthesis in it is never closed. -/
theorem Parser.span_of_reduceHandle {handle : Stack ν} {err : ParseError}
    (h : Parser.reduceHandle handle = .error err) :
    err.span = handle.span ∨
      ∃ operand, handle = [operand, ⟨.active .openParen, err.span⟩] := by
  obtain ⟨cause, span⟩ := err
  by_cases hparen : ∃ issue, cause = .parenMismatch issue
  · obtain ⟨issue, rfl⟩ := hparen
    exact .inr (of_reduceHandle_parenMismatch h).2
  · refine .inl ?_
    unfold reduceHandle at h
    repeat' split at h
    all_goals cases h
    all_goals first
      | rfl
      | exact absurd ⟨_, rfl⟩ hparen

/-! ## 3. Boundaries of characters -/

/-- A place behind some of the characters of a text is a boundary. -/
theorem isValid_utf8Length {source : String} {front back : List Char}
    (h : source.toList = front ++ back) :
    (⟨utf8Length front⟩ : String.Pos.Raw).IsValid source := by
  rw [String.Pos.Raw.isValid_iff_exists_append]
  refine ⟨String.ofList front, String.ofList back, ?_, ?_⟩
  · rw [← String.ofList_append, ← h, String.ofList_toList]
  · rw [String.rawEndPos, utf8ByteSize_ofList]

/-- Both ends of a token are boundaries. -/
theorem Token.isValid_of_mem_tokenize {source : String} {t : Token} (h : t ∈ tokenize source) :
    (⟨t.span.start⟩ : String.Pos.Raw).IsValid source ∧
      (⟨t.span.stop⟩ : String.Pos.Raw).IsValid source := by
  obtain ⟨front, back, htext, -, hspan⟩ := exists_of_mem_tokenizeFrom h
  have htext' : source.toList = (front ++ t.lexeme) ++ back := by rw [htext, List.append_assoc]
  rw [hspan, Nat.zero_add, ← utf8Length_append]
  exact ⟨isValid_utf8Length htext, isValid_utf8Length htext'⟩

/-- Both ends of a region over tokens are boundaries. -/
theorem Span.OverTokens.isValid {source : String} {a : Span}
    (h : a.OverTokens (solids (Token.tokenize source))) :
    (⟨a.start⟩ : String.Pos.Raw).IsValid source ∧ (⟨a.stop⟩ : String.Pos.Raw).IsValid source := by
  obtain ⟨-, first, hfirst, last, hlast, rfl⟩ := h
  exact ⟨(Token.isValid_of_mem_tokenize (List.mem_of_mem_filter hfirst)).1,
    (Token.isValid_of_mem_tokenize (List.mem_of_mem_filter hlast)).2⟩

/-! ## 4. Errors point at tokens -/

section Errors

variable [Literal ν] {source : String} {limit : Nat} {err : ParseError}

namespace Built

variable {st lower : Stack ν} {s : Symbol ν} {rs : Stream ν} {span : Span}

/-- A symbol covers tokens. -/
theorem overTokens_next (h : Built (Lexer.ofSource source).results (st, .ok s :: rs))
    (hs : s.kind.isEnd = false) : s.span.OverTokens (solids (Token.tokenize source)) := by
  obtain ⟨ss, _, -, hresults, hend⟩ := h.exists_next hs
  exact Lexer.overTokens_of_covers hend hresults (List.sublist_append_right ss [s]) (.single s)

/-- Entries at the top of the stack cover tokens. -/
theorem overTokens_handle {handle below : Stack ν}
    (h : Built (Lexer.ofSource source).results (st, rs)) (hst : st = handle ++ below)
    (hne : handle ≠ []) (hstart : ∀ x ∈ handle, x.entry ≠ .start) :
    handle.span.OverTokens (solids (Token.tokenize source)) := by
  obtain ⟨ss, _, hviable, hresults, -⟩ := h
  obtain ⟨front, ts, rfl, hcovers⟩ := hviable.covers hst hne hstart
  exact Lexer.overTokens_of_covers hviable.isEnd_eq_false hresults
    (List.sublist_append_right front ts) hcovers

/-- The symbol that waits at the top of the stack covers tokens. -/
theorem overTokens_top {k : SymbolKind ν} (h : Built (Lexer.ofSource source).results (st, rs))
    (htop : st.fromActive = ⟨.active k, span⟩ :: lower) :
    span.OverTokens (solids (Token.tokenize source)) := by
  obtain ⟨ss, _, hviable, hresults, -⟩ := h
  obtain ⟨front, o, tss, rfl, -, rfl, -, -⟩ := hviable.of_top htop
  exact Lexer.overTokens_of_covers hviable.isEnd_eq_false hresults
    (List.singleton_sublist.mpr (by simp)) (.single o)

/-- A parenthesis that waits at the top of the stack and the one that closes it cover tokens. -/
theorem overTokens_pair {k : SymbolKind ν}
    (h : Built (Lexer.ofSource source).results (st, .ok s :: rs)) (hs : s.kind.isEnd = false)
    (htop : st.fromActive = ⟨.active k, span⟩ :: lower) :
    (span.through s.span).OverTokens (solids (Token.tokenize source)) := by
  obtain ⟨ss, _, hviable, hresults, hend⟩ := h.exists_next hs
  obtain ⟨front, o, tss, rfl, -, rfl, -, -⟩ := hviable.of_top htop
  rw [List.append_assoc] at hresults hend
  exact Lexer.overTokens_of_covers hend hresults (List.sublist_append_right front _)
    ((Covers.single o).around tss.flatten (.single s))

end Built

/-- **What a run ends with points at tokens**, unless there are none. -/
theorem Halt.overTokens {v : View ν} (hbuilt : Built (Lexer.ofSource source).results v)
    (h : Halt limit v (.error err)) :
    err.span.OverTokens (solids (Token.tokenize source)) ∨
      solids (Token.tokenize source) = [] ∧ err = ⟨.malformed, .empty source.utf8ByteSize⟩ := by
  cases h with
  | unreadable =>
    obtain ⟨ss, _, -, hresults, -⟩ := hbuilt
    refine .inl (Lexer.overTokens_of_mem_regions (ν := ν) ?_)
    rw [Lexer.regions, hresults, List.filterMap_append]
    exact List.mem_append_right _ (by simp [region?])
  | overflow htop hprec hfull =>
    have hactive := Parser.isReduced_of_fromActive htop
    exact .inl (hbuilt.overTokens_next (Parser.isEnd_of_precedence_le hactive hprec))
  | contents htop hs hcontents => exact .inl (hbuilt.overTokens_pair (by rw [hs]; rfl) htop)
  | unopened htop hs => exact .inl (hbuilt.overTokens_next (by rw [hs]; rfl))
  | @leftover st more first startSpan s rs htop hs hoperands hmore =>
    have hst : st = more ++ ([first] ++ [⟨.start, startSpan⟩]) := by
      rw [Stack.eq_of_fromActive htop, hoperands, List.append_assoc]
    refine .inl (hbuilt.overTokens_handle hst hmore fun x hx => ?_)
    exact Stack.entry_ne_of_mem_operands (hoperands ▸ List.mem_append_left [first] hx)
  | empty hs =>
    obtain ⟨ss, _, hviable, hresults, -⟩ := hbuilt
    cases hviable
    obtain ⟨hsolids, hspan⟩ := Lexer.solids_eq_nil_of_results (by rw [hs]; rfl) hresults
    exact .inr ⟨hsolids, by rw [hspan]⟩
  | @handle st top lower x base s rs _ htop hbase hstart hclose hprec hhandle =>
    rcases Parser.span_of_reduceHandle hhandle with hspan | ⟨operand, hopen⟩
    · rw [hspan]
      refine .inl (hbuilt.overTokens_handle (Stack.eq_handle_append htop hbase) (by simp) ?_)
      intro y hy
      rcases List.mem_append.mp hy with hy | hy
      · exact Stack.entry_ne_of_mem_operands hy
      · rcases List.mem_cons.mp hy with rfl | hy
        · exact hstart
        · exact Stack.entry_ne_of_mem_operands hy
    · obtain rfl := Stack.top_eq_of_handle hopen
      exact .inl (hbuilt.overTokens_top htop)

/-- **Every error points at real text.**  Its region lies within the text, between boundaries of
characters.  If there are tokens that are not blank, it is not empty, and it reaches from the start
of one of them to the end of one; if there are none, the formula is malformed, at its end. -/
theorem Expr.error_span (h : parseWithin limit source = (.error err : Except ParseError (Expr ν))) :
    let solids := Token.solids (Token.tokenize source)
    (err.span.start ≤ err.span.stop ∧ err.span.stop ≤ source.utf8ByteSize) ∧
    ((⟨err.span.start⟩ : String.Pos.Raw).IsValid source ∧
      (⟨err.span.stop⟩ : String.Pos.Raw).IsValid source) ∧
    (solids ≠ [] → err.span.start < err.span.stop ∧ ∃ first ∈ solids, ∃ last ∈ solids,
      err.span.start = first.span.start ∧ err.span.stop = last.span.stop) ∧
    (solids = [] → err = ⟨.malformed, ⟨source.utf8ByteSize, source.utf8ByteSize⟩⟩) := by
  intro solids
  obtain ⟨evs, v, htransitions, hhalt⟩ := parseWithin_eq_iff.mp h
  have hbuilt := htransitions.preserves Built.transition (Built.ofSource source limit)
  rcases hhalt.overTokens hbuilt with hover | ⟨hnone, rfl⟩
  · obtain ⟨hvalid, hvalid'⟩ := hover.isValid
    obtain ⟨hinhabited, first, hfirst, last, hlast, hspan⟩ := hover
    refine ⟨⟨Nat.le_of_lt hinhabited, hvalid'.le_rawEndPos⟩, ⟨hvalid, hvalid'⟩, fun _ => ?_,
      fun hnone => ?_⟩
    · exact ⟨hinhabited, first, hfirst, last, hlast, by rw [hspan]; rfl, by rw [hspan]; rfl⟩
    · exact absurd hfirst (List.eq_nil_iff_forall_not_mem.mp hnone first)
  · have hvalid : (⟨source.utf8ByteSize⟩ : String.Pos.Raw).IsValid source :=
      String.Pos.Raw.isValid_rawEndPos
    exact ⟨⟨Nat.le_refl _, Nat.le_refl _⟩, ⟨hvalid, hvalid⟩, fun hsome => absurd hnone hsome,
      fun _ => rfl⟩

/-- The error of `x+π` points at the two bytes of a token that means nothing, and that of two blanks
behind them. -/
theorem Expr.error_span_undefined :
    (parseWithin 100 "x+π" =
        (.error ⟨.undefinedToken "π" none, ⟨2, 4⟩⟩ : Except ParseError (Expr Float)) ∧
      (⟨2⟩ : String.Pos.Raw).IsValid "x+π" ∧ (⟨4⟩ : String.Pos.Raw).IsValid "x+π") ∧
    parseWithin 100 "  " = (.error ⟨.malformed, ⟨2, 2⟩⟩ : Except ParseError (Expr Float)) ∧
      ¬Token.solids (Token.tokenize "  ") ≠ [] := by
  have hundefined : parseWithin 100 "x+π" =
      (.error ⟨.undefinedToken "π" none, ⟨2, 4⟩⟩ : Except ParseError (Expr Float)) := by
    cbv
  have hblank : parseWithin 100 "  " =
      (.error ⟨.malformed, ⟨2, 2⟩⟩ : Except ParseError (Expr Float)) := by
    cbv
  obtain ⟨-, hvalid, -, -⟩ := error_span hundefined
  obtain ⟨-, -, hsome, -⟩ := error_span hblank
  exact ⟨⟨hundefined, hvalid⟩, hblank, fun hne => absurd (hsome hne).1 (Nat.lt_irrefl 2)⟩

end Errors

end SymbolicCalculus
