/-
# The capacity of the stack

The capacity of the stack decides one thing only: whether there is room for another entry.  More
room takes nothing away from a parser, so what transitions do with little room they do with more
(`Transition.mono`), and a run that does not end at a full stack ends in the same way
(`Halt.of_not_overflows`).  A stack holds no more entries than symbols have been read, and the
sentinel (`Viable.length_le`), so that room for all symbols of a formula is always enough.

`Expr.parseWithin_raise` says this of whole runs.
-/
import SymbolicCalculus.Binary64
import SymbolicCalculus.Proofs.Lexing.Readings
import SymbolicCalculus.Proofs.Parsing.Halt

namespace SymbolicCalculus

universe u

variable {ν : Type u}

/-! ## 1. More room -/

/-- The result of a run that ended at a full stack. -/
def Overflows (r : Except ParseError (Expr ν)) : Prop :=
  ∃ (limit : Nat) (span : Span), r = .error ⟨.stackOverflow limit, span⟩

section Room

variable {limit limit' : Nat} {v v' : View ν}

/-- What a chain of transitions does with little room it does with more. -/
theorem Transitions.mono {evs : List (ParserEvent ν)} (h : Transitions limit v evs v')
    (hle : limit ≤ limit') : Transitions limit' v evs v' := by
  induction h with
  | refl v => exact .refl v
  | head h _ ih => exact .head (h.mono hle) ih

/-- A run that does not end at a full stack ends in the same way with any room. -/
theorem Halt.of_not_overflows {r : Except ParseError (Expr ν)} (h : Halt limit v r)
    (hr : ¬Overflows r) : Halt limit' v r := by
  cases h with
  | unreadable => exact .unreadable
  | overflow htop hprec hfull => exact absurd ⟨_, _, rfl⟩ hr
  | contents htop hs hcontents => exact .contents htop hs hcontents
  | unopened htop hs => exact .unopened htop hs
  | answer hs => exact .answer hs
  | leftover htop hs hoperands hmore => exact .leftover htop hs hoperands hmore
  | empty hs => exact .empty hs
  | handle htop hbase hstart hclose hprec hhandle =>
    exact .handle htop hbase hstart hclose hprec hhandle

end Room

/-! ## 2. Enough room -/

/-- A stack holds no more entries than symbols have been read, and the sentinel. -/
theorem Viable.length_le {st : Stack ν} {ss : List (Symbol ν)} {bound : Nat}
    (h : Viable st ss bound) : st.length ≤ ss.length + 1 := by
  induction h with
  | start => exact Nat.le_refl _
  | active _ s _ _ ih =>
    simp only [List.length_cons, List.length_append, List.length_nil]
    omega
  | @reduced st ss ts bound _ c p _ span hspan _ ih =>
    obtain ⟨first, _, hfirst, -⟩ := hspan
    have hpos : 0 < ts.length := List.length_pos_iff.mpr fun hnil => by simp [hnil] at hfirst
    simp only [List.length_cons, List.length_append]
    omega

theorem Stream.readable_append {ss : List (Symbol ν)} (hss : ∀ t ∈ ss, t.kind.isEnd = false)
    (rs : Stream ν) : readable (ss.map .ok ++ rs) = ss ++ readable rs := by
  induction ss with
  | nil => rfl
  | cons s ss ih =>
    rw [List.map_cons, List.cons_append, readable_cons (hss s List.mem_cons_self),
      ih fun t ht => hss t (List.mem_cons_of_mem s ht), List.cons_append]

/-- No handle is refused for want of room. -/
theorem Parser.cause_of_reduceHandle {handle : Stack ν} {err : ParseError}
    (h : Parser.reduceHandle handle = .error err) (limit : Nat) :
    err.cause ≠ .stackOverflow limit := by
  unfold reduceHandle at h
  repeat' split at h
  all_goals first
    | (obtain rfl := Except.error.inj h
       simp)
    | cases h

section Formulas

variable [Literal ν]

/-- Reading fails only at a token that means nothing. -/
theorem Lexer.cause_of_mem_results {l : Lexer ν} (hheld : l.held = none) {err : ParseError}
    (h : .error err ∈ l.results) :
    ∃ name suggestion, err.cause = .undefinedToken name suggestion := by
  rcases gives_of_mem_results hheld h with hend | ⟨r, -, b, hgives⟩
  · exact absurd hend (by simp)
  · cases hgives <;> exact ⟨_, _, rfl⟩

variable {source : String}

/-- What cannot be read in front of a stack is a token that means nothing. -/
theorem Built.cause_of_error {st : Stack ν} {err : ParseError} {rs : Stream ν}
    (h : Built (Lexer.ofSource source).results (st, .error err :: rs)) :
    ∃ name suggestion, err.cause = .undefinedToken name suggestion := by
  obtain ⟨ss, bound, -, hresults, -⟩ := h
  have hmem : .error err ∈ (Lexer.ofSource source : Lexer ν).results := by
    rw [hresults]
    exact List.mem_append_right _ List.mem_cons_self
  exact Lexer.cause_of_mem_results rfl hmem

/-- **A run overflows where a symbol is pushed onto a stack without room for it.**  The stack holds
no more entries then than the formula has symbols. -/
theorem Expr.exists_full_of_overflows {limit : Nat}
    (h : Overflows (parseWithin limit source : Except ParseError (Expr ν))) :
    ∃ (evs : List (ParserEvent ν)) (st : Stack ν) (top : Slot ν) (lower : Stack ν) (s : Symbol ν)
      (rs : Stream ν),
      Transitions limit (Parser.ofSource source limit : Parser ν).view evs (st, .ok s :: rs) ∧
      st.fromActive = top :: lower ∧ top.precedence ≤ s.kind.inputPrecedence ∧
      limit ≤ st.length + 1 ∧
      st.length ≤ (Lexer.ofSource source : Lexer ν).symbols.length := by
  obtain ⟨n, span, hoverflow⟩ := h
  obtain ⟨evs, v, htransitions, hhalt⟩ := parseWithin_eq_iff.mp hoverflow
  have hbuilt := htransitions.preserves Built.transition (Built.ofSource source limit)
  cases hhalt with
  | unreadable =>
    obtain ⟨name, suggestion, hcause⟩ := hbuilt.cause_of_error
    exact absurd hcause (by simp)
  | @overflow st top lower s rs htop hprec hfull =>
    obtain ⟨ss, bound, hviable, hsource, -⟩ := hbuilt
    refine ⟨evs, st, top, lower, s, rs, htransitions, htop, hprec, hfull, ?_⟩
    have hend := Parser.isEnd_of_precedence_le (Parser.isReduced_of_fromActive htop) hprec
    have hreadable := (Lexer.ofSource source : Lexer ν).length_readable_le
    rw [hsource, Stream.readable_append hviable.isEnd_eq_false, Stream.readable_cons hend,
      List.length_append, List.length_cons] at hreadable
    have hlength : st.length ≤ ss.length + 1 := hviable.length_le
    omega
  | handle _ _ _ _ _ hhandle => exact absurd rfl (Parser.cause_of_reduceHandle hhandle n)

/-- **A formula does not overflow a stack that has room for its symbols**, the sentinel, and one
entry more. -/
theorem Expr.not_overflows_parseWithin {limit : Nat}
    (h : (Lexer.ofSource source : Lexer ν).symbols.length + 2 ≤ limit) :
    ¬Overflows (parseWithin limit source : Except ParseError (Expr ν)) := by
  intro hoverflow
  obtain ⟨evs, st, top, lower, s, rs, -, -, -, hfull, hlength⟩ := exists_full_of_overflows hoverflow
  omega

/-- A formula that does not overflow a stack has the same result with any larger one. -/
theorem Expr.parseWithin_eq_of_not_overflows {limit limit' : Nat} (hle : limit ≤ limit')
    (hr : ¬Overflows (parseWithin limit source : Except ParseError (Expr ν))) :
    parseWithin limit' source = (parseWithin limit source : Except ParseError (Expr ν)) := by
  obtain ⟨evs, v, htransitions, hhalt⟩ :=
    parseWithin_eq_iff.mp (Eq.refl (parseWithin limit source : Except ParseError (Expr ν)))
  exact parseWithin_eq_iff.mpr ⟨evs, v, htransitions.mono hle, hhalt.of_not_overflows hr⟩

/-- **Raising the capacity of the stack never changes a result.**  A formula that does not overflow
a stack has the same result with any larger one: the same expression, or the same error.  One that
overflows a stack overflows every smaller one too.  And no formula overflows a stack that has room
for two more entries than it has symbols. -/
theorem Expr.parseWithin_raise {limit limit' : Nat} (hle : limit ≤ limit') :
    let result : Nat → Except ParseError (Expr ν) := fun n => parseWithin n source
    (¬Overflows (result limit) → result limit' = result limit) ∧
      (Overflows (result limit') → Overflows (result limit)) ∧
      ((Lexer.ofSource source : Lexer ν).symbols.length + 2 ≤ limit →
        ¬Overflows (result limit)) := by
  intro result
  have hsame (hr : ¬Overflows (result limit)) : result limit' = result limit :=
    parseWithin_eq_of_not_overflows hle hr
  refine ⟨hsame, fun hoverflow => ?_, not_overflows_parseWithin⟩
  by_contra hr
  exact hr (hsame hr ▸ hoverflow)

end Formulas

/-- A parenthesis that is never closed is found with little room as with much. -/
theorem Expr.parseWithin_raise_unclosed :
    4 ≤ 100 ∧ Overflows (parseWithin 3 "(x" : Except ParseError (Expr Float)) ∧
      parseWithin 100 "(x" =
        (.error ⟨.parenMismatch .unclosed, ⟨0, 1⟩⟩ : Except ParseError (Expr Float)) := by
  have hle : 4 ≤ 100 := by decide
  have hfour : parseWithin 4 "(x" =
      (.error ⟨.parenMismatch .unclosed, ⟨0, 1⟩⟩ : Except ParseError (Expr Float)) := by
    cbv
  have hthree : parseWithin 3 "(x" =
      (.error ⟨.stackOverflow 3, ⟨1, 2⟩⟩ : Except ParseError (Expr Float)) := by
    cbv
  refine ⟨hle, ⟨3, ⟨1, 2⟩, hthree⟩, ?_⟩
  have hroom : ¬Overflows (parseWithin 4 "(x" : Except ParseError (Expr Float)) := by
    rw [hfour]
    rintro ⟨n, span, h⟩
    exact absurd h (by simp)
  exact ((parseWithin_raise hle).1 hroom).trans hfour

end SymbolicCalculus
