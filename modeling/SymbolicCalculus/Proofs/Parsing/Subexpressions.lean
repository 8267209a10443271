/-
# Subexpressions on their own

While a formula is parsed, each complete subexpression on the stack is what its own region of the
text parses to (`Parser.Reaches.parses_alone`), also in runs that fail later on.  What lies below a
subexpression, and what was read in front of it, decide when it is reduced, but not what it is.

It is the tree of a phrase (`Seated.exists_phrase`).  A phrase does not begin with an infix
operator, so its text gives the same symbols alone (`Lexer.exists_excerpt`).  And alone it needs the
same room (`Phrase.need_eq_of_yield_eq`), which it found above the sentinel and whatever else lay
below it.
-/
import SymbolicCalculus.Proofs.Lexing.Excerpt
import SymbolicCalculus.Proofs.Parsing.Accept
import SymbolicCalculus.Proofs.Parsing.ErrorSpan
import SymbolicCalculus.Proofs.Parsing.Peak

namespace SymbolicCalculus

universe u

variable {ν : Type u}

/-! ## 1. The phrases of subexpressions -/

namespace Seated

variable {st : Stack ν} {ss : List (Symbol ν)} {bound limit : Nat}

/-- The sentinel takes an entry. -/
theorem length_pos (h : Seated limit st ss bound) : 0 < st.length := by
  cases h <;> exact Nat.succ_pos _

/-- **A complete subexpression is the tree of a phrase**, from which a run of the symbols is derived,
and the phrase fits above the sentinel. -/
theorem exists_phrase {e : Expr ν} {span : Span} (h : Seated limit st ss bound)
    (hmem : ⟨.reduced e, span⟩ ∈ st) :
    ∃ (front ts back : List (Symbol ν)) (c : Category) (p : Phrase ν c),
      ss = front ++ (ts ++ back) ∧ ts.map Symbol.kind = p.yield ∧ p.tree = e ∧ Covers ts span ∧
      p.need + 1 < limit := by
  induction h with
  | start => exact absurd hmem (by simp)
  | active _ s _ _ _ ih =>
    obtain ⟨front, ts, back, c, p, rfl, hp⟩ := ih (by simpa using hmem)
    exact ⟨front, ts, back ++ [s], c, p, by simp, hp⟩
  | @reduced st ss us bound hst d q hyield span' hspan _ hroom ih =>
    rcases List.mem_cons.mp hmem with heq | hmem
    · obtain ⟨rfl, rfl⟩ : e = q.tree ∧ span = span' := by simpa using heq
      -- the room above the entries below is no more than the room above the sentinel
      have hpos := hst.length_pos
      exact ⟨ss, us, [], d, q, by simp, hyield, rfl, hspan, by omega⟩
    · obtain ⟨front, ts, back, c, p, rfl, hp⟩ := ih hmem
      exact ⟨front, ts, back ++ us, c, p, by simp, hp⟩

end Seated

/-! ## 2. The order of entries -/

/-- Entries, the topmost first, are not empty and stand one behind the other, and what stands behind
all the symbols stands behind them. -/
structure Stack.InOrder (ss : List (Symbol ν)) (above : Stack ν) : Prop where
  isInhabited : ∀ x ∈ above, x.span.IsInhabited
  pairwise : above.Pairwise fun x y => y.span.Before x.span
  before : ∀ a : Span, (∀ s ∈ ss, s.span.Before a) → ∀ x ∈ above, x.span.Before a

namespace Stack.InOrder

variable {above : Stack ν} {ss ts : List (Symbol ν)}

theorem nil : InOrder ([] : List (Symbol ν)) ([] : Stack ν) := ⟨by simp, .nil, by simp⟩

/-- Entries stay in order under one that covers the next symbols. -/
theorem push (h : InOrder ss above) {x : Slot ν} (hx : Covers ts x.span)
    (hordered : Symbol.InOrder (ss ++ ts)) : InOrder (ss ++ ts) (x :: above) := by
  have hinhabited := hx.isInhabited (hordered.sublist (List.sublist_append_right ss ts))
  obtain ⟨-, -, hbetween⟩ := List.pairwise_append.mp hordered.pairwise
  obtain ⟨first, last, hfirst, hlast, hends⟩ := hx
  refine ⟨List.forall_mem_cons.mpr ⟨hinhabited, h.isInhabited⟩,
    List.pairwise_cons.mpr ⟨h.before x.span fun s hs => ?_, h.pairwise⟩, fun a ha => ?_⟩
  · have hbefore := hbetween s hs first (List.mem_of_head? hfirst)
    rwa [hends]
  · refine List.forall_mem_cons.mpr ⟨?_, h.before a fun s hs => ha s (List.mem_append_left ts hs)⟩
    have hbefore := ha last (List.mem_append_right ss (List.mem_of_getLast? hlast))
    rwa [hends]

end Stack.InOrder

/-- **The entries of a viable stack stand one behind the other**, above the sentinel, as the symbols
do that they were made from. -/
theorem Viable.exists_inOrder {st : Stack ν} {ss : List (Symbol ν)} {bound : Nat}
    (h : Viable st ss bound) (hss : Symbol.InOrder ss) :
    ∃ above : Stack ν, st = above ++ [⟨.start, .empty 0⟩] ∧ above.InOrder ss := by
  induction h with
  | start => exact ⟨[], rfl, .nil⟩
  | active _ s _ _ ih =>
    obtain ⟨above, rfl, habove⟩ := ih (hss.sublist (List.sublist_append_left _ _))
    exact ⟨_ :: above, rfl, habove.push (.single s) hss⟩
  | reduced _ p _ hcovers _ ih =>
    obtain ⟨above, rfl, habove⟩ := ih (hss.sublist (List.sublist_append_left _ _))
    exact ⟨_ :: above, rfl, habove.push hcovers hss⟩

/-! ## 3. Subexpressions parse alone -/

section Formulas

variable [Literal ν] {source : String} {limit : Nat}

/-- **A phrase of a formula is parsed alone**, from the piece of the text that its symbols cover, if
there is room for it. -/
theorem Phrase.exists_parse {c : Category} (p : Phrase ν c) {front ts : List (Symbol ν)}
    {tail : Stream ν} {span : Span} (hend : ∀ s ∈ front ++ ts, s.kind.isEnd = false)
    (h : (Lexer.ofSource source : Lexer ν).results = (front ++ ts).map .ok ++ tail)
    (hyield : ts.map Symbol.kind = p.yield) (hcovers : Covers ts span)
    (hroom : p.need + 1 < limit) :
    ∃ piece : String, span.Marks source piece.toList ∧
      Expr.parseWithin limit piece = .ok p.tree := by
  obtain ⟨first, last, hfirst, hlast, rfl⟩ := hcovers
  obtain ⟨ts, rfl⟩ := List.head?_eq_some_iff.mp hfirst
  have hbinary : ∀ op, first.kind ≠ .binary op := fun op hop =>
    p.head?_yield_ne_binary [] op (by rw [List.append_nil, ← hyield, List.map_cons, hop]; rfl)
  obtain ⟨piece, hmarks, hclean, hsymbols⟩ := Lexer.exists_excerpt hend h hbinary hlast
  obtain ⟨q, hq, htree⟩ := p.exists_expr
  refine ⟨piece, hmarks, ?_⟩
  rw [← htree]
  refine Expr.parseWithin_of_phrase hclean q ?_ (by rwa [Phrase.need_eq_of_yield_eq hq])
  rw [hq, ← hyield, ← hsymbols, List.map_map]
  rfl

/-- The entries above the sentinel are not empty and stand one behind the other, and each complete
subexpression is what its own region of the text parses to. -/
structure Stack.IsFaithful (source : String) (limit : Nat) (st : Stack ν) : Prop where
  ordered : ∃ above : Stack ν, st = above ++ [⟨.start, .empty 0⟩] ∧
    (∀ x ∈ above, x.span.IsInhabited) ∧ above.Pairwise fun x y => y.span.Before x.span
  parse : ∀ (e : Expr ν) (span : Span), ⟨.reduced e, span⟩ ∈ st →
    ∃ piece : String, span.Marks source piece.toList ∧ Expr.parseWithin limit piece = .ok e

namespace BuiltWithin

variable {st : Stack ν} {rs : Stream ν}

/-- **What the parser builds is faithful to the text.** -/
theorem isFaithful (h : BuiltWithin limit (Lexer.ofSource source).results (st, rs)) :
    st.IsFaithful source limit := by
  obtain ⟨ss, bound, hseated, hresults, -⟩ := h
  have hend := hseated.viable.isEnd_eq_false
  constructor
  · have hordered := Lexer.inOrder_of_results hend hresults
    obtain ⟨above, hst, habove⟩ := hseated.viable.exists_inOrder hordered
    exact ⟨above, hst, habove.isInhabited, habove.pairwise⟩
  · intro e span hmem
    obtain ⟨front, ts, back, c, p, rfl, hyield, rfl, hcovers, hroom⟩ := hseated.exists_phrase hmem
    rw [← List.append_assoc] at hresults hend
    rw [List.map_append, List.append_assoc] at hresults
    exact p.exists_parse (fun s hs => hend s (List.mem_append_left back hs)) hresults hyield hcovers
      hroom

/-- With the next symbol on top it stays so. -/
theorem isFaithful_cons {s : Symbol ν}
    (h : BuiltWithin limit (Lexer.ofSource source).results (st, .ok s :: rs))
    (hs : s.kind.isEnd = false) :
    Stack.IsFaithful source limit (⟨.active s.kind, s.span⟩ :: st) := by
  constructor
  · obtain ⟨ss, bound, hviable, hresults, hend⟩ := h.built.exists_next hs
    have hordered := Lexer.inOrder_of_results hend hresults
    obtain ⟨above, rfl, habove⟩ :=
      hviable.exists_inOrder (hordered.sublist (List.sublist_append_left ss [s]))
    have hpush := habove.push (x := ⟨.active s.kind, s.span⟩) (.single s) hordered
    exact ⟨_ :: above, rfl, hpush.isInhabited, hpush.pairwise⟩
  · intro e span hmem
    exact h.isFaithful.parse e span (by simpa using hmem)

end BuiltWithin

namespace Parser

variable {q : Parser ν} {n : Nat}

/-- The entries of every state of a run over a formula found room when they were made. -/
theorem Reaches.builtWithin (h : (ofSource source limit : Parser ν).Reaches n q) :
    q.limit = limit ∧ BuiltWithin limit (Lexer.ofSource source : Lexer ν).results q.view := by
  induction h with
  | refl => exact ⟨rfl, .ofSource source limit⟩
  | next _ hstep ih =>
    obtain ⟨hlimit, hbuilt⟩ := ih
    obtain ⟨htransition, hlimit'⟩ := transition_of_step hstep
    rw [hlimit] at htransition
    exact ⟨hlimit'.trans hlimit, hbuilt.transition htransition⟩

/-- **Every complete subexpression on the stack is the parse of its own region.**  In every state of
a run over a formula, whether it succeeds or fails later on, the regions of the entries above the
sentinel are not empty and stand one behind the other, and the region of each complete subexpression
parses, on its own and with the same capacity, to that subexpression.  The same holds while a symbol
is pushed, even if the stack has no room for it. -/
theorem Reaches.parses_alone (h : (ofSource source limit : Parser ν).Reaches n q) :
    q.stack.IsFaithful source limit ∧
    ∀ (k : SymbolKind ν) (span : Span) (m : Move ν), q.step = (some (.shift k span), m) →
      Stack.IsFaithful source limit (⟨.active k, span⟩ :: q.stack) := by
  obtain ⟨-, hbuilt⟩ := h.builtWithin
  refine ⟨hbuilt.isFaithful, fun k span m hstep => ?_⟩
  obtain ⟨⟨lexer, hnext⟩, hpos⟩ := next_of_shift hstep
  obtain ⟨rs, hresults⟩ := Lexer.exists_results_of_next hnext
  rw [view, hresults] at hbuilt
  exact hbuilt.isFaithful_cons (SymbolKind.isEnd_of_inputPrecedence_pos hpos)

/-- The second minus sign of `b--a)` is a negation because of the operator in front of it.  Alone it
is one too, at the start of a formula.  The run fails at the parenthesis. -/
theorem Reaches.parses_alone_neg :
    ∃ (n : Nat) (q : Parser Float), (ofSource "b--a)" 6 : Parser Float).Reaches n q ∧
      ⟨.reduced (.neg (.param ⟨0⟩)), ⟨2, 4⟩⟩ ∈ q.stack ∧
      (∃ piece : String, Span.Marks ⟨2, 4⟩ "b--a)" piece.toList ∧
        Expr.parseWithin 6 piece = .ok (.neg (.param ⟨0⟩) : Expr Float)) ∧
      Expr.parseWithin 6 "b--a)" =
        (.error ⟨.parenMismatch .unopened, ⟨4, 5⟩⟩ : Except ParseError (Expr Float)) := by
  let start : Slot Float := ⟨.start, .empty 0⟩
  let b : Slot Float := ⟨.reduced (.param ⟨1⟩), ⟨0, 1⟩⟩
  let sub : Slot Float := ⟨.active (.binary .sub), ⟨1, 2⟩⟩
  let negation : Slot Float := ⟨.reduced (.neg (.param ⟨0⟩)), ⟨2, 4⟩⟩
  let back : Stream Float := [.ok ⟨.closeParen, ⟨4, 5⟩⟩, .ok ⟨.endOfInput, ⟨5, 5⟩⟩]
  have hresults : (Lexer.ofSource "b--a)" : Lexer Float).results =
      .ok ⟨.param ⟨1⟩, ⟨0, 1⟩⟩ :: .ok ⟨.binary .sub, ⟨1, 2⟩⟩ :: .ok ⟨.neg, ⟨2, 3⟩⟩ ::
        .ok ⟨.param ⟨0⟩, ⟨3, 4⟩⟩ :: back := by
    cbv
  have hview : (ofSource "b--a)" 6 : Parser Float).view = ([start], _) :=
    congrArg (Prod.mk _) hresults
  have htransitions : ∃ evs, Transitions 6 (ofSource "b--a)" 6 : Parser Float).view evs
      ([negation, sub, b, start], back) := by
    rw [hview]
    exact ⟨_, .head (.shift rfl (by decide) (by decide)) <| .head (.leaf rfl rfl (by decide)) <|
      .head (.shift rfl (by decide) (by decide)) <| .head (.shift rfl (by decide) (by decide)) <|
      .head (.shift rfl (by decide) (by decide)) <| .head (.leaf rfl rfl (by decide)) <|
      .single (.neg rfl (by decide))⟩
  obtain ⟨evs, htransitions⟩ := htransitions
  obtain ⟨n, q, hreach, hq⟩ :=
    exists_reaches_of_transitions (p := ofSource "b--a)" 6) htransitions rfl
  have hstack : q.stack = [negation, sub, b, start] := congrArg Prod.fst hq
  have hmem : negation ∈ q.stack := by
    rw [hstack]
    exact List.mem_cons_self
  exact ⟨n, q, hreach, hmem, hreach.parses_alone.1.parse _ _ hmem, by cbv⟩

end Parser

end Formulas

end SymbolicCalculus
