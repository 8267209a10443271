/-
# What parenthesis errors say

Between two entries of the stack that wait there stand complete subexpressions, and each of them was
made from a phrase (`Viable.of_operands`).  The parentheses of phrases are balanced.  So the open
parentheses that wait on the stack are those among the symbols read so far that have no partner, and
the topmost of them is the rightmost one.

From this it follows that parenthesis errors are true: a parenthesis that is said to be unclosed or
unopened has no partner, and two that are said to surround anything but one expression are partners
with no expression between them (`Expr.parenMismatch_truthful`).
-/
import SymbolicCalculus.Proofs.Lexing.Parentheses
import SymbolicCalculus.Proofs.Parsing.Limit

namespace SymbolicCalculus

universe u

variable {ν : Type u}

/-! ## 1. Expressions one behind the other -/

/-- The symbols can be derived from an expression. -/
def IsExpression (ss : List (Symbol ν)) : Prop :=
  ∃ p : Phrase ν .expr, p.yield = ss.map Symbol.kind

section Expressions

variable {tss : List (List (Symbol ν))} (h : ∀ ts ∈ tss, IsExpression ts)

include h

/-- The parentheses of expressions are balanced. -/
theorem balanced_flatten :
    Balanced ((tss.flatten.filterMap Symbol.bracket?).map Bracket.side) := by
  rw [map_side_filterMap_bracket?, brackets, List.map_flatten, List.filterMap_flatten]
  refine .flatten fun bs hbs => ?_
  simp only [List.mem_map, exists_exists_and_eq_and] at hbs
  obtain ⟨ts, hts, rfl⟩ := hbs
  obtain ⟨p, hp⟩ := h ts hts
  rw [← hp]
  exact p.balanced

/-- Only a single expression is one. -/
theorem length_eq_one_of_isExpression (hflatten : IsExpression tss.flatten) : tss.length = 1 := by
  obtain ⟨r, hr⟩ := hflatten
  match tss with
  | [] => exact absurd hr r.yield_ne_nil
  | [_] => rfl
  | ts :: us :: more =>
    obtain ⟨p, hp⟩ := h ts (by simp)
    obtain ⟨q, hq⟩ := h us (by simp)
    refine absurd ?_ (p.append_ne_yield q (more.flatten.map Symbol.kind) r)
    rw [hr, hp, hq]
    simp

end Expressions

/-! ## 2. What stands above an entry that waits -/

namespace Viable

variable {st lower : Stack ν} {ss : List (Symbol ν)} {bound : Nat} {span : Span}

/-- **The complete subexpressions at the top of the stack were made from expressions**, which are
the last symbols that have been read. -/
theorem of_operands (h : Viable st ss bound) :
    ∃ (ss' : List (Symbol ν)) (tss : List (List (Symbol ν))) (bound' : Nat),
      ss = ss' ++ tss.flatten ∧ tss.length = st.operands.length ∧ (∀ ts ∈ tss, IsExpression ts) ∧
      Viable st.fromActive ss' bound' := by
  induction h with
  | start => exact ⟨[], [], _, rfl, rfl, List.forall_mem_nil _, .start⟩
  | active h s hactive hbound =>
    exact ⟨_, [], _, by simp, rfl, List.forall_mem_nil _, .active h s hactive hbound⟩
  | @reduced st ss ts bound h c p hyield span hspan hactive ih =>
    obtain ⟨ss', tss, bound', rfl, hlength, htss, hviable⟩ := ih
    obtain ⟨q, hq, -⟩ := p.exists_expr
    refine ⟨ss', tss ++ [ts], bound', by simp, by simp [hlength], ?_, hviable⟩
    intro us hus
    rcases List.mem_append.mp hus with hus | hus
    · exact htss us hus
    · obtain rfl := List.mem_singleton.mp hus
      exact ⟨q, hq.trans hyield.symm⟩

/-- Above a symbol that waits there are expressions that were read behind it. -/
theorem of_top {k : SymbolKind ν} (h : Viable st ss bound)
    (htop : st.fromActive = ⟨.active k, span⟩ :: lower) :
    ∃ (front : List (Symbol ν)) (s : Symbol ν) (tss : List (List (Symbol ν))),
      ss = front ++ s :: tss.flatten ∧ s.kind = k ∧ s.span = span ∧
      tss.length = st.operands.length ∧ ∀ ts ∈ tss, IsExpression ts := by
  obtain ⟨ss', tss, _, rfl, hlength, htss, hviable⟩ := h.of_operands
  rw [htop] at hviable
  obtain ⟨front, _, s, rfl, hs, hspan, -⟩ := hviable.of_active
  exact ⟨front, s, tss, by simp, hs, hspan, hlength, htss⟩

/-- Above the sentinel there are expressions, and nothing else has been read. -/
theorem of_start (h : Viable st ss bound) (htop : st.fromActive = ⟨.start, span⟩ :: lower) :
    ∃ tss : List (List (Symbol ν)), ss = tss.flatten ∧ ∀ ts ∈ tss, IsExpression ts := by
  obtain ⟨ss', tss, _, rfl, -, htss, hviable⟩ := h.of_operands
  rw [htop] at hviable
  cases hviable
  exact ⟨tss, rfl, htss⟩

end Viable

/-! ## 3. The three errors -/

/-- The only handle that is refused for a parenthesis is a single operand above an open one. -/
theorem Parser.of_reduceHandle_parenMismatch {handle : Stack ν} {issue : ParenIssue} {span : Span}
    (h : Parser.reduceHandle handle = .error ⟨.parenMismatch issue, span⟩) :
    issue = .unclosed ∧ ∃ operand, handle = [operand, ⟨.active .openParen, span⟩] := by
  unfold reduceHandle at h
  split at h
  · split at h <;> simp at h
  · next operand op =>
    obtain ⟨entry, opSpan⟩ := op
    split at h
    · simp at h
    · next hentry =>
      obtain rfl : entry = .active .openParen := hentry
      obtain ⟨rfl, rfl⟩ : ParenIssue.unclosed = issue ∧ opSpan = span := by simpa using h
      exact ⟨rfl, operand, rfl⟩
    · simp at h
  · split at h <;> simp at h
  · simp at h

/-- A handle that ends in an open parenthesis is what stands above it. -/
theorem Stack.top_eq_of_handle {st lower : Stack ν} {top operand : Slot ν} {span : Span}
    (h : st.operands ++ top :: lower.operands = [operand, ⟨.active .openParen, span⟩]) :
    top = ⟨.active .openParen, span⟩ := by
  have hnotin (st : Stack ν) : (⟨.active .openParen, span⟩ : Slot ν) ∉ st.operands := fun hmem =>
    absurd (List.mem_takeWhile_imp hmem) (by simp [Slot.isReduced])
  have hmem : ⟨.active .openParen, span⟩ ∈ st.operands ++ top :: lower.operands := by
    rw [h]
    simp
  rcases List.mem_append.mp hmem with hmem | hmem
  · exact absurd hmem (hnotin st)
  · rcases List.mem_cons.mp hmem with htop | hmem
    · exact htop.symm
    · exact absurd hmem (hnotin lower)

variable [Literal ν] {source : String} {st lower : Stack ν} {s : Symbol ν} {rs : Stream ν}
  {span : Span}

namespace Built

omit [Literal ν] in
/-- The symbols that have been read and the next one do not end the formula, if that one does
not. -/
theorem exists_next {source : Stream ν} (h : Built source (st, .ok s :: rs))
    (hs : s.kind.isEnd = false) :
    ∃ (ss : List (Symbol ν)) (bound : Nat), Viable st ss bound ∧
      source = (ss ++ [s]).map .ok ++ rs ∧ ∀ t ∈ ss ++ [s], t.kind.isEnd = false := by
  obtain ⟨ss, bound, hviable, hresults, -⟩ := h
  refine ⟨ss, bound, hviable, by simpa using hresults, fun t ht => ?_⟩
  rcases List.mem_append.mp ht with ht | ht
  · exact hviable.isEnd_eq_false t ht
  · rwa [List.mem_singleton.mp ht]

/-- **An open parenthesis at the top of the stack has no partner if the formula ends there**, and
all behind it have one. -/
theorem unclosed (h : Built (Lexer.ofSource source).results (st, .ok s :: rs))
    (htop : st.fromActive = ⟨.active .openParen, span⟩ :: lower) (hs : s.kind = .endOfInput) :
    span.Marks source ['('] ∧ ∃ front back, Bracket.ofSource source = front ++ ⟨.U, span⟩ :: back ∧
      ¬Bracket.IsPaired (Bracket.ofSource source) ⟨.U, span⟩ ∧
      ∀ b ∈ back, Bracket.IsPaired (Bracket.ofSource source) b := by
  obtain ⟨ss, bound, hviable, hresults, -⟩ := h
  obtain ⟨rest, hsource, hrest⟩ := Bracket.ofSource_eq_append hviable.isEnd_eq_false hresults
  obtain rfl := hrest s hs rfl
  obtain ⟨front, o, tss, rfl, hkind, rfl, -, htss⟩ := hviable.of_top htop
  have ho : o.bracket? = some ⟨.U, o.span⟩ := by rw [Symbol.bracket?, hkind]; rfl
  rw [List.append_nil, List.filterMap_append, List.filterMap_cons_some ho] at hsource
  have hnodup := Bracket.nodup_ofSource source
  have hmem : ⟨.U, o.span⟩ ∈ Bracket.ofSource source := by simp [hsource]
  rw [hsource] at hnodup ⊢
  exact ⟨Bracket.marks_of_mem_ofSource hmem, _, _, rfl,
    Bracket.not_isPaired_of_behind hnodup rfl (balanced_flatten htss)⟩

/-- **A closing parenthesis above the sentinel has no partner**, and all that are opened in front of
it are closed there. -/
theorem unopened (h : Built (Lexer.ofSource source).results (st, .ok s :: rs))
    (htop : st.fromActive = ⟨.start, span⟩ :: lower) (hs : s.kind = .closeParen) :
    s.span.Marks source [')'] ∧ ∃ front back,
      Bracket.ofSource source = front ++ ⟨.D, s.span⟩ :: back ∧
      ¬Bracket.IsPaired (Bracket.ofSource source) ⟨.D, s.span⟩ ∧
      ∀ o ∈ front, o.side = .U → ∃ c ∈ front, Bracket.Partners (Bracket.ofSource source) o c := by
  obtain ⟨ss, bound, hviable, hresults, hend⟩ := h.exists_next (by rw [hs]; rfl)
  obtain ⟨rest, hsource, -⟩ := Bracket.ofSource_eq_append hend hresults
  obtain ⟨tss, rfl, htss⟩ := hviable.of_start htop
  have hc : s.bracket? = some ⟨.D, s.span⟩ := by rw [Symbol.bracket?, hs]; rfl
  rw [List.filterMap_append, List.filterMap_cons_some hc, List.filterMap_nil, List.append_assoc,
    List.singleton_append] at hsource
  have hnodup := Bracket.nodup_ofSource source
  have hmem : ⟨.D, s.span⟩ ∈ Bracket.ofSource source := by simp [hsource]
  rw [hsource] at hnodup ⊢
  exact ⟨Bracket.marks_of_mem_ofSource hmem, _, _, rfl,
    Bracket.not_isPaired_of_front hnodup rfl (balanced_flatten htss)⟩

/-- **A closing parenthesis closes the one at the top of the stack**, and unless there is exactly
one expression above it, there is none between the two. -/
theorem contents (h : Built (Lexer.ofSource source).results (st, .ok s :: rs))
    (htop : st.fromActive = ⟨.active .openParen, span⟩ :: lower) (hs : s.kind = .closeParen)
    (hcontents : st.operands.length ≠ 1) :
    span.Marks source ['('] ∧ s.span.Marks source [')'] ∧
      Bracket.Partners (Bracket.ofSource source) ⟨.U, span⟩ ⟨.D, s.span⟩ ∧
      ¬IsExpression (Symbol.between span s.span (Lexer.ofSource source : Lexer ν).symbols) := by
  obtain ⟨ss, bound, hviable, hresults, hend⟩ := h.exists_next (by rw [hs]; rfl)
  obtain ⟨rest, hsource, -⟩ := Bracket.ofSource_eq_append hend hresults
  obtain ⟨front, o, tss, rfl, hkind, rfl, hlength, htss⟩ := hviable.of_top htop
  rw [List.append_assoc, List.cons_append] at hresults hend
  rw [Lexer.between_of_results hend hresults]
  have ho : o.bracket? = some ⟨.U, o.span⟩ := by rw [Symbol.bracket?, hkind]; rfl
  have hc : s.bracket? = some ⟨.D, s.span⟩ := by rw [Symbol.bracket?, hs]; rfl
  simp only [List.filterMap_append, List.filterMap_cons_some ho, List.filterMap_cons_some hc,
    List.filterMap_nil, List.append_assoc, List.cons_append, List.nil_append] at hsource
  have homem : ⟨.U, o.span⟩ ∈ Bracket.ofSource source := by simp [hsource]
  have hcmem : ⟨.D, s.span⟩ ∈ Bracket.ofSource source := by simp [hsource]
  refine ⟨Bracket.marks_of_mem_ofSource homem, Bracket.marks_of_mem_ofSource hcmem,
    ⟨rfl, rfl, _, _, _, hsource, balanced_flatten htss⟩, fun hexpr => hcontents ?_⟩
  rw [← hlength, length_eq_one_of_isExpression htss hexpr]

end Built

/-! ## 4. Parenthesis errors are true -/

/-- **Parenthesis errors are true.**  A parenthesis that is said to be unclosed is an opening one
without a partner, and the rightmost parenthesis of the formula that has none.  One that is said to
be unopened is a closing one without a partner, and all that are opened in front of it are closed in
front of it.  And where two are said to surround anything but one expression, they are partners, and
the symbols that stand between them are not derived from an expression. -/
theorem Expr.parenMismatch_truthful {limit : Nat} {issue : ParenIssue}
    (h : parseWithin limit source =
      (.error ⟨.parenMismatch issue, span⟩ : Except ParseError (Expr ν))) :
    let bs := Bracket.ofSource source
    match issue with
    | .unclosed => span.Marks source ['('] ∧ ∃ front back, bs = front ++ ⟨.U, span⟩ :: back ∧
        ¬Bracket.IsPaired bs ⟨.U, span⟩ ∧ ∀ b ∈ back, Bracket.IsPaired bs b
    | .unopened => span.Marks source [')'] ∧ ∃ front back, bs = front ++ ⟨.D, span⟩ :: back ∧
        ¬Bracket.IsPaired bs ⟨.D, span⟩ ∧
        ∀ o ∈ front, o.side = .U → ∃ c ∈ front, Bracket.Partners bs o c
    | .contents => ∃ o c : Span, span = o.through c ∧ o.Marks source ['('] ∧ c.Marks source [')'] ∧
        Bracket.Partners bs ⟨.U, o⟩ ⟨.D, c⟩ ∧
        ¬IsExpression (Symbol.between o c (Lexer.ofSource source : Lexer ν).symbols) := by
  obtain ⟨evs, v, htransitions, hhalt⟩ := parseWithin_eq_iff.mp h
  have hbuilt := htransitions.preserves Built.transition (Built.ofSource source limit)
  cases hhalt with
  | unreadable =>
    obtain ⟨name, suggestion, hcause⟩ := hbuilt.cause_of_error
    exact absurd hcause (by simp)
  | contents htop hs hcontents => exact ⟨_, _, rfl, hbuilt.contents htop hs hcontents⟩
  | unopened htop hs => exact hbuilt.unopened htop hs
  | @handle st top lower x base s rs _ htop hbase hstart hclose hprec hhandle =>
    obtain ⟨rfl, operand, hhandle⟩ := Parser.of_reduceHandle_parenMismatch hhandle
    obtain rfl := Stack.top_eq_of_handle hhandle
    have hs : s.kind = .endOfInput := by
      rcases SymbolKind.eq_of_inputPrecedence_lt hprec with hs | hs
      · exact absurd rfl (hclose hs)
      · exact hs
    exact hbuilt.unclosed htop hs

/-- One formula for each of the errors, with parentheses in it that do pair up. -/
theorem Expr.parenMismatch_truthful_pairs :
    (parseWithin 100 "((a)+b" =
        (.error ⟨.parenMismatch .unclosed, ⟨0, 1⟩⟩ : Except ParseError (Expr Float)) ∧
      ¬Bracket.IsPaired (Bracket.ofSource "((a)+b") ⟨.U, ⟨0, 1⟩⟩) ∧
    (parseWithin 100 "(a)+b)" =
        (.error ⟨.parenMismatch .unopened, ⟨5, 6⟩⟩ : Except ParseError (Expr Float)) ∧
      ¬Bracket.IsPaired (Bracket.ofSource "(a)+b)") ⟨.D, ⟨5, 6⟩⟩) ∧
    (parseWithin 100 "(a(b))" =
        (.error ⟨.parenMismatch .contents, ⟨0, 6⟩⟩ : Except ParseError (Expr Float)) ∧
      ∃ o c : Span, o.through c = ⟨0, 6⟩ ∧
        Bracket.Partners (Bracket.ofSource "(a(b))") ⟨.U, o⟩ ⟨.D, c⟩ ∧
        ¬IsExpression (Symbol.between o c (Lexer.ofSource "(a(b))" : Lexer Float).symbols)) := by
  have hunclosed : parseWithin 100 "((a)+b" =
      (.error ⟨.parenMismatch .unclosed, ⟨0, 1⟩⟩ : Except ParseError (Expr Float)) := by
    cbv
  have hunopened : parseWithin 100 "(a)+b)" =
      (.error ⟨.parenMismatch .unopened, ⟨5, 6⟩⟩ : Except ParseError (Expr Float)) := by
    cbv
  have hcontents : parseWithin 100 "(a(b))" =
      (.error ⟨.parenMismatch .contents, ⟨0, 6⟩⟩ : Except ParseError (Expr Float)) := by
    cbv
  obtain ⟨-, _, _, -, halone, -⟩ := parenMismatch_truthful hunclosed
  obtain ⟨-, _, _, -, halone', -⟩ := parenMismatch_truthful hunopened
  obtain ⟨o, c, hspan, -, -, hpartners, hnone⟩ := parenMismatch_truthful hcontents
  exact ⟨⟨hunclosed, halone⟩, ⟨hunopened, halone'⟩, hcontents, o, c, hspan.symm, hpartners, hnone⟩

end SymbolicCalculus
