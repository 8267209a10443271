/-
# Parsing a respelled formula

Two parsers that read the same stream, one in front of a text and one in front of a respelling of
it, move in step: their stacks have the same entries, at the same characters (`SameView`).  What a
transition does to one view a transition does to the other (`SameView.transition`), and where one
run ends, the other ends in the same way (`SameView.halt`).

So neither the case of letters nor blanks between tokens, nor blanks behind the prefix `arc` of a
name, change what a formula means or what is wrong with it: `Expr.parseWithin_respelled`.
-/
import SymbolicCalculus.Binary64
import SymbolicCalculus.Proofs.Lexing.SameStream
import SymbolicCalculus.Proofs.Parsing.Halt

namespace SymbolicCalculus

universe u

variable {ν : Type u}

/-! ## 1. Views that are the same -/

/-- The entries are the same, and cover the same characters unless they are the sentinel. -/
structure SameSlot (es : List Edit) (x y : Slot ν) : Prop where
  entry : y.entry = x.entry
  region : x.entry ≠ .start → Edit.SameRegion es x.span y.span

/-- The stacks have the same entries, one for one. -/
abbrev SameStack (es : List Edit) : Stack ν → Stack ν → Prop := List.Forall₂ (SameSlot es)

/-- The views have the same stack and the same stream. -/
structure SameView (es : List Edit) (v w : View ν) : Prop where
  stack : SameStack es v.1 w.1
  stream : SameStream es v.2 w.2

/-- The outcomes are the same expression, or errors of the same cause and place. -/
inductive SameOutcome (es : List Edit) :
    Except ParseError (Expr ν) → Except ParseError (Expr ν) → Prop where
  | ok (e : Expr ν) : SameOutcome es (.ok e) (.ok e)
  | error {err err' : ParseError} (h : SameError es err err') :
      SameOutcome es (.error err) (.error err')

variable {es : List Edit}

theorem SameOutcome.eq_ok {e : Expr ν} {r : Except ParseError (Expr ν)}
    (h : SameOutcome es (.ok e) r) : r = .ok e := by
  cases h
  rfl

theorem SameOutcome.of_region {cause : ParseError.Cause} {a b : Span}
    (h : Edit.SameRegion es a b) :
    SameOutcome es (.error ⟨cause, a⟩ : Except _ (Expr ν)) (.error ⟨cause, b⟩) :=
  .error ⟨.refl cause, .region h⟩

namespace SameSlot

variable {x y : Slot ν}

/-- An entry other than the sentinel, at the same characters. -/
theorem of_region {entry : Entry ν} {a b : Span} (h : Edit.SameRegion es a b) :
    SameSlot es ⟨entry, a⟩ ⟨entry, b⟩ :=
  ⟨rfl, fun _ => h⟩

theorem isReduced_eq (h : SameSlot es x y) : y.isReduced = x.isReduced := by
  simp only [Slot.isReduced, h.entry]

theorem precedence_eq (h : SameSlot es x y) : y.precedence = x.precedence := by
  simp only [Slot.precedence, h.entry]

end SameSlot

namespace SameStack

variable {st st' : Stack ν}

theorem operands (h : SameStack es st st') : SameStack es st.operands st'.operands := by
  induction h with
  | nil => exact .nil
  | @cons x y st st' hx hst ih =>
    simp only [Stack.operands, List.takeWhile_cons, hx.isReduced_eq]
    cases x.isReduced with
    | true => exact .cons hx ih
    | false => exact .nil

theorem fromActive (h : SameStack es st st') : SameStack es st.fromActive st'.fromActive := by
  induction h with
  | nil => exact .nil
  | @cons x y st st' hx hst ih =>
    simp only [Stack.fromActive, List.dropWhile_cons, hx.isReduced_eq]
    cases x.isReduced with
    | true => exact ih
    | false => exact .cons hx hst

/-- The topmost entry is in either stack the same. -/
theorem exists_cons {x : Slot ν} (h : SameStack es (x :: st) st') :
    ∃ y st'', st' = y :: st'' ∧ SameSlot es x y ∧ SameStack es st st'' := by
  cases h with
  | cons hx hst => exact ⟨_, _, rfl, hx, hst⟩

/-- The lowest entry is in either stack the same. -/
theorem exists_concat {x : Slot ν} (h : SameStack es (st ++ [x]) st') :
    ∃ y st'', st' = st'' ++ [y] ∧ SameSlot es x y ∧ SameStack es st st'' := by
  have hreverse : SameStack es (x :: st.reverse) st'.reverse := by
    simpa using List.forall₂_reverse_iff.mpr h
  obtain ⟨y, st'', hst', hx, hst⟩ := hreverse.exists_cons
  refine ⟨y, st''.reverse, ?_, hx, ?_⟩
  · simpa using congrArg List.reverse hst'
  · simpa using List.forall₂_reverse_iff.mpr hst

/-- Entries without the sentinel cover the same characters. -/
theorem span (h : SameStack es st st') (hne : st ≠ []) (hstart : ∀ x ∈ st, x.entry ≠ .start) :
    Edit.SameRegion es st.span st'.span := by
  obtain ⟨top, above, hst⟩ := List.exists_cons_of_ne_nil hne
  obtain ⟨lower, bottom, hst₂⟩ : ∃ lower bottom, st = lower ++ [bottom] :=
    ⟨_, _, (List.dropLast_append_getLast hne).symm⟩
  obtain ⟨top', above', hst', htop, -⟩ := (hst ▸ h).exists_cons
  obtain ⟨bottom', lower', hst₂', hbottom, -⟩ := (hst₂ ▸ h).exists_concat
  have hspan : st.span = bottom.span.through top.span := by
    rw [Stack.span, hst₂, List.getLast?_concat, ← hst₂, hst, List.head?_cons]
  have hspan' : st'.span = bottom'.span.through top'.span := by
    rw [Stack.span, hst₂', List.getLast?_concat, ← hst₂', hst', List.head?_cons]
  rw [hspan, hspan']
  exact (hbottom.region (hstart bottom (by simp [hst₂]))).through
    (htop.region (hstart top (by simp [hst])))

/-- An entry other than the sentinel on top of the stack, in parts. -/
theorem exists_entry {entry : Entry ν} {a : Span} (h : SameStack es (⟨entry, a⟩ :: st) st')
    (hstart : entry ≠ .start) :
    ∃ b st'', st' = ⟨entry, b⟩ :: st'' ∧ Edit.SameRegion es a b ∧ SameStack es st st'' := by
  obtain ⟨⟨entry', b⟩, st'', rfl, hx, hst⟩ := h.exists_cons
  obtain rfl : entry' = entry := hx.entry
  exact ⟨b, st'', rfl, hx.region hstart, hst⟩

end SameStack

/-- The next symbol is in either stream the same. -/
theorem SameStream.exists_symbol {s : Symbol ν} {rs rs' : Stream ν}
    (h : SameStream es (.ok s :: rs) rs') :
    ∃ s' rs'', rs' = .ok s' :: rs'' ∧ SameSymbol es s s' ∧ SameStream es rs rs'' := by
  cases h with
  | cons hs hrs =>
    cases hs with
    | symbol hs => exact ⟨_, _, rfl, hs, hrs⟩

/-! ## 2. Transitions in step -/

/-- **What a transition does to a view, one does to a view that is the same.** -/
theorem SameView.transition {limit : Nat} {v v' w : View ν} {ev : Option (ParserEvent ν)}
    (hv : SameView es v w) (h : Transition limit v ev v') :
    ∃ ev' w', Transition limit w ev' w' ∧ SameView es v' w' := by
  obtain ⟨st', rs'⟩ := w
  obtain ⟨hstack, hstream⟩ := hv
  cases h with
  | shift htop hprec hroom =>
    obtain ⟨s', rs'', rfl, hs, hrs⟩ := hstream.exists_symbol
    have hactive := hstack.fromActive
    rw [htop] at hactive
    obtain ⟨top', lower', htop', htop₂, -⟩ := hactive.exists_cons
    have hregion := hs.region
      (Parser.isEnd_of_precedence_le (Parser.isReduced_of_fromActive htop) hprec)
    refine ⟨_, _, .shift htop' ?_ ?_, .cons ⟨?_, fun _ => hregion⟩ hstack, hrs⟩
    · rwa [htop₂.precedence_eq, hs.kind]
    · rwa [← hstack.length_eq]
    · simp only [hs.kind]
  | leaf hk hx hprec =>
    obtain ⟨s', rs'', rfl, hs, hrs⟩ := hstream.exists_symbol
    obtain ⟨span', _, rfl, hspan, hrest⟩ := hstack.exists_entry (by simp)
    obtain ⟨x', lower', rfl, hx', hlower⟩ := hrest.exists_cons
    exact ⟨_, _, .leaf hk (hx'.isReduced_eq.trans hx) (hs.kind ▸ hprec),
      .cons (.of_region hspan) (.cons hx' hlower), .cons (.symbol hs) hrs⟩
  | neg hx hprec =>
    obtain ⟨s', rs'', rfl, hs, hrs⟩ := hstream.exists_symbol
    obtain ⟨span', _, rfl, hspan, hrest⟩ := hstack.exists_entry (by simp)
    obtain ⟨opSpan', _, rfl, hop, hrest⟩ := hrest.exists_entry (by simp)
    obtain ⟨x', lower', rfl, hx', hlower⟩ := hrest.exists_cons
    exact ⟨_, _, .neg (hx'.isReduced_eq.trans hx) (hs.kind ▸ hprec),
      .cons (.of_region (hop.through hspan)) (.cons hx' hlower), .cons (.symbol hs) hrs⟩
  | binary hx hprec =>
    obtain ⟨s', rs'', rfl, hs, hrs⟩ := hstream.exists_symbol
    obtain ⟨rhsSpan', _, rfl, hrhs, hrest⟩ := hstack.exists_entry (by simp)
    obtain ⟨opSpan', _, rfl, hop, hrest⟩ := hrest.exists_entry (by simp)
    obtain ⟨lhsSpan', _, rfl, hlhs, hrest⟩ := hrest.exists_entry (by simp)
    obtain ⟨x', lower', rfl, hx', hlower⟩ := hrest.exists_cons
    exact ⟨_, _, .binary (hx'.isReduced_eq.trans hx) (hs.kind ▸ hprec),
      .cons (.of_region (hlhs.through hrhs)) (.cons hx' hlower), .cons (.symbol hs) hrs⟩
  | paren hs hlower =>
    obtain ⟨s', rs'', rfl, hs', hrs⟩ := hstream.exists_symbol
    obtain ⟨span', _, rfl, hspan, hrest⟩ := hstack.exists_entry (by simp)
    obtain ⟨openSpan', lower', rfl, hopen, hrest⟩ := hrest.exists_entry (by simp)
    have hclose := hs'.region (by rw [hs]; rfl)
    refine ⟨_, _, .paren (hs'.kind.trans hs) ?_, .cons (.of_region (hopen.through hclose)) hrest,
      hrs⟩
    rintro f name base rfl
    cases hrest with
    | @cons x _ _ _ hx hbase =>
      obtain ⟨entry, name'⟩ := x
      obtain rfl : .active (.func f) = entry := hx.entry
      exact hlower f name' _ rfl
  | call hs =>
    obtain ⟨s', rs'', rfl, hs', hrs⟩ := hstream.exists_symbol
    obtain ⟨span', _, rfl, hspan, hrest⟩ := hstack.exists_entry (by simp)
    obtain ⟨openSpan', _, rfl, hopen, hrest⟩ := hrest.exists_entry (by simp)
    obtain ⟨name', base', rfl, hname, hbase⟩ := hrest.exists_entry (by simp)
    have hclose := hs'.region (by rw [hs]; rfl)
    exact ⟨_, _, .call (hs'.kind.trans hs),
      .cons (.of_region (hname.through (hopen.through hclose))) hbase, hrs⟩

/-- What a run does to a view, one does to a view that is the same. -/
theorem SameView.transitions {limit : Nat} {v v' w : View ν} {evs : List (ParserEvent ν)}
    (hv : SameView es v w) (h : Transitions limit v evs v') :
    ∃ evs' w', Transitions limit w evs' w' ∧ SameView es v' w' := by
  induction h generalizing w with
  | refl => exact ⟨_, w, .refl w, hv⟩
  | head hstep hrest ih =>
    obtain ⟨ev', w', hstep', hv'⟩ := hv.transition hstep
    obtain ⟨evs', w'', hrest', hv''⟩ := ih hv'
    exact ⟨_, w'', .head hstep' hrest', hv''⟩

/-! ## 3. Halts in step -/

/-- The sentinel is no operand. -/
theorem Stack.entry_ne_start {st : Stack ν} {x : Slot ν} (h : x ∈ st.operands) :
    x.entry ≠ .start := by
  obtain ⟨e, span, rfl⟩ := Slot.exists_reduced (List.mem_takeWhile_imp h)
  simp

/-- Handles that are the same are reduced alike. -/
theorem Parser.reduceHandle_same {handle handle' : Stack ν} (h : SameStack es handle handle')
    (hne : handle ≠ []) (hstart : ∀ x ∈ handle, x.entry ≠ .start) :
    SameOutcome es (reduceHandle handle) (reduceHandle handle') := by
  have hspan := h.span hne hstart
  cases h with
  | nil => exact absurd rfl hne
  | @cons x x' _ _ hx h =>
    cases h with
    | nil =>
      simp only [reduceHandle, hx.entry]
      split
      · exact .ok _
      · exact .ok _
      · exact .of_region hspan
    | @cons y y' _ _ hy h =>
      cases h with
      | nil =>
        simp only [reduceHandle, hx.entry, hy.entry]
        split
        · exact .ok _
        · exact .of_region (hy.region (hstart y (by simp)))
        · exact .of_region hspan
      | @cons z z' _ _ hz h =>
        cases h with
        | nil =>
          simp only [reduceHandle, hx.entry, hy.entry, hz.entry]
          split
          · exact .ok _
          · exact .of_region hspan
        | cons => exact .of_region hspan

/-- **Where a run ends, one on a view that is the same ends in the same way.** -/
theorem SameView.halt {limit : Nat} {v w : View ν} {r : Except ParseError (Expr ν)}
    (hv : SameView es v w) (h : Halt limit v r) : ∃ r', Halt limit w r' ∧ SameOutcome es r r' := by
  obtain ⟨st', rs'⟩ := w
  obtain ⟨hstack, hstream⟩ := hv
  have hactive := hstack.fromActive
  have hoperands := hstack.operands
  cases h with
  | unreadable =>
    cases hstream with
    | cons hr hrs =>
      cases hr with
      | error herr => exact ⟨_, .unreadable, .error herr⟩
  | overflow htop hprec hfull =>
    obtain ⟨s', rs'', rfl, hs, -⟩ := hstream.exists_symbol
    rw [htop] at hactive
    obtain ⟨top', lower', htop', htop₂, -⟩ := hactive.exists_cons
    have hregion := hs.region
      (Parser.isEnd_of_precedence_le (Parser.isReduced_of_fromActive htop) hprec)
    refine ⟨_, .overflow htop' ?_ ?_, .of_region hregion⟩
    · rwa [htop₂.precedence_eq, hs.kind]
    · rwa [← hstack.length_eq]
  | contents htop hs hcontents =>
    obtain ⟨s', rs'', rfl, hs', -⟩ := hstream.exists_symbol
    rw [htop] at hactive
    obtain ⟨openSpan', lower', htop', hopen, -⟩ := hactive.exists_entry (by simp)
    refine ⟨_, .contents htop' (hs'.kind.trans hs) (hoperands.length_eq ▸ hcontents), ?_⟩
    exact .of_region (hopen.through (hs'.region (by rw [hs]; rfl)))
  | unopened htop hs =>
    obtain ⟨s', rs'', rfl, hs', -⟩ := hstream.exists_symbol
    rw [htop] at hactive
    obtain ⟨⟨entry, span'⟩, lower', htop', htop₂, -⟩ := hactive.exists_cons
    obtain rfl : entry = .start := htop₂.entry
    exact ⟨_, .unopened htop' (hs'.kind.trans hs), .of_region (hs'.region (by rw [hs]; rfl))⟩
  | answer hs =>
    obtain ⟨s', rs'', rfl, hs', -⟩ := hstream.exists_symbol
    obtain ⟨span', _, rfl, hspan, hrest⟩ := hstack.exists_entry (by simp)
    obtain ⟨⟨entry, startSpan'⟩, lower', rfl, hstart, hlower⟩ := hrest.exists_cons
    obtain rfl : entry = .start := hstart.entry
    cases hlower
    exact ⟨_, .answer (hs'.kind.trans hs), .ok _⟩
  | @leftover st _ _ _ _ _ htop hs hmore hne =>
    obtain ⟨s', rs'', rfl, hs', -⟩ := hstream.exists_symbol
    rw [htop] at hactive
    obtain ⟨⟨entry, startSpan'⟩, lower', htop', hstart, hlower⟩ := hactive.exists_cons
    obtain rfl : entry = .start := hstart.entry
    cases hlower
    rw [hmore] at hoperands
    obtain ⟨first', more', hmore', -, hsame⟩ := hoperands.exists_concat
    have hne' : more' ≠ [] := by
      rintro rfl
      exact hne (List.forall₂_nil_right_iff.mp hsame)
    refine ⟨_, .leftover htop' (hs'.kind.trans hs) hmore' hne', .of_region (hsame.span hne ?_)⟩
    intro x hx
    have hmem : x ∈ st.operands := hmore ▸ List.mem_append_left _ hx
    exact Stack.entry_ne_start hmem
  | empty hs =>
    obtain ⟨s', rs'', rfl, hs', -⟩ := hstream.exists_symbol
    obtain ⟨⟨entry, startSpan'⟩, lower', rfl, hstart, hlower⟩ := hstack.exists_cons
    obtain rfl : entry = .start := hstart.entry
    cases hlower
    exact ⟨_, .empty (hs'.kind.trans hs), .error ⟨.refl _, hs'.place⟩⟩
  | handle htop hbase hstart hclose hprec hhandle =>
    obtain ⟨s', rs'', rfl, hs, -⟩ := hstream.exists_symbol
    rw [htop] at hactive
    obtain ⟨top', lower', htop', htop₂, hlower⟩ := hactive.exists_cons
    have hbelow := hlower.fromActive
    rw [hbase] at hbelow
    obtain ⟨x', base', hbase', -, -⟩ := hbelow.exists_cons
    have hsame := Parser.reduceHandle_same
      (List.rel_append hoperands (.cons htop₂ hlower.operands)) (by simp) ?_
    · rw [hhandle] at hsame
      generalize hhandle' : Parser.reduceHandle _ = r' at hsame
      cases hsame with
      | error herr =>
        refine ⟨_, .handle htop' hbase' ?_ ?_ ?_ hhandle', .error herr⟩
        · rwa [htop₂.entry]
        · rwa [hs.kind, htop₂.entry]
        · rwa [hs.kind, htop₂.precedence_eq]
    · intro x hx
      rcases List.mem_append.mp hx with hx | hx
      · exact Stack.entry_ne_start (hx)
      · rcases List.mem_cons.mp hx with rfl | hx
        · exact hstart
        · exact Stack.entry_ne_start (hx)

/-! ## 4. Respelled formulas -/

/-- **Letter case and optional blanks do not matter.**  Let a formula be respelled: the case of
letters changed, blanks added between tokens and at the ends, and blanks added behind the prefix
`arc` of longer names that stand behind no lone `arc`.  Then both texts stand for the same
expression, or both are refused for the same reason, at the same characters. -/
theorem Expr.parseWithin_respelled [Literal ν] {source : String} {es : List Edit} (limit : Nat)
    (h : Respells false (Token.tokenize source) es) :
    SameOutcome es (parseWithin limit source : Except _ (Expr ν))
      (parseWithin limit (String.ofList (Edit.new es))) := by
  obtain ⟨evs, v, htransitions, hhalt⟩ :=
    parseWithin_eq_iff.mp (Eq.refl (parseWithin (ν := ν) limit source))
  have hview : SameView es (Parser.ofSource source limit : Parser ν).view
      (Parser.ofSource (String.ofList (Edit.new es)) limit).view :=
    ⟨.cons ⟨rfl, fun h => absurd rfl h⟩ .nil, h.results⟩
  obtain ⟨evs', w, htransitions', hsame⟩ := hview.transitions htransitions
  obtain ⟨r', hhalt', houtcome⟩ := hsame.halt hhalt
  rwa [parseWithin_eq_iff.mpr ⟨evs', w, htransitions', hhalt'⟩]

/-- A function keyword that is cut in two and written in another case. -/
theorem Expr.parseWithin_respelled_arcSin :
    let es : List Edit := Edit.keeps ['a', 'r', 'c'] ['A', 'R', 'C'] ++ [' '].map .add ++
      Edit.keeps ['s', 'i', 'n'] ['S', 'i', 'n'] ++ (Edit.keeps ['('] ['('] ++ .add ' ' ::
        (Edit.keeps ['x'] ['X'] ++ (Edit.keeps [')'] [')'] ++ [])))
    Respells false (Token.tokenize "arcsin(x)") es ∧
      parseWithin 100 "ARC Sin( X)" =
        (.ok (.call .arcSin (.param ⟨23⟩)) : Except ParseError (Expr Float)) := by
  intro es
  have htokens : Token.tokenize "arcsin(x)" =
      [⟨.name, ⟨0, 6⟩, ['a', 'r', 'c', 's', 'i', 'n']⟩, ⟨.openParen, ⟨6, 7⟩, ['(']⟩,
        ⟨.name, ⟨7, 8⟩, ['x']⟩, ⟨.closeParen, ⟨8, 9⟩, [')']⟩] := by
    decide +kernel
  have h : Respells false (Token.tokenize "arcsin(x)") es := by
    rw [htokens]
    exact .split rfl rfl (by decide) (by decide) (by decide) (by decide)
      (List.forall_mem_singleton.mpr rfl) (by decide)
      (.token (by decide) (.blank (by decide) (.token (by decide) (.token (by decide) .done))))
  have hsource : parseWithin 100 "arcsin(x)" =
      (.ok (.call .arcSin (.param ⟨23⟩)) : Except ParseError (Expr Float)) := by
    cbv
  have hsame := parseWithin_respelled (ν := Float) 100 h
  have hnew : String.ofList (Edit.new es) = "ARC Sin( X)" := by
    decide +kernel
  rw [hsource, hnew] at hsame
  exact ⟨h, hsame.eq_ok⟩

end SymbolicCalculus
