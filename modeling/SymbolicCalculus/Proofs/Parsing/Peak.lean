/-
# How high the stack grows

`Parser.peak` is the largest number of entries, the sentinel counted, that the stack holds in a
state of a run.  It stays below the capacity (`Parser.peak_lt`): a push that would bring the stack
up to its capacity ends the run.  So a stack that overflows under a formula is one of a capacity up
to the peak that the formula has with ample room, and not only one of a capacity below it
(`Expr.overflows_parseWithin_iff`).
-/
import SymbolicCalculus.Proofs.Parsing.Limit

namespace SymbolicCalculus

universe u

variable {ν : Type u} [Literal ν]

/-! ## 1. The peak of a run -/

namespace Parser

variable {p p' q : Parser ν} {n : Nat} {ev : Option (ParserEvent ν)}

/-- The largest number of entries that the stack holds in a state of the run. -/
def peak (p : Parser ν) : Nat :=
  match h : p.step with
  | (_, .done _) => p.stack.length
  | (_, .next p') =>
    have := step_size_lt (congrArg Prod.snd h)
    max p.stack.length p'.peak
termination_by p.size

theorem peak_of_step_done {r : Except ParseError (Expr ν)} (h : p.step = (ev, .done r)) :
    p.peak = p.stack.length := by
  rw [peak]
  split
  · rfl
  · next h' => rw [h] at h'; exact absurd h' (by simp)

theorem peak_of_step_next (h : p.step = (ev, .next p')) :
    p.peak = max p.stack.length p'.peak := by
  rw [peak]
  split
  · next h' => rw [h] at h'; exact absurd h' (by simp)
  · next p'' h' =>
    rw [h] at h'
    obtain ⟨-, rfl⟩ : ev = _ ∧ p' = p'' := by simpa using h'
    rfl

theorem length_le_peak (p : Parser ν) : p.stack.length ≤ p.peak := by
  cases h : p.step with
  | mk ev move =>
    cases move with
    | done r => rw [peak_of_step_done h]
    | next p' =>
      rw [peak_of_step_next h]
      exact Nat.le_max_left _ _

/-- The stack of every state of a run is within the peak. -/
theorem Reaches.length_le_peak (h : p.Reaches n q) : q.stack.length ≤ p.peak := by
  suffices q.peak ≤ p.peak from Nat.le_trans q.length_le_peak this
  induction h with
  | refl => exact Nat.le_refl _
  | next _ hstep ih =>
    rw [peak_of_step_next hstep] at ih
    exact Nat.le_trans (Nat.le_max_right _ _) ih

/-- Some state of the run has a stack as high as the peak. -/
theorem exists_reaches_peak (p : Parser ν) :
    ∃ (n : Nat) (q : Parser ν), p.Reaches n q ∧ q.stack.length = p.peak := by
  induction p using peak.induct with
  | case1 p ev r h => exact ⟨0, p, .refl, (peak_of_step_done h).symm⟩
  | case2 p ev p' h _ ih =>
    obtain ⟨n, q, hreach, hpeak⟩ := ih
    rw [peak_of_step_next h]
    rcases Nat.le_total p'.peak p.stack.length with hle | hle
    · exact ⟨0, p, .refl, (Nat.max_eq_left hle).symm⟩
    · exact ⟨n + 1, q, hreach.head h, by rw [hpeak, Nat.max_eq_right hle]⟩

end Parser

omit [Literal ν] in
/-- A transition pushes at most one entry, and only if there is room for it. -/
theorem Transition.length_lt {limit n : Nat} {v v' : View ν} {ev : Option (ParserEvent ν)}
    (h : Transition limit v ev v') (hn : limit ≤ n) (hv : v.1.length < n) : v'.1.length < n := by
  cases h with
  | shift htop hprec hroom => exact Nat.lt_of_lt_of_le hroom hn
  | _ =>
    simp only [List.length_cons] at hv ⊢
    omega

namespace Parser

variable {p q : Parser ν} {n : Nat}

/-- **The stack never reaches its capacity**, unless it starts there. -/
theorem peak_lt (hn : p.limit ≤ n) (hp : p.stack.length < n) : p.peak < n := by
  induction p using peak.induct with
  | case1 p ev r h => rwa [peak_of_step_done h]
  | case2 p ev p' h _ ih =>
    obtain ⟨htransition, hlimit⟩ := transition_of_step h
    have hp' : p'.stack.length < n := htransition.length_lt hn hp
    rw [peak_of_step_next h]
    exact Nat.max_lt.mpr ⟨hp, ih (hlimit ▸ hn) hp'⟩

/-- With more room, a run that does not overflow goes through stacks of the same heights. -/
theorem peak_eq_of_view_eq {source : Stream ν} (hbuilt : Built source p.view)
    (hview : q.view = p.view) (hle : p.limit ≤ q.limit) (hr : ¬Overflows p.run.2) :
    q.peak = p.peak := by
  have hstack : q.stack = p.stack := congrArg Prod.fst hview
  induction p using peak.induct generalizing q with
  | case1 p ev r h =>
    obtain ⟨ss, bound, hviable, -, -⟩ := hbuilt
    have hhalt := halt_of_step hviable.isSound h
    rw [run_of_step_done h] at hr
    have hhalt' : Halt q.limit p.view r := hhalt.of_not_overflows hr
    rw [← hview] at hhalt'
    obtain ⟨ev', h'⟩ := step_of_halt hhalt'
    rw [peak_of_step_done h, peak_of_step_done h', hstack]
  | case2 p ev p' h _ ih =>
    obtain ⟨htransition, hlimit⟩ := transition_of_step h
    have htransition' := htransition.mono hle
    rw [← hview] at htransition'
    obtain ⟨q', h', hview', hlimit'⟩ := step_of_transition htransition'
    rw [run_of_step_next h] at hr
    rw [peak_of_step_next h, peak_of_step_next h', hstack,
      ih (hbuilt.transition htransition) hview' (by omega) hr (congrArg Prod.fst hview')]

/-- A chain of transitions leads through the states of a run. -/
theorem exists_reaches_of_transitions {v v' : View ν} {evs : List (ParserEvent ν)}
    (h : Transitions p.limit v evs v') (hv : p.view = v) :
    ∃ (n : Nat) (q : Parser ν), p.Reaches n q ∧ q.view = v' := by
  generalize hl : p.limit = limit at h
  induction h generalizing p with
  | refl v => exact ⟨0, p, .refl, hv⟩
  | head h _ ih =>
    subst hl hv
    obtain ⟨q, hstep, hq, hlimit⟩ := step_of_transition h
    obtain ⟨n, r, hreach, hr⟩ := ih hq hlimit
    exact ⟨n + 1, r, hreach.head hstep, hr⟩

end Parser

/-! ## 2. Which capacities overflow -/

variable {source : String} {limit : Nat}

/-- If a formula does not overflow a capacity, its stack stays below that capacity whatever room
there is; the sentinel is always there. -/
theorem Parser.peak_ofSource_lt
    (h : ¬Overflows (Expr.parseWithin limit source : Except ParseError (Expr ν))) (room : Nat) :
    (ofSource source room : Parser ν).peak < max limit 2 := by
  have hstart (n : Nat) : (ofSource source n : Parser ν).stack.length < max limit 2 :=
    Nat.lt_of_lt_of_le Nat.one_lt_two (Nat.le_max_right _ _)
  rcases Nat.le_total limit room with hle | hle
  · have hpeak : (ofSource source room : Parser ν).peak = (ofSource source limit).peak :=
      peak_eq_of_view_eq (Built.ofSource source limit) rfl hle h
    rw [hpeak]
    exact peak_lt (Nat.le_max_left limit 2) (hstart limit)
  · exact peak_lt (Nat.le_trans hle (Nat.le_max_left limit 2)) (hstart room)

/-- If a formula overflows a capacity, its stack reaches that capacity where there is ample room. -/
theorem Parser.le_peak_of_overflows
    (h : Overflows (Expr.parseWithin limit source : Except ParseError (Expr ν))) {ample : Nat}
    (hample : (Lexer.ofSource source : Lexer ν).symbols.length + 2 ≤ ample) :
    2 ≤ (ofSource source ample : Parser ν).peak ∧
      limit ≤ (ofSource source ample : Parser ν).peak := by
  have hlt : limit ≤ ample := by
    by_contra hlt
    exact Expr.not_overflows_parseWithin (Nat.le_trans hample (Nat.le_of_not_le hlt)) h
  obtain ⟨evs, st, top, lower, s, rs, htransitions, htop, hprec, hfull, hlength⟩ :=
    Expr.exists_full_of_overflows h
  -- Where the small stack is full, the large one takes the symbol.
  have hpush := (htransitions.mono hlt).trans (.single (.shift htop hprec (by omega)))
  obtain ⟨n, q, hreach, hview⟩ :=
    exists_reaches_of_transitions (p := ofSource source ample) hpush rfl
  have hstack : q.stack = ⟨.active s.kind, s.span⟩ :: st := congrArg Prod.fst hview
  have hpeak := hreach.length_le_peak
  rw [hstack, List.length_cons] at hpeak
  have hpos : 0 < st.length := List.length_pos_iff.mpr fun hnil => by
    rw [hnil] at htop
    exact absurd htop (by simp [Stack.fromActive])
  omega

/-- **A formula overflows exactly the capacities up to its peak.**  With ample room the run goes
through a largest number of entries, the sentinel counted.  Unless nothing at all is pushed, a stack
of just this capacity overflows, and every smaller one; with any larger capacity the result is the
one with ample room. -/
theorem Expr.overflows_parseWithin_iff {ample : Nat}
    (hample : (Lexer.ofSource source : Lexer ν).symbols.length + 2 ≤ ample) (limit : Nat) :
    let peak := (Parser.ofSource source ample : Parser ν).peak
    (Overflows (parseWithin limit source : Except ParseError (Expr ν)) ↔ 2 ≤ peak ∧ limit ≤ peak) ∧
      (peak < limit →
        parseWithin limit source = (parseWithin ample source : Except ParseError (Expr ν))) := by
  intro peak
  have hiff : Overflows (parseWithin limit source : Except ParseError (Expr ν)) ↔
      2 ≤ peak ∧ limit ≤ peak := by
    refine ⟨fun h => Parser.le_peak_of_overflows h hample, fun hpeak => ?_⟩
    by_contra h
    have hlt : peak < max limit 2 := Parser.peak_ofSource_lt h ample
    omega
  refine ⟨hiff, fun hlt => ?_⟩
  have h : ¬Overflows (parseWithin limit source : Except ParseError (Expr ν)) := fun h => by
    have := hiff.mp h
    omega
  rcases Nat.le_total limit ample with hle | hle
  · exact (parseWithin_eq_of_not_overflows hle h).symm
  · exact parseWithin_eq_of_not_overflows hle (not_overflows_parseWithin hample)

/-- A sum with a product in it brings the stack up to six entries, so that it overflows a stack of
six, but not one of seven. -/
theorem Expr.overflows_parseWithin_sum :
    (Lexer.ofSource "a+b*c" : Lexer Float).symbols.length + 2 ≤ 100 ∧
      (Parser.ofSource "a+b*c" 100 : Parser Float).peak = 6 ∧
      Overflows (parseWithin 6 "a+b*c" : Except ParseError (Expr Float)) ∧
      parseWithin 7 "a+b*c" = (parseWithin 100 "a+b*c" : Except ParseError (Expr Float)) := by
  have hample : (Lexer.ofSource "a+b*c" : Lexer Float).symbols.length + 2 ≤ 100 := by
    decide +kernel
  have hpeak : (Parser.ofSource "a+b*c" 100 : Parser Float).peak = 6 := by
    cbv
  refine ⟨hample, hpeak, (overflows_parseWithin_iff hample 6).1.mpr ?_,
    (overflows_parseWithin_iff hample 7).2 ?_⟩
  · rw [hpeak]
    decide
  · rw [hpeak]
    decide

/-- A parameter never needs more than two entries, and all the same it overflows a stack of two. -/
theorem Expr.overflows_parseWithin_param :
    (∀ room n (q : Parser Float), (Parser.ofSource "x" room).Reaches n q → q.stack.length ≤ 2) ∧
      parseWithin 100 "x" = (.ok (.param ⟨23⟩) : Except ParseError (Expr Float)) ∧
      parseWithin 2 "x" =
        (.error ⟨.stackOverflow 2, ⟨0, 1⟩⟩ : Except ParseError (Expr Float)) := by
  have hthree : parseWithin 3 "x" = (.ok (.param ⟨23⟩) : Except ParseError (Expr Float)) := by
    cbv
  have hroom : ¬Overflows (parseWithin 3 "x" : Except ParseError (Expr Float)) := by
    simp [Overflows, hthree]
  refine ⟨fun room n q hreach => ?_, ?_, by cbv⟩
  · exact Nat.le_of_lt_succ
      (Nat.lt_of_le_of_lt hreach.length_le_peak (Parser.peak_ofSource_lt hroom room))
  · exact (parseWithin_eq_of_not_overflows (by decide) hroom).trans hthree

end SymbolicCalculus
