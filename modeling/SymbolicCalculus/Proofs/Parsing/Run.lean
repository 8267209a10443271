/-
# Runs of the parser

A run is a chain of transitions followed by one step that ends it.  `Parser.run_of_transitions` says
that a run follows every chain that starts in its view, so that it is enough to know where a chain
leads; `Parser.transitions_of_run` that it does nothing else, so that what transitions preserve
holds in every state of a run.
-/
import SymbolicCalculus.Proofs.Parsing.Transition

namespace SymbolicCalculus

universe u

variable {ν : Type u}

/-! ## 1. Chains of transitions -/

/-- Chains of transitions, with the events of their steps. -/
inductive Transitions (limit : Nat) : View ν → List (ParserEvent ν) → View ν → Prop where
  | refl (v : View ν) : Transitions limit v [] v
  | head {v v' v'' : View ν} {ev : Option (ParserEvent ν)} {evs : List (ParserEvent ν)}
      (h : Transition limit v ev v') (hs : Transitions limit v' evs v'') :
      Transitions limit v (ev.toList ++ evs) v''

namespace Transitions

variable {limit : Nat} {v v' v'' : View ν} {ev : Option (ParserEvent ν)}
  {evs evs' : List (ParserEvent ν)}

theorem trans (h : Transitions limit v evs v') (h' : Transitions limit v' evs' v'') :
    Transitions limit v (evs ++ evs') v'' := by
  induction h with
  | refl v => exact h'
  | head h _ ih =>
    rw [List.append_assoc]
    exact .head h (ih h')

theorem single (h : Transition limit v ev v') : Transitions limit v ev.toList v' := by
  simpa using head h (refl v')

/-- What every transition preserves holds wherever a chain leads. -/
theorem preserves {Inv : View ν → Prop}
    (step : ∀ {v ev v'}, Transition limit v ev v' → Inv v → Inv v')
    (h : Transitions limit v evs v') (hv : Inv v) : Inv v' := by
  induction h with
  | refl v => exact hv
  | head h _ ih => exact ih (step h hv)

end Transitions

/-! ## 2. Runs are chains of transitions -/

namespace Parser

variable [Literal ν] {p p' : Parser ν}

theorem run_of_step_done {ev : Option (ParserEvent ν)} {r : Except ParseError (Expr ν)}
    (h : p.step = (ev, .done r)) : p.run = (ev.toList, r) := by
  rw [run]
  split
  · next ev' r' h' =>
    rw [h] at h'
    obtain ⟨rfl, rfl⟩ : ev = ev' ∧ r = r' := by simpa using h'
    rfl
  · next h' => rw [h] at h'; exact absurd h' (by simp)

theorem run_of_step_next {ev : Option (ParserEvent ν)} (h : p.step = (ev, .next p')) :
    p.run = (ev.toList ++ p'.run.1, p'.run.2) := by
  rw [run]
  split
  · next h' => rw [h] at h'; exact absurd h' (by simp)
  · next ev' p'' h' =>
    rw [h] at h'
    obtain ⟨rfl, rfl⟩ : ev = ev' ∧ p' = p'' := by simpa using h'
    rfl

/-- **A run follows every chain of transitions**, and goes on from where the chain leads. -/
theorem run_of_transitions {v v' : View ν} {evs : List (ParserEvent ν)}
    (h : Transitions p.limit v evs v') (hv : p.view = v) :
    ∃ p' : Parser ν, p'.view = v' ∧ p'.limit = p.limit ∧
      p.run = (evs ++ p'.run.1, p'.run.2) := by
  generalize hl : p.limit = limit at h ⊢
  induction h generalizing p with
  | refl v => exact ⟨p, hv, hl, rfl⟩
  | head h _ ih =>
    subst hl hv
    obtain ⟨q, hstep, hq, hlimit⟩ := step_of_transition h
    obtain ⟨r, hr, hrlimit, hrun⟩ := ih hq hlimit
    refine ⟨r, hr, hrlimit, ?_⟩
    rw [run_of_step_next hstep, hrun, List.append_assoc]

/-- **Every run is a chain of transitions**, and the step that ends it. -/
theorem transitions_of_run (p : Parser ν) :
    ∃ (p' : Parser ν) (evs : List (ParserEvent ν)) (ev : Option (ParserEvent ν)),
      Transitions p.limit p.view evs p'.view ∧ p'.limit = p.limit ∧
      p'.step = (ev, .done p.run.2) ∧ p.run.1 = evs ++ ev.toList := by
  induction p using run.induct with
  | case1 p ev r h => exact ⟨p, [], ev, .refl _, rfl, by rw [run_of_step_done h, h], by
      rw [run_of_step_done h]; rfl⟩
  | case2 p ev p' h _ ih =>
    obtain ⟨q, evs, ev', hs, hlimit, hdone, hevs⟩ := ih
    obtain ⟨ht, hl⟩ := transition_of_step h
    rw [hl] at hs hlimit
    refine ⟨q, ev.toList ++ evs, ev', .head ht hs, hlimit, ?_, ?_⟩
    · rw [hdone, run_of_step_next h]
    · rw [run_of_step_next h, List.append_assoc, hevs]

end Parser

end SymbolicCalculus
