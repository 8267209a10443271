/-
# The stream of symbols

A lexer is read through one view of it: `Lexer.results`, everything that reading still gives up to
the end symbol.  Reading takes the head off the stream (`results_of_next`), an error too
(`results_of_next_error`), and handing the symbol just read back restores it (`results_unget`).

A stream is *clean* if reading raises no error.  Then it consists of the symbols of the formula and
the end symbol (`results_of_isClean`).
-/
import Mathlib
import SymbolicCalculus.Lexer

namespace SymbolicCalculus

universe u

variable {ν : Type u}

theorem SymbolKind.eq_endOfInput_of_isEnd {k : SymbolKind ν} (h : k.isEnd = true) :
    k = .endOfInput := by
  cases k <;> simp_all [isEnd]

namespace Lexer

variable [Literal ν] {l l' : Lexer ν} {s : Symbol ν}

/-! ## 1. Reading and handing back -/

/-- Behind the end symbol there is nothing. -/
theorem results_of_next_end (h : l.next = (.ok s, l')) (he : s.kind.isEnd = true) :
    l.results = [.ok s] := by
  rw [results]
  split
  · next e l₁ h₁ => rw [h] at h₁; exact absurd h₁ (by simp)
  · next s₁ l₁ h₁ =>
    rw [h] at h₁
    obtain ⟨rfl, rfl⟩ : s = s₁ ∧ l' = l₁ := by simpa using h₁
    exact dif_pos he

/-- Reading takes a symbol off the stream. -/
theorem results_of_next (h : l.next = (.ok s, l')) (he : s.kind.isEnd = false) :
    l.results = .ok s :: l'.results := by
  rw [results]
  split
  · next e l₁ h₁ => rw [h] at h₁; exact absurd h₁ (by simp)
  · next s₁ l₁ h₁ =>
    rw [h] at h₁
    obtain ⟨rfl, rfl⟩ : s = s₁ ∧ l' = l₁ := by simpa using h₁
    exact dif_neg (by simp [he])

/-- Reading takes an error off the stream. -/
theorem results_of_next_error {e : ParseError} (h : l.next = (.error e, l')) :
    l.results = .error e :: l'.results := by
  rw [results]
  split
  · next e₁ l₁ h₁ =>
    rw [h] at h₁
    obtain ⟨rfl, rfl⟩ : e = e₁ ∧ l' = l₁ := by simpa using h₁
    rfl
  · next s₁ l₁ h₁ => rw [h] at h₁; exact absurd h₁ (by simp)

/-- A symbol that is handed back is read next, and nothing else changes. -/
theorem next_unget (h : l.next = (.ok s, l')) : (l'.unget s).next = (.ok s, l') := by
  have hheld : l'.held = none := by simpa [h] using l.next_held
  cases l' with
  | mk tokens length expectsOperand held => simp_all [unget, next]

/-- Handing back the symbol just read restores the stream. -/
theorem results_unget (h : l.next = (.ok s, l')) : (l'.unget s).results = l.results := by
  cases he : s.kind.isEnd with
  | true => rw [results_of_next_end h he, results_of_next_end (next_unget h) he]
  | false => rw [results_of_next h he, results_of_next (next_unget h) he]

/-- The head of the stream is what is read next. -/
theorem next_of_results {rest : List (Except ParseError (Symbol ν))}
    (h : l.results = .ok s :: rest) :
    ∃ l', l.next = (.ok s, l') ∧ (s.kind.isEnd = false → l'.results = rest) := by
  cases hn : l.next with
  | mk r l' =>
    cases r with
    | error e => rw [results_of_next_error hn] at h; exact absurd h (by simp)
    | ok s' =>
      cases he : s'.kind.isEnd with
      | true =>
        rw [results_of_next_end hn he] at h
        obtain ⟨rfl, -⟩ : s' = s ∧ [] = rest := by simpa using h
        exact ⟨l', rfl, fun hc => absurd he (by simp [hc])⟩
      | false =>
        rw [results_of_next hn he] at h
        obtain ⟨rfl, hrest⟩ : s' = s ∧ l'.results = rest := by simpa using h
        exact ⟨l', rfl, fun _ => hrest⟩

/-- A symbol that is read is the head of the stream. -/
theorem exists_results_of_next (h : l.next = (.ok s, l')) : ∃ rest, l.results = .ok s :: rest := by
  cases he : s.kind.isEnd with
  | true => exact ⟨[], results_of_next_end h he⟩
  | false => exact ⟨_, results_of_next h he⟩

/-! ## 2. Clean streams -/

/-- The symbols that reading gives before the end of the formula, going on behind each error. -/
def symbols (l : Lexer ν) : List (Symbol ν) :=
  l.results.filterMap fun
    | .ok s => if s.kind.isEnd then none else some s
    | .error _ => none

theorem mem_results_of_mem_symbols (h : s ∈ l.symbols) : .ok s ∈ l.results := by
  obtain ⟨r, hr, hs⟩ := List.mem_filterMap.mp h
  cases r with
  | error e => exact absurd hs (by simp)
  | ok t =>
    obtain ⟨-, rfl⟩ : t.kind.isEnd = false ∧ t = s := by simpa using hs
    exact hr

/-- Reading up to the end of the formula raises no error. -/
def IsClean (l : Lexer ν) : Prop := ∀ e, .error e ∉ l.results

theorem isClean_of_all (h : l.results.all Except.isOk = true) : l.IsClean := by
  intro e he
  exact absurd (List.all_eq_true.mp h _ he) (by simp [Except.isOk, Except.toBool])

/-- **A clean stream is the symbols of the formula and the end symbol.** -/
theorem results_of_isClean (l : Lexer ν) (h : l.IsClean) :
    ∃ s : Symbol ν, s.kind = .endOfInput ∧ l.results = l.symbols.map .ok ++ [.ok s] := by
  cases hn : l.next with
  | mk r l' =>
    cases r with
    | error e =>
      refine absurd ?_ (h e)
      rw [results_of_next_error hn]
      exact List.mem_cons_self
    | ok s =>
      cases he : s.kind.isEnd with
      | true =>
        have hr := results_of_next_end hn he
        exact ⟨s, SymbolKind.eq_endOfInput_of_isEnd he, by simp [symbols, hr, he]⟩
      | false =>
        have hr := results_of_next hn he
        have hlt : l'.pending < l.pending := by
          have := next_pending hn
          rw [he] at this
          simp only [Bool.false_eq_true, if_false] at this
          omega
        have hclean : l'.IsClean := fun e hmem =>
          h e (by rw [hr]; exact List.mem_cons_of_mem _ hmem)
        obtain ⟨t, ht, hrest⟩ := l'.results_of_isClean hclean
        refine ⟨t, ht, ?_⟩
        have hsym : l.symbols = s :: l'.symbols := by simp [symbols, hr, he]
        rw [hr, hsym, hrest]
        rfl
termination_by l.pending

/-- A stream of symbols that ends with the first end symbol is clean. -/
theorem isClean_of_results {ss : List (Symbol ν)} (he : s.kind = .endOfInput)
    (hss : ∀ t ∈ ss, t.kind.isEnd = false) (h : l.results = ss.map .ok ++ [.ok s]) :
    l.IsClean ∧ l.symbols = ss := by
  refine ⟨by simp [IsClean, h], ?_⟩
  rw [symbols, h, List.filterMap_append, List.filterMap_map]
  have hend : s.kind.isEnd = true := by rw [he]; rfl
  simp only [List.filterMap_cons, List.filterMap_nil, hend, if_true, List.append_nil]
  refine (List.filterMap_congr (g := some) fun t ht => ?_).trans List.filterMap_some
  simp [hss t ht]

end Lexer

end SymbolicCalculus
