/-
# Handing symbols back

Whoever uses a lexer may hand the symbol that it returned last back to it, to have it read again.  A
`Session` is such a use: it keeps the lexer, the symbol that was returned last, and whether that
symbol has been handed back.

Seen from the stream, handing back is a stutter: it changes nothing but what the lexer holds
(`Session.settled_unget`), the reading that delivers the symbol again undoes it
(`Session.IsConsistent.settled_again`), and every other reading goes on as if nothing had been
handed back (`Session.IsConsistent.settled_next`).  So the readings of a session, without those that
deliver a symbol again, are those of a lexer that is read straight on (`Session.fresh_answers`):
its results, and then the end of the formula again and again (`Lexer.reads_results_length_add`).
-/
import SymbolicCalculus.Binary64
import SymbolicCalculus.Proofs.Lexing.Readings

namespace SymbolicCalculus

universe u

variable {ν : Type u}

/-! ## 1. Reading straight on -/

namespace Lexer

variable [Literal ν]

/-- What the next readings give, if nothing is handed back; past the end of the formula too. -/
def reads : Lexer ν → Nat → List (Except ParseError (Symbol ν))
  | _, 0 => []
  | l, n + 1 => l.next.1 :: l.next.2.reads n

/-- Reading does not move the end of the formula. -/
theorem next_length (l : Lexer ν) : l.next.2.length = l.length := by
  unfold next
  split
  · rfl
  · split
    · rfl
    · split <;> rfl

/-- Behind the end of the formula there is its end symbol, again and again. -/
theorem reads_of_tokens_eq_nil {l : Lexer ν} (htokens : l.tokens = []) (hheld : l.held = none)
    (n : Nat) : l.reads n = List.replicate n (.ok l.endSymbol) := by
  have hnext : l.next = (.ok l.endSymbol, l) := by
    cases l with
    | mk tokens length expectsOperand held => simp_all [next, Token.nextSolid?]
  induction n with
  | zero => rfl
  | succ n ih => rw [reads, hnext, ih, List.replicate_succ]

/-- **Reading straight on gives the results of the lexer, and then its end again and again.** -/
theorem reads_results_length_add (l : Lexer ν) (hheld : l.held = none) (n : Nat) :
    l.reads (l.results.length + n) = l.results ++ List.replicate n (.ok l.endSymbol) := by
  induction l using results.induct with
  | case1 l e l' hn _ ih =>
    have hheld' : l'.held = none := by simpa [hn] using l.next_held
    have hlength : l'.length = l.length := by simpa [hn] using l.next_length
    rw [results_of_next_error hn, List.length_cons, Nat.add_right_comm, reads, hn, ih hheld',
      endSymbol, endSymbol, hlength]
    rfl
  | case2 l s l' hn _ hend =>
    rcases next_eq_reading l hheld with ⟨-, hnext⟩ | ⟨r, rest, -, hnext⟩
    · obtain ⟨hs, rfl⟩ := Prod.mk.inj (hn.symm.trans hnext)
      have hrest := reads_of_tokens_eq_nil (l := { l with tokens := [] }) rfl hheld n
      rw [results_of_next_end hn hend, List.length_singleton, Nat.add_comm, reads, hn]
      exact congrArg₂ List.cons rfl hrest
    · have := Token.Reading.isEnd_of_read (Prod.mk.inj (hn.symm.trans hnext)).1.symm
      exact absurd hend (by simp [this])
  | case3 l s l' hn _ hend _ ih =>
    have hheld' : l'.held = none := by simpa [hn] using l.next_held
    have hlength : l'.length = l.length := by simpa [hn] using l.next_length
    rw [results_of_next hn (by simpa using hend), List.length_cons, Nat.add_right_comm, reads, hn,
      ih hheld', endSymbol, endSymbol, hlength]
    rfl

end Lexer

/-! ## 2. Sessions -/

/-- A call of a lexer. -/
inductive Call (ν : Type u) where
  /-- A symbol is read. -/
  | next
  /-- A symbol is handed back. -/
  | unget (s : Symbol ν)

/-- What a reading gives. -/
structure Answer (ν : Type u) where
  result : Except ParseError (Symbol ν)
  /-- Whether a symbol was handed back since the reading before. -/
  again : Bool

/-- The symbol of the answer, if it is not an error. -/
def Answer.symbol? (a : Answer ν) : Option (Symbol ν) := a.result.toOption

/-- A lexer in use. -/
structure Session (ν : Type u) where
  lexer : Lexer ν
  /-- The symbol that was returned last. -/
  latest : Option (Symbol ν)
  /-- Whether a symbol has been handed back since the last reading. -/
  back : Bool

namespace Session

/-- The session in front of a formula. -/
def ofSource (source : String) : Session ν := ⟨.ofSource source, none, false⟩

/-- Whether the call may be made: a symbol is handed back only if it is the one that was returned
last, and only if none is held. -/
def Permits (x : Session ν) : Call ν → Prop
  | .next => True
  | .unget s => x.latest = some s ∧ x.back = false

section Calls

variable [Literal ν]

/-- The answer to the next reading. -/
def answer (x : Session ν) : Answer ν := ⟨x.lexer.next.1, x.back⟩

/-- The session behind a call. -/
def after (x : Session ν) : Call ν → Session ν
  | .next => ⟨x.lexer.next.2, x.answer.symbol?.or x.latest, false⟩
  | .unget s => ⟨x.lexer.unget s, x.latest, true⟩

/-- Whether the calls may be made one after the other. -/
def PermitsAll : Session ν → List (Call ν) → Prop
  | _, [] => True
  | x, c :: cs => x.Permits c ∧ (x.after c).PermitsAll cs

/-- The answers to the readings among the calls. -/
def answers : Session ν → List (Call ν) → List (Answer ν)
  | _, [] => []
  | x, .next :: cs => x.answer :: (x.after .next).answers cs
  | x, .unget s :: cs => (x.after (.unget s)).answers cs

end Calls

/-- The results that are no symbols delivered again. -/
def fresh (as : List (Answer ν)) : List (Except ParseError (Symbol ν)) :=
  (as.filter (!·.again)).map Answer.result

/-! ## 3. What a call changes -/

/-- The lexer as if nothing had been handed back. -/
def settled (x : Session ν) : Lexer ν := { x.lexer with held := none }

/-- The lexer holds the symbol that was returned last if that has been handed back, and nothing
otherwise. -/
structure IsConsistent (x : Session ν) : Prop where
  of_back : x.back = true → ∃ s, x.latest = some s ∧ x.lexer.held = some s
  of_not_back : x.back = false → x.lexer.held = none

theorem isConsistent_ofSource (source : String) : (ofSource source : Session ν).IsConsistent :=
  ⟨nofun, fun _ => rfl⟩

section Steps

variable [Literal ν] {x : Session ν}

/-- Handing a symbol back changes nothing but what is held. -/
theorem settled_unget (x : Session ν) (s : Symbol ν) :
    (x.after (.unget s)).settled = x.settled := rfl

namespace IsConsistent

/-- Reading behind a symbol that was handed back delivers it, and nothing else changes. -/
theorem settled_again (hx : x.IsConsistent) (hback : x.back = true) :
    (∃ s, x.latest = some s ∧ x.answer.result = .ok s) ∧
      (x.after .next).settled = x.settled := by
  obtain ⟨s, hlatest, hheld⟩ := hx.of_back hback
  constructor
  · exact ⟨s, hlatest, by simp [answer, Lexer.next, hheld]⟩
  · simp [Session.after, settled, Lexer.next, hheld]

/-- Any other reading is one of the settled lexer. -/
theorem settled_next (hx : x.IsConsistent) (hback : x.back = false) :
    x.answer.result = x.settled.next.1 ∧ (x.after .next).settled = x.settled.next.2 := by
  have hsettled : x.settled = x.lexer := by
    rw [settled, ← hx.of_not_back hback]
  have hnext : x.lexer.next.2.held = none := x.lexer.next_held
  constructor
  · rw [hsettled]
    rfl
  · rw [hsettled, settled, Session.after, ← hnext]

/-- **Behind a call that is permitted a session is consistent.** -/
theorem of_permits {c : Call ν} (hc : x.Permits c) : (x.after c).IsConsistent := by
  cases c with
  | next =>
    constructor
    · intro hback
      exact absurd hback Bool.false_ne_true
    · intro _
      exact x.lexer.next_held
  | unget s =>
    constructor
    · intro _
      exact ⟨s, hc.1, rfl⟩
    · intro hback
      exact absurd hback.symm Bool.false_ne_true

end IsConsistent

/-! ## 4. What a session gives -/

/-- **Dropping what is delivered again leaves the readings of the settled lexer.** -/
theorem IsConsistent.fresh_eq_reads (hx : x.IsConsistent) {cs : List (Call ν)}
    (h : x.PermitsAll cs) :
    fresh (x.answers cs) = x.settled.reads (fresh (x.answers cs)).length := by
  induction cs generalizing x with
  | nil => rfl
  | cons c cs ih =>
    obtain ⟨hc, hcs⟩ := h
    have hrest := ih (.of_permits hc) hcs
    cases c with
    | unget s => rwa [settled_unget] at hrest
    | next =>
      cases hback : x.back with
      | true =>
        have hfresh : fresh (x.answers (.next :: cs)) = fresh ((x.after .next).answers cs) := by
          simp [answers, fresh, answer, hback]
        rw [hfresh]
        rwa [(hx.settled_again hback).2] at hrest
      | false =>
        have hfresh : fresh (x.answers (.next :: cs)) =
            x.answer.result :: fresh ((x.after .next).answers cs) := by
          simp [answers, fresh, answer, hback]
        obtain ⟨hresult, hsettled⟩ := hx.settled_next hback
        rw [hsettled] at hrest
        rw [hfresh, List.length_cons, Lexer.reads, ← hresult, ← hrest]

/-- What is delivered again is the symbol that was returned last. -/
theorem IsConsistent.again_eq_latest (hx : x.IsConsistent) {cs : List (Call ν)}
    (h : x.PermitsAll cs) {front back : List (Answer ν)} {a : Answer ν}
    (hanswers : x.answers cs = front ++ a :: back) (ha : a.again = true) :
    ∃ s, a.result = .ok s ∧
      (x.latest.toList ++ front.filterMap Answer.symbol?).getLast? = some s := by
  induction cs generalizing x front with
  | nil => exact absurd hanswers (by simp [answers])
  | cons c cs ih =>
    obtain ⟨hc, hcs⟩ := h
    cases c with
    | unget s => exact ih (.of_permits hc) hcs hanswers
    | next =>
      rw [answers] at hanswers
      cases front with
      | nil =>
        obtain ⟨rfl, -⟩ := List.cons.inj hanswers
        obtain ⟨⟨s, hlatest, hresult⟩, -⟩ := hx.settled_again ha
        exact ⟨s, hresult, by simp [hlatest]⟩
      | cons b front =>
        obtain ⟨rfl, hrest⟩ := List.cons.inj hanswers
        obtain ⟨s, hresult, hlast⟩ := ih (.of_permits hc) hcs hrest
        refine ⟨s, hresult, ?_⟩
        rw [← hlast, Session.after]
        cases hsymbol : x.answer.symbol? with
        | none => simp [hsymbol]
        | some t => simp [hsymbol, List.getLast?_cons]

end Steps

variable [Literal ν]

/-- **Handing symbols back is invisible to the stream.**  Let the calls of a lexer hand back nothing
but the symbol that was returned last, and none while one is held.  Then every symbol that is
delivered again is the one returned last, and without these the answers are what a lexer gives that
is read straight on: the same symbols, with the same kinds and regions, and the same errors, in the
same order, and the end of the formula as often as it is read. -/
theorem fresh_answers {source : String} {cs : List (Call ν)}
    (h : (ofSource source).PermitsAll cs) :
    let as := (ofSource source).answers cs
    fresh as = (Lexer.ofSource source).reads (fresh as).length ∧
      ∀ (front : List (Answer ν)) (a : Answer ν) (back : List (Answer ν)),
        as = front ++ a :: back → a.again = true →
        ∃ s, a.result = .ok s ∧ (front.filterMap Answer.symbol?).getLast? = some s := by
  intro as
  have hx := isConsistent_ofSource (ν := ν) source
  constructor
  · exact hx.fresh_eq_reads h
  · intro front a back hsplit ha
    exact hx.again_eq_latest h hsplit ha

/-- The minus sign behind an error, which itself stands behind a parameter that is read again. -/
theorem fresh_answers_error_sub :
    let a : Symbol Float := ⟨.param ⟨0⟩, ⟨0, 1⟩⟩
    let sub : Symbol Float := ⟨.binary .sub, ⟨2, 3⟩⟩
    let cs : List (Call Float) :=
      [.next, .next, .unget a, .next, .next, .unget sub, .next, .next, .next]
    (ofSource "a$-b").PermitsAll cs ∧
      fresh ((ofSource "a$-b").answers cs) = (Lexer.ofSource "a$-b").reads 5 := by
  intro a sub cs
  have hpermits : (ofSource "a$-b").PermitsAll cs := by
    cbv
    exact ⟨⟨rfl, trivial⟩, ⟨rfl, trivial⟩, trivial⟩
  have hlength : (fresh ((ofSource "a$-b").answers cs)).length = 5 := by
    cbv
  refine ⟨hpermits, ?_⟩
  rw [(fresh_answers hpermits).1, hlength]

end Session

end SymbolicCalculus
