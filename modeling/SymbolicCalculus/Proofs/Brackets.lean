/-
# Brackets

What parentheses do in a formula is seen when everything else is left out: they are a word of
opening and closing brackets.  A word is `Balanced` if it is a Dyck word, that is, if as many
brackets are closed as are opened, and nowhere more.  The brackets of every phrase are balanced
(`Phrase.balanced`).

Two brackets are `Partners` if the word between them is balanced.  Every bracket of a balanced word
has a partner in it (`Bracket.exists_partner`); an opening bracket with a balanced word behind it,
up to the end, has none, and neither has a closing one with a balanced word in front of it
(`Bracket.not_isPaired_of_behind`, `Bracket.not_isPaired_of_front`).
-/
import SymbolicCalculus.Proofs.Grammar

namespace SymbolicCalculus

universe u

variable {ν : Type u}

/-! ## 1. Balanced words -/

/-- As many brackets are closed as are opened, and nowhere more. -/
def Balanced (bs : List DyckStep) : Prop := ∃ w : DyckWord, w.toList = bs

namespace Balanced

variable {as bs : List DyckStep}

theorem nil : Balanced [] := ⟨0, rfl⟩

theorem append (ha : Balanced as) (hb : Balanced bs) : Balanced (as ++ bs) := by
  obtain ⟨v, rfl⟩ := ha
  obtain ⟨w, rfl⟩ := hb
  exact ⟨v + w, rfl⟩

theorem nest (h : Balanced bs) : Balanced (.U :: (bs ++ [.D])) := by
  obtain ⟨w, rfl⟩ := h
  exact ⟨w.nest, rfl⟩

theorem flatten {bss : List (List DyckStep)} (h : ∀ bs ∈ bss, Balanced bs) :
    Balanced bss.flatten := by
  induction bss with
  | nil => exact nil
  | cons bs bss ih =>
    exact (h bs List.mem_cons_self).append (ih fun cs hcs => h cs (List.mem_cons_of_mem bs hcs))

theorem count_eq (h : Balanced bs) : bs.count .U = bs.count .D := by
  obtain ⟨w, rfl⟩ := h
  exact w.count_U_eq_count_D

/-- In front of a balanced word no more brackets are closed than opened. -/
theorem count_le (h : Balanced (as ++ bs)) : as.count .D ≤ as.count .U := by
  obtain ⟨w, hw⟩ := h
  have hle := w.count_D_le_count_U as.length
  rwa [hw, List.take_left] at hle

end Balanced

/-! ## 2. Nesting -/

/-- Nowhere are more than `d` brackets open. -/
def NestedWithin (d : Nat) (bs : List DyckStep) : Prop :=
  ∀ front, front <+: bs → front.count .U ≤ front.count .D + d

instance (d : Nat) (bs : List DyckStep) : Decidable (NestedWithin d bs) :=
  decidable_of_iff (∀ front ∈ bs.inits, front.count .U ≤ front.count .D + d)
    (by simp only [NestedWithin, List.mem_inits])

namespace NestedWithin

variable {d : Nat} {as bs : List DyckStep}

theorem of_append_left (h : NestedWithin d (as ++ bs)) : NestedWithin d as :=
  fun front hfront => h front (hfront.trans (List.prefix_append as bs))

/-- Behind a balanced word nothing is open. -/
theorem of_append_right (ha : Balanced as) (h : NestedWithin d (as ++ bs)) :
    NestedWithin d bs := by
  intro front hfront
  have hle := h (as ++ front) ((List.prefix_append_right_inj as).mpr hfront)
  rw [List.count_append, List.count_append, ha.count_eq] at hle
  omega

/-- Inside a pair of brackets there is one level less. -/
theorem of_nest (h : NestedWithin d (.U :: (bs ++ [.D]))) :
    ∃ d', d = d' + 1 ∧ NestedWithin d' bs := by
  have hopen := h [.U] (by simp)
  simp only [List.count_cons_self, List.count_nil, List.count_singleton, beq_iff_eq,
    reduceCtorEq, if_false] at hopen
  refine ⟨d - 1, by omega, fun front hfront => ?_⟩
  have hle := h (.U :: front)
    ((List.prefix_cons_inj _).mpr (hfront.trans (List.prefix_append bs [.D])))
  simp only [List.count_cons_self, List.count_cons, beq_iff_eq, reduceCtorEq, if_false] at hle
  omega

end NestedWithin

/-! ## 3. The brackets of phrases -/

/-- The bracket that a symbol is, if it is a parenthesis. -/
def SymbolKind.side? : SymbolKind ν → Option DyckStep
  | openParen => some .U
  | closeParen => some .D
  | _ => none

/-- The brackets among symbols. -/
def brackets (ks : List (SymbolKind ν)) : List DyckStep := ks.filterMap SymbolKind.side?

theorem brackets_append (ks ks' : List (SymbolKind ν)) :
    brackets (ks ++ ks') = brackets ks ++ brackets ks' :=
  List.filterMap_append

theorem brackets_parens (ks : List (SymbolKind ν)) :
    brackets (.openParen :: (ks ++ [.closeParen])) = .U :: (brackets ks ++ [.D]) := by
  simp [brackets, SymbolKind.side?]

theorem brackets_call (f : Func) (ks : List (SymbolKind ν)) :
    brackets (.func f :: .openParen :: (ks ++ [.closeParen])) = .U :: (brackets ks ++ [.D]) :=
  brackets_parens ks

theorem brackets_binary (op : BinaryOp) (ks : List (SymbolKind ν)) :
    brackets (.binary op :: ks) = brackets ks := rfl

/-- Without an opening parenthesis nothing is ever open. -/
theorem nestedWithin_zero {ks : List (SymbolKind ν)} (h : .openParen ∉ ks) :
    NestedWithin 0 (brackets ks) := by
  have hnone : .U ∉ brackets ks := by
    intro hmem
    obtain ⟨k, hk, hside⟩ := List.mem_filterMap.mp hmem
    cases k <;> simp_all [SymbolKind.side?]
  intro front hfront
  have hcount : front.count .U = 0 :=
    List.count_eq_zero.mpr fun hmem => hnone (hfront.subset hmem)
  omega

mutual

/-- **The brackets of a phrase are balanced.** -/
theorem Phrase.balanced : {c : Category} → (p : Phrase ν c) → Balanced (brackets p.yield)
  | _, .chain first rest => by
    rw [Phrase.yield, brackets_append]
    exact first.balanced.append rest.balanced
  | _, .neg a => by
    rw [Phrase.yield]
    exact a.balanced
  | _, .ofAtom a => by
    rw [Phrase.yield]
    exact a.balanced
  | _, .number v => by
    rw [Phrase.yield]
    exact .nil
  | _, .param p => by
    rw [Phrase.yield]
    exact .nil
  | _, .paren e => by
    rw [Phrase.yield, brackets_parens]
    exact e.balanced.nest
  | _, .call f e => by
    rw [Phrase.yield, brackets_call]
    exact e.balanced.nest

/-- The brackets of the operations behind an operand are balanced. -/
theorem Rest.balanced : {l : Level} → (r : Rest ν l) → Balanced (brackets r.yield)
  | _, .stop => by
    rw [Rest.yield]
    exact .nil
  | _, .more op hop a rest => by
    rw [Rest.yield, brackets_binary, brackets_append]
    exact a.balanced.append rest.balanced

end

/-! ## 4. Partners -/

/-- Two places in a list are the same, or the second lies in front of the first, or behind it. -/
theorem append_cons_cases {α : Type*} {inside outside front back : List α} {a b : α}
    (h : inside ++ a :: outside = front ++ b :: back) :
    (inside = front ∧ a = b ∧ outside = back) ∨
    (∃ more, inside = front ++ b :: more ∧ back = more ++ a :: outside) ∨
    ∃ more, front = inside ++ a :: more ∧ outside = more ++ b :: back := by
  rcases List.append_eq_append_iff.mp h with ⟨more, rfl, hmore⟩ | ⟨more, rfl, hmore⟩
  · rcases List.cons_eq_append_iff.mp hmore with ⟨rfl, hback⟩ | ⟨more, rfl, rfl⟩
    · obtain ⟨rfl, rfl⟩ := List.cons.inj hback
      exact .inl ⟨by simp, rfl, rfl⟩
    · exact .inr (.inr ⟨more, rfl, rfl⟩)
  · rcases List.cons_eq_append_iff.mp hmore with ⟨rfl, hback⟩ | ⟨more, rfl, rfl⟩
    · obtain ⟨rfl, rfl⟩ := List.cons.inj hback
      exact .inl ⟨by simp, rfl, rfl⟩
    · exact .inr (.inl ⟨more, rfl, rfl⟩)

namespace Balanced

/-- A balanced word that is not empty opens a bracket, closes it again, and goes on. -/
theorem exists_split {bs : List DyckStep} (h : Balanced bs) (hne : bs ≠ []) :
    ∃ inside outside, bs = .U :: (inside ++ .D :: outside) ∧ Balanced inside ∧
      Balanced outside := by
  obtain ⟨w, rfl⟩ := h
  have hsplit : [.U] ++ w.insidePart.toList ++ [.D] ++ w.outsidePart.toList = w.toList :=
    congrArg DyckWord.toList
      (w.nest_insidePart_add_outsidePart (DyckWord.toList_ne_nil.mp hne))
  exact ⟨_, _, by simpa using hsplit.symm, ⟨_, rfl⟩, ⟨_, rfl⟩⟩

/-- In a balanced word every opening bracket is closed behind a balanced word, and every closing
bracket was opened in front of one. -/
theorem exists_partner {front back : List DyckStep} {b : DyckStep}
    (h : Balanced (front ++ b :: back)) :
    (b = .U ∧ ∃ inside rest, back = inside ++ .D :: rest ∧ Balanced inside) ∨
    (b = .D ∧ ∃ rest inside, front = rest ++ .U :: inside ∧ Balanced inside) := by
  obtain ⟨inside, outside, hsplit, hin, hout⟩ := h.exists_split (by simp)
  rcases List.append_eq_cons_iff.mp hsplit with ⟨rfl, hback⟩ | ⟨front, rfl, hfront⟩
  · obtain ⟨rfl, rfl⟩ := List.cons.inj hback
    exact .inl ⟨rfl, inside, outside, rfl, hin⟩
  · rcases append_cons_cases hfront with ⟨rfl, rfl, rfl⟩ | ⟨more, rfl, rfl⟩ | ⟨more, rfl, rfl⟩
    · exact .inr ⟨rfl, [], inside, rfl, hin⟩
    · rcases hin.exists_partner with
        ⟨rfl, inner, rest, rfl, hinner⟩ | ⟨rfl, rest, inner, rfl, hinner⟩
      · exact .inl ⟨rfl, inner, rest ++ .D :: outside, by simp, hinner⟩
      · exact .inr ⟨rfl, .U :: rest, inner, by simp, hinner⟩
    · rcases hout.exists_partner with hopen | ⟨rfl, rest, inner, rfl, hinner⟩
      · exact .inl hopen
      · exact .inr ⟨rfl, .U :: (inside ++ .D :: rest), inner, by simp, hinner⟩
termination_by front.length + back.length

end Balanced

/-- A bracket of a text: the way it faces, and the region where it stands. -/
structure Bracket where
  side : DyckStep
  span : Span
deriving DecidableEq

namespace Bracket

variable {front mid back : List Bracket} {b o c : Bracket}

/-- One of the brackets opens what the other closes: the word between them is balanced. -/
structure Partners (bs : List Bracket) (o c : Bracket) : Prop where
  opens : o.side = .U
  closes : c.side = .D
  between : ∃ front inside back, bs = front ++ o :: (inside ++ c :: back) ∧
    Balanced (inside.map side)

/-- The bracket has a partner. -/
def IsPaired (bs : List Bracket) (b : Bracket) : Prop :=
  ∃ partner, Partners bs b partner ∨ Partners bs partner b

/-- The brackets of a balanced word find their partners in it, whatever stands around it. -/
theorem exists_partner (front back : List Bracket) (h : Balanced (mid.map side)) (hb : b ∈ mid) :
    ∃ partner ∈ mid, Partners (front ++ (mid ++ back)) b partner ∨
      Partners (front ++ (mid ++ back)) partner b := by
  obtain ⟨before, behind, rfl⟩ := List.append_of_mem hb
  rw [List.map_append, List.map_cons] at h
  rcases h.exists_partner with
    ⟨hside, inside, rest, hbehind, hin⟩ | ⟨hside, rest, inside, hbefore, hin⟩
  · obtain ⟨inside, tail, rfl, rfl, htail⟩ := List.map_eq_append_iff.mp hbehind
    obtain ⟨c, tail, rfl, hc, -⟩ := List.map_eq_cons_iff.mp htail
    exact ⟨c, by simp, .inl ⟨hside, hc, front ++ before, inside, tail ++ back, by simp, hin⟩⟩
  · obtain ⟨head, tail, rfl, -, htail⟩ := List.map_eq_append_iff.mp hbefore
    obtain ⟨o, inside, rfl, ho, rfl⟩ := List.map_eq_cons_iff.mp htail
    exact ⟨o, by simp, .inr ⟨ho, hside, front ++ head, inside, behind ++ back, by simp, hin⟩⟩

/-- **An opening bracket with a balanced word behind it has no partner**, and all behind it have
one. -/
theorem not_isPaired_of_behind (hnodup : (front ++ o :: back).Nodup) (ho : o.side = .U)
    (h : Balanced (back.map side)) :
    ¬IsPaired (front ++ o :: back) o ∧ ∀ b ∈ back, IsPaired (front ++ o :: back) b := by
  constructor
  · rintro ⟨b, ⟨-, hb, front', inside, rest, hsplit, hin⟩ | ⟨-, hclose, -⟩⟩
    · have hnotin := (List.nodup_cons.mp (List.nodup_middle.mp hnodup)).1
      rw [List.mem_append, not_or] at hnotin
      obtain ⟨-, -, rfl⟩ := (List.append_cons_inj_of_notMem hnotin.1 hnotin.2).mp hsplit
      have hle : Balanced ((inside.map side ++ [.D]) ++ rest.map side) := by
        simpa [hb] using h
      have hcount := hle.count_le
      rw [List.count_append, List.count_append, hin.count_eq] at hcount
      simp at hcount
    · exact absurd (ho.symm.trans hclose) (by simp)
  · intro b hb
    obtain ⟨partner, -, hpartner⟩ := exists_partner (front ++ [o]) [] h hb
    exact ⟨partner, by simpa using hpartner⟩

/-- **A closing bracket with a balanced word in front of it has no partner**, and all that are
opened in front of it are closed there. -/
theorem not_isPaired_of_front (hnodup : (front ++ c :: back).Nodup) (hc : c.side = .D)
    (h : Balanced (front.map side)) :
    ¬IsPaired (front ++ c :: back) c ∧
      ∀ o ∈ front, o.side = .U → ∃ partner ∈ front, Partners (front ++ c :: back) o partner := by
  constructor
  · rintro ⟨b, ⟨hopen, -, -⟩ | ⟨hb, -, front', inside, rest, hsplit, hin⟩⟩
    · exact absurd (hc.symm.trans hopen) (by simp)
    · have hnotin := (List.nodup_cons.mp (List.nodup_middle.mp hnodup)).1
      rw [List.mem_append, not_or] at hnotin
      rw [← List.cons_append, ← List.append_assoc] at hsplit
      obtain ⟨rfl, -, -⟩ := (List.append_cons_inj_of_notMem hnotin.1 hnotin.2).mp hsplit
      rw [List.map_append, List.map_cons, hb] at h
      have hle := h.count_le
      have heq := h.count_eq
      rw [List.count_append, List.count_append, List.count_cons_self,
        List.count_cons_of_ne (by simp), hin.count_eq] at heq
      omega
  · intro o ho hopen
    obtain ⟨partner, hmem, hpartner⟩ := exists_partner [] (c :: back) h ho
    rcases hpartner with hpartner | hpartner
    · exact ⟨partner, hmem, by simpa using hpartner⟩
    · exact absurd (hopen.symm.trans hpartner.closes) (by simp)

end Bracket

end SymbolicCalculus
