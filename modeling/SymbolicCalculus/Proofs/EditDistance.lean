/-
# The edit distance is the least number of edits

An edit of a word inserts, deletes or replaces one character, anywhere in it (`EditStep`), and
`EditsIn n as bs` says that `n` edits, one after the other, turn `as` into `bs`.  The rows by which
the edit distance is computed know nothing of edits: they look at the first characters of two words
and at three neighbouring distances (`editDistance_cons_cons`).

That this is the least number of edits has two halves.

* Following the smallest neighbour gives edits that are as many as the distance
  (`editsIn_editDistance`).
* One edit, wherever it is made, changes the distance from any word by one at most
  (`EditStep.editDistance_le`), so that no edits are fewer.  What takes an argument is an edit at
  the front of a word: where the first characters agree, the recursion does not look at the
  neighbours, and that it need not is a fact about them (`editDistance_le_cons_right`).

So it does not matter how the distance is computed: any function that gives the least number of
edits is this one (`eq_editDistance`).
-/
import Mathlib.Order.Bounds.Basic
import Mathlib.Order.MinMax
import SymbolicCalculus.Text.EditDistance

namespace SymbolicCalculus

variable {α : Type}

/-! ## 1. Edits -/

/-- One character is inserted, deleted or replaced. -/
inductive EditStep : List α → List α → Prop where
  | insert (front back : List α) (x : α) : EditStep (front ++ back) (front ++ x :: back)
  | delete (front back : List α) (x : α) : EditStep (front ++ x :: back) (front ++ back)
  | replace (front back : List α) (x y : α) : EditStep (front ++ x :: back) (front ++ y :: back)

/-- So many edits, one after the other, turn the first word into the second. -/
inductive EditsIn : Nat → List α → List α → Prop where
  | done (as : List α) : EditsIn 0 as as
  | step {n : Nat} {as bs cs : List α} (h : EditStep as bs) (hrest : EditsIn n bs cs) :
      EditsIn (n + 1) as cs

/-- An edit can be made behind a character. -/
theorem EditStep.cons {as bs : List α} (h : EditStep as bs) (x : α) :
    EditStep (x :: as) (x :: bs) := by
  cases h with
  | insert front back y => exact .insert (x :: front) back y
  | delete front back y => exact .delete (x :: front) back y
  | replace front back y z => exact .replace (x :: front) back y z

theorem EditsIn.cons {n : Nat} {as bs : List α} (h : EditsIn n as bs) (x : α) :
    EditsIn n (x :: as) (x :: bs) := by
  induction h with
  | done as => exact .done (x :: as)
  | step h hrest ih => exact .step (h.cons x) ih

/-- Characters are deleted until nothing is left. -/
theorem editsIn_nil_right (as : List α) : EditsIn as.length as [] := by
  induction as with
  | nil => exact .done []
  | cons a as ih => exact .step (.delete [] as a) ih

/-- Characters are inserted until the word is there. -/
theorem editsIn_nil_left (bs : List α) : EditsIn bs.length [] bs := by
  induction bs with
  | nil => exact .done []
  | cons b bs ih => exact .step (.insert [] [] b) (ih.cons b)

variable [DecidableEq α]

/-! ## 2. The recursion behind the rows -/

/-- The row for a word begins with the distance from it, and goes on with the row for the word
without its first character. -/
theorem distanceRow_cons (as : List α) (b : α) (bs : List α) :
    distanceRow as (b :: bs) = editDistance as (b :: bs) :: distanceRow as bs := by
  induction as with
  | nil => simp [distanceRow, editDistance, List.range_succ]
  | cons a as ih => rw [editDistance, distanceRow, ih, extendRow, ← distanceRow, List.headD_cons]

theorem editDistance_nil_left (bs : List α) : editDistance [] bs = bs.length := by
  simp [editDistance, distanceRow, List.range_succ]

theorem editDistance_nil_right (as : List α) : editDistance as [] = as.length := by
  have hrow : distanceRow as ([] : List α) = [as.length] := by
    induction as with
    | nil => rfl
    | cons a as ih => rw [distanceRow, ih]; rfl
  rw [editDistance, hrow, List.headD_cons]

/-- Equal first characters are kept; one of different ones is deleted, inserted or replaced. -/
theorem editDistance_cons_cons (a : α) (as : List α) (b : α) (bs : List α) :
    editDistance (a :: as) (b :: bs) =
      if a = b then editDistance as bs
      else 1 + min (editDistance as (b :: bs))
        (min (editDistance (a :: as) bs) (editDistance as bs)) := by
  rw [editDistance, distanceRow, distanceRow_cons, extendRow, ← distanceRow, List.headD_cons]
  rfl

theorem editDistance_comm (as bs : List α) : editDistance as bs = editDistance bs as := by
  induction as generalizing bs with
  | nil => rw [editDistance_nil_left, editDistance_nil_right]
  | cons a as iha =>
    induction bs with
    | nil => rw [editDistance_nil_left, editDistance_nil_right]
    | cons b bs ihb =>
      rw [editDistance_cons_cons, editDistance_cons_cons, iha (b :: bs), ihb, iha bs]
      simp only [eq_comm (a := a), min_left_comm]

/-! ## 3. Edits that are as many as the distance -/

/-- As many edits as the distance says turn the first word into the second. -/
theorem editsIn_editDistance (as bs : List α) : EditsIn (editDistance as bs) as bs := by
  induction as generalizing bs with
  | nil =>
    rw [editDistance_nil_left]
    exact editsIn_nil_left bs
  | cons a as iha =>
    induction bs with
    | nil =>
      rw [editDistance_nil_right]
      exact editsIn_nil_right (a :: as)
    | cons b bs ihb =>
      have hdelete : EditsIn (editDistance as (b :: bs) + 1) (a :: as) (b :: bs) :=
        .step (.delete [] as a) (iha (b :: bs))
      have hinsert : EditsIn (editDistance (a :: as) bs + 1) (a :: as) (b :: bs) :=
        .step (.insert [] (a :: as) b) (ihb.cons b)
      have hreplace : EditsIn (editDistance as bs + 1) (a :: as) (b :: bs) :=
        .step (.replace [] as a b) ((iha bs).cons b)
      rw [editDistance_cons_cons]
      split
      · next hab =>
        rw [hab]
        exact (iha bs).cons b
      · rw [Nat.add_comm 1]
        rcases min_choice (editDistance as (b :: bs))
          (min (editDistance (a :: as) bs) (editDistance as bs)) with h | h
        · rwa [h]
        · rw [h]
          rcases min_choice (editDistance (a :: as) bs) (editDistance as bs) with h | h <;> rwa [h]

/-! ## 4. No edits are fewer -/

/-- A character more in front of the first word takes one more edit at most, if a character less in
front of the second one does. -/
theorem editDistance_cons_le_of {as : List α}
    (h : ∀ (c : α) (cs : List α), editDistance as cs ≤ editDistance as (c :: cs) + 1) (a : α)
    (cs : List α) : editDistance (a :: as) cs ≤ editDistance as cs + 1 := by
  cases cs with
  | nil => simp [editDistance_nil_right]
  | cons c cs =>
    rw [editDistance_cons_cons]
    split
    · exact h c cs
    · omega

/-- A character less in front of the second word takes one more edit at most. -/
theorem editDistance_le_cons_right (as : List α) (c : α) (cs : List α) :
    editDistance as cs ≤ editDistance as (c :: cs) + 1 := by
  induction as generalizing c cs with
  | nil =>
    simp only [editDistance_nil_left, List.length_cons]
    omega
  | cons a as ih =>
    have hlonger := editDistance_cons_le_of ih a cs
    have hshorter := ih c cs
    rw [editDistance_cons_cons]
    split <;> omega

theorem editDistance_cons_le (a : α) (as cs : List α) :
    editDistance (a :: as) cs ≤ editDistance as cs + 1 :=
  editDistance_cons_le_of (editDistance_le_cons_right as) a cs

theorem editDistance_le_cons (a : α) (as cs : List α) :
    editDistance as cs ≤ editDistance (a :: as) cs + 1 := by
  rw [editDistance_comm as, editDistance_comm (a :: as)]
  exact editDistance_le_cons_right cs a as

/-- Another first character takes one more edit at most. -/
theorem editDistance_replace_le (a b : α) (as cs : List α) :
    editDistance (a :: as) cs ≤ editDistance (b :: as) cs + 1 := by
  induction cs with
  | nil => simp [editDistance_nil_right]
  | cons c cs ih =>
    have hinsert := editDistance_le_cons_right as c cs
    have hdelete := editDistance_le_cons b as cs
    rw [editDistance_cons_cons, editDistance_cons_cons]
    split <;> split <;> omega

/-- Words whose distances differ by one at most stay so behind the same characters. -/
theorem editDistance_append_le {as bs : List α}
    (h : ∀ cs, editDistance as cs ≤ editDistance bs cs + 1) (front cs : List α) :
    editDistance (front ++ as) cs ≤ editDistance (front ++ bs) cs + 1 := by
  induction front generalizing cs with
  | nil => exact h cs
  | cons x front ihfront =>
    induction cs with
    | nil =>
      have := ihfront []
      simp only [editDistance_nil_right] at this
      simpa [editDistance_nil_right] using this
    | cons c cs ihcs =>
      have hdelete := ihfront (c :: cs)
      have hreplace := ihfront cs
      simp only [List.cons_append] at ihcs ⊢
      rw [editDistance_cons_cons, editDistance_cons_cons]
      split <;> omega

/-- **One edit changes the distance from any word by one at most.** -/
theorem EditStep.editDistance_le {as bs : List α} (h : EditStep as bs) (cs : List α) :
    editDistance as cs ≤ editDistance bs cs + 1 := by
  cases h with
  | insert front back x => exact editDistance_append_le (editDistance_le_cons x back) front cs
  | delete front back x => exact editDistance_append_le (editDistance_cons_le x back) front cs
  | replace front back x y =>
    exact editDistance_append_le (editDistance_replace_le x y back) front cs

theorem editDistance_self (as : List α) : editDistance as as = 0 := by
  induction as with
  | nil => rfl
  | cons a as ih => rw [editDistance_cons_cons, if_pos rfl, ih]

theorem EditsIn.editDistance_le {n : Nat} {as bs : List α} (h : EditsIn n as bs) :
    editDistance as bs ≤ n := by
  induction h with
  | done as => exact (editDistance_self as).le
  | @step n as bs cs h hrest ih =>
    have hstep := h.editDistance_le cs
    omega

/-- **The edit distance is the least number of edits** that turn one word into the other. -/
theorem isLeast_editDistance (as bs : List α) :
    IsLeast {n | EditsIn n as bs} (editDistance as bs) := by
  constructor
  · exact editsIn_editDistance as bs
  · intro n h
    exact h.editDistance_le

/-- Whatever gives the least number of edits is the edit distance. -/
theorem eq_editDistance {distance : List α → List α → Nat}
    (h : ∀ as bs, IsLeast {n | EditsIn n as bs} (distance as bs)) : distance = editDistance := by
  funext as bs
  exact (h as bs).unique (isLeast_editDistance as bs)

/-- Only a word itself is no edit away. -/
theorem editDistance_eq_zero_iff {as bs : List α} : editDistance as bs = 0 ↔ as = bs := by
  constructor
  · intro h
    have hedits := editsIn_editDistance as bs
    rw [h] at hedits
    cases hedits
    rfl
  · rintro rfl
    exact editDistance_self as

end SymbolicCalculus
