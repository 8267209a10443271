/-
# Edit distance

The edit distance of two words is the least number of insertions, deletions and replacements of
single characters that turns one into the other.

It is computed row by row: `distanceRow as bs` holds the distances of `as` from every suffix of
`bs`, the longest suffix first, and `extendRow` adds a character in front of `as`.
-/

namespace SymbolicCalculus

variable {α : Type} [DecidableEq α]

/-- The distances of `a :: as` from every suffix of `bs`, given those of `as`. -/
def extendRow (a : α) : List α → List Nat → List Nat
  | b :: bs, here :: next =>
    let rest := extendRow a bs next
    let first :=
      if a = b then next.headD 0
      else 1 + min here (min (rest.headD 0) (next.headD 0))
    first :: rest
  | _, row => row.map (· + 1)

/-- The distances of the first word from every suffix of the second. -/
def distanceRow : List α → List α → List Nat
  | [], bs => (List.range (bs.length + 1)).reverse
  | a :: as, bs => extendRow a bs (distanceRow as bs)

/-- The edit distance of two words. -/
def editDistance (as bs : List α) : Nat := (distanceRow as bs).headD 0

/-- A row has an entry for every suffix. -/
theorem length_extendRow (a : α) : ∀ (bs : List α) (row : List Nat),
    (extendRow a bs row).length = row.length
  | [], row => by simp [extendRow]
  | _ :: _, [] => by simp [extendRow]
  | _ :: bs, _ :: next => by simp [extendRow, length_extendRow a bs next]

theorem length_distanceRow (as bs : List α) : (distanceRow as bs).length = bs.length + 1 := by
  induction as with
  | nil => simp [distanceRow]
  | cons a as ih => simp [distanceRow, length_extendRow, ih]

end SymbolicCalculus
