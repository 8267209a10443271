/-
# Function keywords

A run of letters names a function if it is the name of the function in any case
(`Func.ofKeyword?`).  The inverse functions are recognized as `arc` in front of the keyword of
`sin`, `cos` or `tan`.  For a run of letters that names nothing, `Func.suggest?` finds the function
whose name is nearest, within two edits.
-/
import SymbolicCalculus.Operator
import SymbolicCalculus.Text.EditDistance

namespace SymbolicCalculus

/-- The characters with every ASCII letter in lowercase. -/
def lowercase (cs : List Char) : List Char := cs.map Char.toLower

namespace Func

/-! ## 1. Keywords -/

/-- The functions whose keyword has no prefix. -/
def basic : List Func := [abs, cos, exp, ln, log, sin, sqr, sqrt, tan]

/-- The inverse of a trigonometric function. -/
def inverse? : Func → Option Func
  | sin => some arcSin
  | cos => some arcCos
  | tan => some arcTan
  | _ => none

/-- The function named by a keyword in lowercase. -/
def ofLowercase? : List Char → Option Func
  | 'a' :: 'r' :: 'c' :: rest => (ofLowercase? rest).bind inverse?
  | cs => basic.find? (fun f => f.name.toList == cs)

/-- The function named by a keyword, ignoring case. -/
def ofKeyword? (cs : List Char) : Option Func := ofLowercase? (lowercase cs)

/-- Every function is named by its name. -/
theorem ofKeyword?_name (f : Func) : ofKeyword? f.name.toList = some f := by
  cases f <;> decide

/-! ## 2. Suggestions -/

/-- The number of edits up to which a name still suggests a function. -/
def maxEdits : Nat := 2

/-- The first element of the list with the least cost. -/
def cheapest? {α : Type} (cost : α → Nat) : List α → Option α
  | [] => none
  | x :: xs =>
    match cheapest? cost xs with
    | none => some x
    | some y => if cost x ≤ cost y then some x else some y

/-- The edit distance of the function's name from a word, ignoring the case of the word. -/
def distance (cs : List Char) (f : Func) : Nat := editDistance f.name.toList (lowercase cs)

/-- The function whose name is nearest to a word, if one is near enough; the order of `Func.all`
decides between equally near ones. -/
def suggest? (cs : List Char) : Option Func :=
  cheapest? (distance cs) (all.filter (fun f => distance cs f ≤ maxEdits))

end Func

end SymbolicCalculus
