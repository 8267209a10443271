/-
# Parameters: the letters a formula leaves open

A formula may mention twenty-six parameters, one for each letter of the alphabet; case does not
matter.  A `Param` is the position of its letter, so the type holds no parameter beyond `z`.

* `ofIndex?` and `ofLetter?` name a parameter by its position or by its letter
  (`ofIndex?_index`, `ofLetter?_letter`: every parameter has both names).
* A `Param.Query` selects the parameters a question is about: all of them, or only one.
-/

namespace SymbolicCalculus

/-- A parameter of a formula, given by the position of its letter in the alphabet. -/
structure Param where
  /-- The position of the letter, counted from zero. -/
  index : Fin 26
deriving DecidableEq

namespace Param

/-! ## 1. Naming a parameter -/

/-- The parameter at a position of the alphabet, if there is one. -/
def ofIndex? (n : Nat) : Option Param :=
  if h : n < 26 then some ⟨⟨n, h⟩⟩ else none

/-- The parameter named by an ASCII letter of either case. -/
def ofLetter? (c : Char) : Option Param :=
  if c.isAlpha then ofIndex? (c.toUpper.toNat - 'A'.toNat) else none

/-- The uppercase letter of the parameter. -/
def letter (p : Param) : Char := Char.ofNat ('A'.toNat + p.index)

/-- The lowercase letter of the parameter, as formulas are printed. -/
def char (p : Param) : Char := p.letter.toLower

theorem ofIndex?_index (p : Param) : ofIndex? p.index = some p := by
  simp [ofIndex?]

theorem ofLetter?_letter : ∀ p : Param, ofLetter? p.letter = some p
  | ⟨i⟩ => by revert i; decide

theorem ofLetter?_char : ∀ p : Param, ofLetter? p.char = some p
  | ⟨i⟩ => by revert i; decide

/-! ## 2. Questions about parameters -/

/-- Which parameters a question is about. -/
inductive Query where
  /-- Every parameter. -/
  | all
  /-- One parameter alone. -/
  | only (p : Param)
deriving DecidableEq

/-- Whether the query is about the parameter. -/
def Query.selects : Query → Param → Bool
  | .all, _ => true
  | .only p, q => p == q

end Param

end SymbolicCalculus
