/-
# Literals: how numbers are read and written

Formulas hold numbers only as unsigned decimals.  A `Literal` type of numbers says which number a
decimal denotes and, the other way, which signed decimal a number is written with; numbers that no
decimal denotes (the infinities, and what is not a number) have forms of their own.
-/
import SymbolicCalculus.Decimal.Basic

namespace SymbolicCalculus

universe u

/-- What is there to write of a number. -/
inductive WrittenForm where
  /-- It is not a number. -/
  | nan
  /-- It lies beyond every decimal, on the side that the sign says. -/
  | infinite (negative : Bool)
  /-- It is written as a decimal after its sign; a zero has a sign too. -/
  | finite (negative : Bool) (magnitude : Decimal)
deriving DecidableEq

/-- A type of numbers that decimals denote. -/
class Literal (ν : Type u) where
  /-- The number that a decimal denotes. -/
  ofDecimal : Decimal → ν
  /-- The form in which a number is written. -/
  form : ν → WrittenForm

namespace WrittenForm

/-- The form as traces show it: a decimal point is always present, and an exponent stands for the
zeros of numbers from `10 ^ 16` on and below `10 ^ -4`. -/
def traceText : WrittenForm → String
  | nan => "NaN"
  | infinite negative => if negative then "-inf" else "inf"
  | finite negative d => String.ofList (if negative then '-' :: body d else body d)
where
  /-- The unsigned part of the text. -/
  body (d : Decimal) : List Char :=
    if d.digits ≠ 0 ∧ (16 ≤ d.magnitude ∨ d.magnitude < -4) then d.scientific
    else if d.positional.contains '.' then d.positional
    else d.positional ++ ['.', '0']

end WrittenForm

end SymbolicCalculus
