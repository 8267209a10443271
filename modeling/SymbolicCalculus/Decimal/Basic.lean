/-
# Decimals

A `Decimal` is a whole number of digits times a power of ten.  It is what a number lexeme denotes
(`ofLexeme`) and what a number is printed from: `positional` writes it without an exponent,
`scientific` with one.
-/

namespace SymbolicCalculus

/-- The number `digits * 10 ^ exponent`. -/
structure Decimal where
  /-- The digits, read as one whole number. -/
  digits : Nat
  /-- The power of ten that the digits are scaled by. -/
  exponent : Int
deriving DecidableEq

namespace Decimal

/-! ## 1. Reading -/

/-- The value of a decimal digit. -/
def digitValue (c : Char) : Nat := c.toNat - '0'.toNat

/-- The whole number that a run of digits denotes. -/
def natOfDigits (cs : List Char) : Nat := cs.foldl (fun n c => 10 * n + digitValue c) 0

/-- The decimal that digits with at most one point among them denote. -/
def ofLexeme (cs : List Char) : Decimal :=
  let whole := cs.takeWhile Char.isDigit
  let fraction := (cs.dropWhile Char.isDigit).drop 1
  ⟨natOfDigits (whole ++ fraction), -fraction.length⟩

/-! ## 2. Writing -/

/-- The digits in decimal notation. -/
def digitChars (d : Decimal) : List Char := Nat.toDigits 10 d.digits

/-- The text with `places` of its digits after the point, padded by zeros in front so that at least
one digit stands before the point. -/
def insertPoint (ds : List Char) (places : Nat) : List Char :=
  let padded := List.replicate (places + 1 - ds.length) '0' ++ ds
  padded.take (padded.length - places) ++ '.' :: padded.drop (padded.length - places)

/-- The decimal without an exponent: zeros fill up to the point on either side. -/
def positional (d : Decimal) : List Char :=
  match d.exponent with
  | .ofNat n => if d.digits = 0 then ['0'] else d.digitChars ++ List.replicate n '0'
  | .negSucc n => insertPoint d.digitChars (n + 1)

/-- The power of ten of the first digit. -/
def magnitude (d : Decimal) : Int := d.digitChars.length + d.exponent - 1

/-- The decimal with one digit before the point and an exponent. -/
def scientific (d : Decimal) : List Char :=
  let mantissa :=
    match d.digitChars with
    | first :: second :: rest => first :: '.' :: second :: rest
    | ds => ds
  mantissa ++ 'e' :: (toString d.magnitude).toList

end Decimal

end SymbolicCalculus
