/-
# Binary floating-point numbers of 64 bits

The arithmetic in which formulas are computed: `Float`, with the elementary functions of the
platform's mathematical library.  A literal is the `Float` nearest to its decimal, and a `Float` is
written as the shortest decimal that reads back to it.

`Binary64.Magnitude` is the reading of the bits below the sign.
-/
import SymbolicCalculus.Arithmetic
import SymbolicCalculus.Literal
import SymbolicCalculus.Decimal.Shortest

namespace SymbolicCalculus

/-! ## 1. Arithmetic -/

namespace Binary64

/-- The value of an operator of one operand. -/
def unary : UnaryOp → Float → Float
  | .neg, x => -x
  | .call .abs, x => x.abs
  | .call .arcSin, x => x.asin
  | .call .arcCos, x => x.acos
  | .call .arcTan, x => x.atan
  | .call .cos, x => x.cos
  | .call .exp, x => x.exp
  | .call .ln, x => x.log
  | .call .log, x => x.log10
  | .call .sin, x => x.sin
  | .call .sqr, x => x * x
  | .call .sqrt, x => x.sqrt
  | .call .tan, x => x.tan

/-- The value of an infix operator. -/
def binary : BinaryOp → Float → Float → Float
  | .add, x, y => x + y
  | .sub, x, y => x - y
  | .mul, x, y => x * y
  | .div, x, y => x / y
  | .pow, x, y => x.pow y

end Binary64

instance : Arithmetic Float where
  zero := 0
  one := 1
  two := 2
  half := 0.5
  log10e := 0.434294481903251827651
  unary := Binary64.unary
  binary := Binary64.binary

/-! ## 2. Literals -/

namespace Binary64

/-- The `Float` nearest to a decimal. -/
def ofDecimal (d : Decimal) : Float :=
  match d.exponent with
  | .ofNat n => Float.ofScientific d.digits false n
  | .negSucc n => Float.ofScientific d.digits true (n + 1)

/-- The magnitude of a `Float`, as its bits give it. -/
inductive Magnitude where
  /-- It is not a number. -/
  | nan
  | infinite
  /-- The number `mantissa * 2 ^ exponent`; at a `boundary` the next smaller number is closer than
  the next larger one. -/
  | finite (mantissa : Nat) (exponent : Int) (boundary : Bool)

/-- The exponent of the least subnormal number. -/
def minExponent : Int := -1074

/-- The bit in front of the fraction of a normal number, above the bits of the fraction field. -/
def hiddenBit : Nat := Nat.pow 2 52

/-- The magnitude that the exponent and the fraction field of a `Float` encode. -/
def Magnitude.ofFields (exponent fraction : Nat) : Magnitude :=
  if exponent = 2047 then
    if fraction = 0 then infinite else nan
  else if exponent = 0 then finite fraction minExponent false
  else finite (hiddenBit + fraction) (minExponent + (exponent - 1 : Nat))
    (fraction == 0 && decide (1 < exponent))

/-- Whether the sign bit is set. -/
def isNegative (x : Float) : Bool := x.toBits.toNat.testBit 63

/-- The magnitude of a `Float`. -/
def magnitude (x : Float) : Magnitude :=
  let bits := x.toBits.toNat
  .ofFields (bits / hiddenBit % 2048) (bits % hiddenBit)

/-- The form in which a `Float` is written. -/
def form (x : Float) : WrittenForm :=
  match magnitude x with
  | .nan => .nan
  | .infinite => .infinite (isNegative x)
  | .finite mantissa exponent boundary =>
    if mantissa = 0 then .finite (isNegative x) ⟨0, 0⟩
    else .finite (isNegative x) (Decimal.shortest mantissa exponent boundary)

end Binary64

instance : Literal Float where
  ofDecimal := Binary64.ofDecimal
  form := Binary64.form

end SymbolicCalculus
