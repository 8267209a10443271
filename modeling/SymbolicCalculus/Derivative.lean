/-
# Derivatives

`Expr.rawDerivative` differentiates an expression by the rules of calculus, one rule for each
operator, without simplifying anything.  `Expr.derivative` simplifies the result to the end.

Two things have no rule: the absolute value, and a power whose exponent is not a literal.  The first
of them that is met is the error, even inside a subtree that does not mention the parameter.
-/
import SymbolicCalculus.Simplify.Full

namespace SymbolicCalculus

universe u

/-- Why an expression has no derivative. -/
inductive DerivativeError where
  /-- The exponent of a power is not a literal. -/
  | nonConstantExponent
  /-- There is no rule for the absolute value. -/
  | noAbsoluteValueDerivative
deriving DecidableEq

/-- The text of the error. -/
def DerivativeError.message : DerivativeError → String
  | nonConstantExponent => "cannot differentiate a power whose exponent is not a number"
  | noAbsoluteValueDerivative => "cannot differentiate the absolute value function"

namespace Expr

variable {ν : Type u} [Arithmetic ν]

open Arithmetic

/-! ## 1. The rules -/

/-- The literal zero. -/
def zeroNumber : Expr ν := number zero

/-- The literal one. -/
def oneNumber : Expr ν := number one

/-- The literal one half with its sign changed. -/
def minusHalf : Expr ν := number (Arithmetic.unary .neg half)

/-- The literal one with its sign changed. -/
def minusOne : Expr ν := number (Arithmetic.unary .neg one)

/-- The slope `(1 - u²) ^ (-1/2)` of the arc sine. -/
def arcSineSlope (u : Expr ν) : Expr ν := pow (sub oneNumber (sqr u)) minusHalf

/-- The slope `(1 + u²) ^ (-1)` of the arc tangent. -/
def arcTangentSlope (u : Expr ν) : Expr ν := pow (add oneNumber (sqr u)) minusOne

/-- The product rule `(f * g)' = f * g' + f' * g`. -/
def productRule (f f' g g' : Expr ν) : Expr ν := add (mul f g') (mul f' g)

/-- The quotient rule `(f / g)' = (f' * g - f * g') / g²`. -/
def quotientRule (f f' g g' : Expr ν) : Expr ν := div (sub (mul f' g) (mul f g')) (sqr g)

/-- The power rule `(f ^ n)' = n * f ^ (n - 1) * f'`. -/
def powerRule (f f' : Expr ν) (n : ν) : Expr ν :=
  mul (mul (number n) (pow f (number (Arithmetic.binary .sub n one)))) f'

/-- The chain rule for the call of a function on `u`: it takes the derivative of `u` to the
derivative of the call.  The absolute value has no such rule. -/
def chainRule? (f : Func) (u : Expr ν) : Option (Expr ν → Expr ν) :=
  match f with
  | .abs => none
  | .arcSin => some fun u' => mul (arcSineSlope u) u'
  | .arcCos => some fun u' => mul (neg (arcSineSlope u)) u'
  | .arcTan => some fun u' => mul (arcTangentSlope u) u'
  | .cos => some fun u' => mul (neg (call .sin u)) u'
  | .exp => some fun u' => mul (call .exp u) u'
  | .ln => some fun u' => div u' u
  | .log => some fun u' => mul (div u' u) (number log10e)
  | .sin => some fun u' => mul (call .cos u) u'
  | .sqr => some fun u' => mul (number two) (mul u u')
  | .sqrt => some fun u' => mul (mul (number half) (pow u minusHalf)) u'
  | .tan => some fun u' => div u' (sqr (call .cos u))

/-- The derivative with respect to a parameter, as the rules build it. -/
def rawDerivative (p : Param) : Expr ν → Except DerivativeError (Expr ν)
  | number _ => .ok zeroNumber
  | param q => .ok (if q = p then oneNumber else zeroNumber)
  | neg u => return neg (← rawDerivative p u)
  | call f u =>
    match chainRule? f u with
    | none => .error .noAbsoluteValueDerivative
    | some rule => return rule (← rawDerivative p u)
  | add f g => return add (← rawDerivative p f) (← rawDerivative p g)
  | sub f g => return sub (← rawDerivative p f) (← rawDerivative p g)
  | mul f g => do
    let g' ← rawDerivative p g
    let f' ← rawDerivative p f
    return productRule f f' g g'
  | div f g => do
    let f' ← rawDerivative p f
    let g' ← rawDerivative p g
    return quotientRule f f' g g'
  | pow f (number n) => return powerRule f (← rawDerivative p f) n
  | pow _ _ => .error .nonConstantExponent

/-! ## 2. Simplified derivatives -/

/-- The number of extra passes of the simplifier unless another one is asked for. -/
def defaultExtraPasses : Nat := 10

/-- The derivative with respect to a parameter, simplified to the end. -/
def derivative (p : Param) (extra : Nat) (f : Expr ν) : Except DerivativeError (Simplified ν) :=
  return simplifyFully extra (← rawDerivative p f)

end Expr

end SymbolicCalculus
