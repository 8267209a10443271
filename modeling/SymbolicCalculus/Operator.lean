/-
# The operators and functions of formulas

* `Func`: the twelve functions that are written with a parenthesized argument.
* `UnaryOp`: a sign change, or the call of a function.
* `BinaryOp`: the five infix operators, all of them left-associative.
* `Precedence`: how tightly a printed expression holds together, from `any` (nothing is known
  about it) up to `atom` (it never needs parentheses around it).
-/

namespace SymbolicCalculus

/-! ## 1. Functions -/

/-- A function of one argument. -/
inductive Func where
  | abs
  | arcSin
  | arcCos
  | arcTan
  | cos
  | exp
  /-- The natural logarithm. -/
  | ln
  /-- The logarithm to base ten. -/
  | log
  | sin
  /-- The square of the argument. -/
  | sqr
  | sqrt
  | tan
deriving DecidableEq

namespace Func

/-- Every function, in the order in which suggestions prefer them. -/
def all : List Func :=
  [abs, arcSin, arcCos, arcTan, cos, exp, ln, log, sin, sqr, sqrt, tan]

theorem mem_all (f : Func) : f ∈ all := by cases f <;> decide

/-- The name of the function in a formula, in lowercase. -/
def name : Func → String
  | abs => "abs"
  | arcSin => "arcsin"
  | arcCos => "arccos"
  | arcTan => "arctan"
  | cos => "cos"
  | exp => "exp"
  | ln => "ln"
  | log => "log"
  | sin => "sin"
  | sqr => "sqr"
  | sqrt => "sqrt"
  | tan => "tan"

/-- The capitalized name of the function, as traces and trees show it. -/
def tag : Func → String
  | abs => "Abs"
  | arcSin => "ArcSin"
  | arcCos => "ArcCos"
  | arcTan => "ArcTan"
  | cos => "Cos"
  | exp => "Exp"
  | ln => "Ln"
  | log => "Log"
  | sin => "Sin"
  | sqr => "Sqr"
  | sqrt => "Sqrt"
  | tan => "Tan"

end Func

/-! ## 2. Operators -/

/-- An operator of one operand. -/
inductive UnaryOp where
  /-- The change of sign. -/
  | neg
  /-- The call of a function. -/
  | call (f : Func)
deriving DecidableEq

namespace UnaryOp

/-- Whether the operator is written as a function call. -/
def isCall : UnaryOp → Bool
  | neg => false
  | call _ => true

/-- How the operator is written in a formula. -/
def name : UnaryOp → String
  | neg => "-"
  | call f => f.name

/-- The capitalized name of the operator, as traces and trees show it. -/
def tag : UnaryOp → String
  | neg => "Neg"
  | call f => f.tag

end UnaryOp

/-- An infix operator. -/
inductive BinaryOp where
  | add
  | sub
  | mul
  | div
  | pow
deriving DecidableEq

/-- How tightly a printed expression holds together. -/
inductive Precedence where
  /-- Any expression; nothing inside parentheses needs to be grouped. -/
  | any
  /-- A sum or a difference. -/
  | term
  /-- A product or a quotient. -/
  | factor
  /-- A power. -/
  | pow
  /-- A number, a parameter, a call or a negation. -/
  | atom
deriving DecidableEq

namespace Precedence

/-- The position of the level, from the loosest up. -/
def level : Precedence → Nat
  | any => 0
  | term => 1
  | factor => 2
  | pow => 3
  | atom => 4

/-- The next tighter level; nothing is tighter than an atom. -/
def tighter : Precedence → Precedence
  | any => term
  | term => factor
  | factor => pow
  | pow => atom
  | atom => atom

/-- The name of the level. -/
def tag : Precedence → String
  | any => "Any"
  | term => "Term"
  | factor => "Factor"
  | pow => "Pow"
  | atom => "Atom"

end Precedence

namespace BinaryOp

/-- The precedence of a node of the operator. -/
def precedence : BinaryOp → Precedence
  | add | sub => .term
  | mul | div => .factor
  | pow => .pow

/-- Whether the operands may be swapped without changing the value. -/
def isCommutative : BinaryOp → Bool
  | add | mul => true
  | sub | div | pow => false

/-- The sign of the operator in a formula. -/
def sign : BinaryOp → Char
  | add => '+'
  | sub => '-'
  | mul => '*'
  | div => '/'
  | pow => '^'

/-- The capitalized name of the operator, as traces and trees show it. -/
def tag : BinaryOp → String
  | add => "Add"
  | sub => "Sub"
  | mul => "Mul"
  | div => "Div"
  | pow => "Pow"

end BinaryOp

end SymbolicCalculus
