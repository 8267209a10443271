/-
# The text of an expression

`Expr.text` writes an expression as a formula again.  Parentheses stand where the precedence of an
operand is below what its place asks for; since all infix operators are left-associative, a right
operand has to bind tighter than the operator itself.  A negation always has parentheses of its own
around it.

Formulas have no signed and no infinite literals, so such numbers are written as the operations that
yield them: `(-v)`, `(1/0)`, `(-(1/0))` and `(0/0)`.
-/
import SymbolicCalculus.Expr.Basic
import SymbolicCalculus.Literal

namespace SymbolicCalculus

universe u

/-- The form of a number as a piece of a formula. -/
def WrittenForm.formulaChars : WrittenForm → List Char
  | nan => "(0/0)".toList
  | infinite false => "(1/0)".toList
  | infinite true => "(-(1/0))".toList
  | finite false d => d.positional
  | finite true d => '(' :: '-' :: d.positional ++ [')']

namespace Expr

variable {ν : Type u} [Literal ν]

/-- The characters between parentheses, if there have to be any. -/
def parenthesize (needed : Bool) (cs : List Char) : List Char :=
  if needed then '(' :: cs ++ [')'] else cs

/-- The characters of an expression, standing where at least the precedence `outer` is asked for. -/
def charsAt (outer : Precedence) : Expr ν → List Char
  | number v => (Literal.form v).formulaChars
  | param p => [p.char]
  | neg a => '(' :: '-' :: charsAt .any a ++ [')']
  | call f a => f.name.toList ++ '(' :: charsAt .any a ++ [')']
  | binary op a b =>
    parenthesize (decide (op.precedence.level < outer.level))
      (charsAt op.precedence a ++ op.sign :: charsAt op.precedence.tighter b)

/-- The characters of an expression that stands alone. -/
def chars (e : Expr ν) : List Char := e.charsAt .any

/-- The expression as a formula. -/
def text (e : Expr ν) : String := String.ofList e.chars

end Expr

end SymbolicCalculus
