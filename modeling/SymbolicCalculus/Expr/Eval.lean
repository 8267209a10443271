/-
# Evaluation

A `Context` gives every parameter a value.  Evaluation never fails: what an operator does outside
its domain is up to the arithmetic.

The laws of contexts say that writing a parameter changes what is read there and nowhere else
(`get_set`), and that a fresh context reads zero everywhere (`get_zero`).
-/
import SymbolicCalculus.Expr.Basic

namespace SymbolicCalculus

universe u

/-! ## 1. Contexts -/

/-- The value of every parameter. -/
structure Context (ν : Type u) where
  /-- The values in the order of the alphabet. -/
  values : Vector ν 26

namespace Context

variable {ν : Type u}

/-- The context in which every parameter is zero. -/
def zero [Arithmetic ν] : Context ν := ⟨Vector.replicate 26 Arithmetic.zero⟩

/-- The value of a parameter. -/
def get (c : Context ν) (p : Param) : ν := c.values[p.index]

/-- The context with the value of one parameter replaced. -/
def set (c : Context ν) (p : Param) (v : ν) : Context ν := ⟨c.values.set p.index v⟩

/-- The context with the value at a position of the alphabet replaced; a position beyond the last
letter changes nothing. -/
def setIndex (c : Context ν) (n : Nat) (v : ν) : Context ν := ⟨c.values.setIfInBounds n v⟩

/-- The values in the order of the alphabet. -/
def toList (c : Context ν) : List ν := c.values.toList

@[simp] theorem get_zero [Arithmetic ν] (p : Param) :
    (zero : Context ν).get p = Arithmetic.zero := by
  simp [get, zero]

theorem get_set (c : Context ν) (p q : Param) (v : ν) :
    (c.set p v).get q = if p = q then v else c.get q := by
  obtain ⟨i⟩ := p
  obtain ⟨j⟩ := q
  simp [get, set, Vector.getElem_set, Fin.ext_iff]

end Context

/-! ## 2. The value of an expression -/

namespace Expr

variable {ν : Type u} [Arithmetic ν]

/-- The value of the expression in a context. -/
def eval (c : Context ν) : Expr ν → ν
  | number v => v
  | param p => c.get p
  | unary op a => Arithmetic.unary op (a.eval c)
  | binary op a b => Arithmetic.binary op (a.eval c) (b.eval c)

/-- The value of the expression when every parameter is zero. -/
def evalZero (e : Expr ν) : ν := e.eval Context.zero

end Expr

end SymbolicCalculus
