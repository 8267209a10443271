/-
# Expressions

An `Expr` is the tree of a formula: a number, a parameter, or an operator over its operands.

* `contains`: whether a parameter the query selects occurs.
* `substitute`: every occurrence of a parameter replaced by a tree.
* `nodes` and `weight`: the sizes that bound the simplifier.  The weight counts a node twice and an
  addition three times, so that turning a sum into a product or a difference lowers it.
-/
import SymbolicCalculus.Param
import SymbolicCalculus.Arithmetic

namespace SymbolicCalculus

universe u

/-- A formula over numbers of type `ν`. -/
inductive Expr (ν : Type u) where
  /-- A literal number. -/
  | number (value : ν)
  /-- A parameter, whose value a context supplies. -/
  | param (p : Param)
  /-- A negation or a function call. -/
  | unary (op : UnaryOp) (operand : Expr ν)
  /-- An infix operation. -/
  | binary (op : BinaryOp) (lhs rhs : Expr ν)

namespace Expr

variable {ν : Type u}

/-! ## 1. Builders -/

/-- The negation of an expression. -/
@[match_pattern] abbrev neg (a : Expr ν) : Expr ν := unary .neg a

/-- The call of a function. -/
@[match_pattern] abbrev call (f : Func) (a : Expr ν) : Expr ν := unary (.call f) a

/-- The sum of two expressions. -/
@[match_pattern] abbrev add (a b : Expr ν) : Expr ν := binary .add a b

/-- The difference of two expressions. -/
@[match_pattern] abbrev sub (a b : Expr ν) : Expr ν := binary .sub a b

/-- The product of two expressions. -/
@[match_pattern] abbrev mul (a b : Expr ν) : Expr ν := binary .mul a b

/-- The quotient of two expressions. -/
@[match_pattern] abbrev div (a b : Expr ν) : Expr ν := binary .div a b

/-- The power of two expressions. -/
@[match_pattern] abbrev pow (a b : Expr ν) : Expr ν := binary .pow a b

/-- The square of an expression, as a function call. -/
@[match_pattern] abbrev sqr (a : Expr ν) : Expr ν := call .sqr a

/-- The square root of an expression, as a function call. -/
@[match_pattern] abbrev sqrt (a : Expr ν) : Expr ν := call .sqrt a

/-! ## 2. Queries -/

/-- The value of a literal. -/
def asNumber? : Expr ν → Option ν
  | number v => some v
  | _ => none

/-- Whether the expression is a literal. -/
def isLiteral : Expr ν → Bool
  | number _ => true
  | _ => false

/-- Whether the expression is a literal that compares equal to the number. -/
def isNumber [BEq ν] (e : Expr ν) (v : ν) : Bool :=
  match e with
  | number w => w == v
  | _ => false

/-- Whether a parameter that the query selects occurs in the expression. -/
def contains (q : Param.Query) : Expr ν → Bool
  | number _ => false
  | param p => q.selects p
  | unary _ a => a.contains q
  | binary _ a b => a.contains q || b.contains q

/-- The precedence of the expression when it is printed. -/
def precedence : Expr ν → Precedence
  | number _ | param _ | unary _ _ => .atom
  | binary op _ _ => op.precedence

/-! ## 3. Substitution -/

/-- The expression with every occurrence of the parameter `p` replaced by `s`.  Occurrences of `p`
inside `s` stay. -/
def substitute (e : Expr ν) (p : Param) (s : Expr ν) : Expr ν :=
  match e with
  | number v => number v
  | param q => if q = p then s else param q
  | unary op a => unary op (a.substitute p s)
  | binary op a b => binary op (a.substitute p s) (b.substitute p s)

/-! ## 4. Sizes -/

/-- The number of nodes. -/
def nodes : Expr ν → Nat
  | number _ | param _ => 1
  | unary _ a => a.nodes + 1
  | binary _ a b => a.nodes + b.nodes + 1

/-- Twice the number of nodes, plus the number of additions among them. -/
def weight : Expr ν → Nat
  | number _ | param _ => 2
  | unary _ a => a.weight + 2
  | binary op a b => a.weight + b.weight + if op = .add then 3 else 2

/-- No expression is lighter than a leaf. -/
theorem two_le_weight (e : Expr ν) : 2 ≤ e.weight := by
  cases e with
  | binary op a b => simp only [weight]; split <;> omega
  | _ => simp [weight]

/-- Every infix node adds at least two to the weights of its operands. -/
theorem weight_binary_ge (op : BinaryOp) (a b : Expr ν) :
    a.weight + b.weight + 2 ≤ (binary op a b).weight := by
  simp only [weight]; split <;> omega

end Expr

end SymbolicCalculus
