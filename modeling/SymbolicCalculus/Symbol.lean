/-
# Symbols

Symbols are what the parser reads: tokens that have been classified.  A number has a value, a name
is a parameter or a function, and a minus sign is either a negation or a subtraction.

Every kind of symbol has two precedences, which drive the parser: one for when it waits on the stack
(`stackPrecedence`) and one for when it comes in (`inputPrecedence`).
-/
import SymbolicCalculus.Param
import SymbolicCalculus.Operator
import SymbolicCalculus.Literal
import SymbolicCalculus.Text.Span

namespace SymbolicCalculus

universe u

/-- What kind of symbol it is. -/
inductive SymbolKind (ν : Type u) where
  | number (value : ν)
  | param (p : Param)
  | func (f : Func)
  /-- A minus sign where an operand is expected. -/
  | neg
  | binary (op : BinaryOp)
  | openParen
  | closeParen
  /-- The end of the formula. -/
  | endOfInput

/-- A symbol and the region it was read from. -/
structure Symbol (ν : Type u) where
  kind : SymbolKind ν
  span : Span

namespace SymbolKind

variable {ν : Type u}

/-! ## 1. Precedences -/

/-- The precedence of the symbol while it waits on the stack. -/
def stackPrecedence : SymbolKind ν → Nat
  | func _ => 100
  | number _ | param _ => 120
  | binary .add | binary .sub => 20
  | binary .mul | binary .div => 40
  | binary .pow => 60
  | neg => 65
  | openParen => 5
  | closeParen => 120
  | endOfInput => 5

/-- The precedence of the symbol when it comes in. -/
def inputPrecedence : SymbolKind ν → Nat
  | func _ => 90
  | number _ | param _ => 110
  | binary .add | binary .sub => 10
  | binary .mul | binary .div => 30
  | binary .pow => 50
  | neg => 70
  | openParen => 110
  | closeParen => 0
  | endOfInput => 0

/-- Whether an operand has to follow, so that a minus sign after the symbol is a negation. -/
def expectsOperand : SymbolKind ν → Bool
  | binary _ | neg | openParen => true
  | _ => false

/-- Whether the symbol ends the formula. -/
def isEnd : SymbolKind ν → Bool
  | endOfInput => true
  | _ => false

/-- Every waiting symbol outranks the end of the formula. -/
theorem stackPrecedence_pos (k : SymbolKind ν) : 0 < k.stackPrecedence := by
  cases k with
  | binary op => cases op <;> simp [stackPrecedence]
  | _ => simp [stackPrecedence]

/-- Only a symbol with the lowest precedence can end the formula. -/
theorem isEnd_of_inputPrecedence_pos {k : SymbolKind ν} (h : 0 < k.inputPrecedence) :
    k.isEnd = false := by
  cases k with
  | endOfInput => exact absurd h (by simp [inputPrecedence])
  | _ => rfl

/-! ## 2. Text -/

/-- The kind as traces show it. -/
def traceText [Literal ν] : SymbolKind ν → String
  | number v => "Number(" ++ (Literal.form v).traceText ++ ")"
  | param p => "Param(Param(" ++ toString p.index.val ++ "))"
  | func f => "Function(" ++ f.tag ++ ")"
  | neg => "Neg"
  | binary op => "Binary(" ++ op.tag ++ ")"
  | openParen => "OpenParen"
  | closeParen => "CloseParen"
  | endOfInput => "End"

end SymbolKind

end SymbolicCalculus
