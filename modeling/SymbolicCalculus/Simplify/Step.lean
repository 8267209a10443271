/-
# The steps of the simplifier

A `Step` names an equation that the simplifier uses from left to right.  The two rotations only
rearrange a chain of `+` or of `*`; all other steps change the expression.
-/

namespace SymbolicCalculus

/-- An equation of the simplifier. -/
inductive Step where
  /-- A subtree without parameters is replaced by its value. -/
  | constantFold
  /-- Uses `a+(b+c) = c+(a+b)`, and the same for `*`. -/
  | rotateRight
  /-- Uses `(a+b)+c = (c+a)+b`, and the same for `*`. -/
  | rotateLeft
  /-- Uses `a/1 = a`. -/
  | divByOne
  /-- Uses `0/a = 0`. -/
  | zeroDividend
  /-- Uses `a/a = 1`. -/
  | divSelf
  /-- Uses `a-0 = a`. -/
  | subZero
  /-- Uses `a-a = 0`. -/
  | subSelf
  /-- Uses `a-(-b) = a+b`. -/
  | subNeg
  /-- Uses `1*a = a` and `a*1 = a`. -/
  | mulOne
  /-- Uses `0*a = 0` and `a*0 = 0`. -/
  | mulZero
  /-- Uses `a*a = sqr(a)`. -/
  | mulSelf
  /-- Uses `0+a = a` and `a+0 = a`. -/
  | addZero
  /-- Uses `a+a = a*2`. -/
  | addSelf
  /-- Uses `a+(-b) = a-b`. -/
  | addNeg
  /-- Uses `(-a)+b = b-a`. -/
  | negAdd
  /-- Uses `a^0 = 1`. -/
  | powZero
  /-- Uses `a^1 = a`. -/
  | powOne
  /-- Uses `-(-a) = a`. -/
  | doubleNeg
deriving DecidableEq

namespace Step

/-- Whether the step only rearranges operands. -/
def isRotation : Step → Bool
  | rotateRight | rotateLeft => true
  | _ => false

/-- The capitalized name of the step. -/
def tag : Step → String
  | constantFold => "ConstantFold"
  | rotateRight => "RotateRight"
  | rotateLeft => "RotateLeft"
  | divByOne => "DivByOne"
  | zeroDividend => "ZeroDividend"
  | divSelf => "DivSelf"
  | subZero => "SubZero"
  | subSelf => "SubSelf"
  | subNeg => "SubNeg"
  | mulOne => "MulOne"
  | mulZero => "MulZero"
  | mulSelf => "MulSelf"
  | addZero => "AddZero"
  | addSelf => "AddSelf"
  | addNeg => "AddNeg"
  | negAdd => "NegAdd"
  | powZero => "PowZero"
  | powOne => "PowOne"
  | doubleNeg => "DoubleNeg"

/-- The number of steps in a list that change the expression. -/
def changes (steps : List Step) : Nat := steps.countP (fun s => !s.isRotation)

@[simp] theorem changes_nil : changes [] = 0 := rfl

@[simp] theorem changes_cons (s : Step) (steps : List Step) :
    changes (s :: steps) = changes steps + if s.isRotation then 0 else 1 := by
  cases h : s.isRotation <;> simp [changes, h]

@[simp] theorem changes_append (steps steps' : List Step) :
    changes (steps ++ steps') = changes steps + changes steps' := by
  simp [changes]

end Step

end SymbolicCalculus
