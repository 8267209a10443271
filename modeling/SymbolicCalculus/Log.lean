/-
# Records of what happens

The parser, the simplifier and the derivative can be watched.  A `LogRecord` is one line of what
there is to see: every move of the parser and every step of the simplifier is a record at level
`trace`, and every simplification and differentiation as a whole is one at level `debug`.

The functions here give the records of an operation in the order in which they arise.
-/
import SymbolicCalculus.Derivative
import SymbolicCalculus.Expr.Text
import SymbolicCalculus.Parser

namespace SymbolicCalculus

universe u

/-- How much detail a record is about. -/
inductive LogLevel where
  | debug
  | trace
deriving DecidableEq

/-- A line of what happens. -/
structure LogRecord where
  level : LogLevel
  message : String
deriving DecidableEq

/-- The name of the level. -/
def LogLevel.tag : LogLevel → String
  | debug => "DEBUG"
  | trace => "TRACE"

/-- The record as a line of text. -/
def LogRecord.line (r : LogRecord) : String := r.level.tag ++ " " ++ r.message

variable {ν : Type u}

/-! ## 1. Parsing -/

/-- The record of a move of the parser. -/
def ParserEvent.record [Literal ν] : ParserEvent ν → LogRecord
  | shift kind span => ⟨.trace, "shift " ++ kind.traceText ++ " at " ++ span.text⟩
  | reduce entries span =>
    ⟨.trace, "reduce handle of " ++ toString entries ++ " entries at " ++ span.text⟩
  | fold f => ⟨.trace, "fold argument into " ++ f.name⟩

/-- The records of a run of the parser. -/
def Parser.records [Literal ν] (p : Parser ν) : List LogRecord :=
  p.run.1.map ParserEvent.record

/-! ## 2. Simplifying -/

/-- The record of a step of the simplifier. -/
def Step.record (s : Step) : LogRecord := ⟨.trace, "simplify: " ++ s.tag⟩

/-- The records of a pass. -/
def Pass.records (p : Pass ν) : List LogRecord := p.steps.map Step.record

/-- The records of simplifying to the end. -/
def Simplified.records (s : Simplified ν) : List LogRecord :=
  s.steps.map Step.record ++
    [⟨.debug, "simplified in " ++ toString s.passes ++ " passes, plus " ++ toString s.extra
      ++ " extra passes"⟩]

/-! ## 3. Differentiating -/

/-- The records of differentiating an expression with the given outcome. -/
def Expr.derivativeRecords [Literal ν] (p : Param) (f : Expr ν)
    (outcome : Except DerivativeError (Simplified ν)) : List LogRecord :=
  ⟨.debug, "differentiating `" ++ f.text ++ "` with respect to `" ++ p.char.toString ++ "`"⟩ ::
    match outcome with
    | .ok s => s.records
    | .error e => [⟨.debug, "cannot differentiate `" ++ f.text ++ "`: " ++ e.message⟩]

end SymbolicCalculus
