/-
# Errors of formulas

A `ParseError` is a cause and the region of the source it was found in.  The wording lies here: a
message, a label for the region, and, for most causes, a help note.
-/
import SymbolicCalculus.Operator
import SymbolicCalculus.Text.Ink
import SymbolicCalculus.Text.Span

namespace SymbolicCalculus

/-- What is wrong with a parenthesis. -/
inductive ParenIssue where
  /-- It is never closed. -/
  | unclosed
  /-- It was never opened. -/
  | unopened
  /-- It and its partner do not surround exactly one expression. -/
  | contents
deriving DecidableEq

/-- Why a text is not a formula. -/
inductive ParseError.Cause where
  /-- The text of a token that means nothing, and a function with a similar name. -/
  | undefinedToken (name : String) (suggestion : Option Func)
  /-- The parentheses do not pair up. -/
  | parenMismatch (issue : ParenIssue)
  /-- The formula does not reduce to a single expression. -/
  | malformed
  /-- The stack of the parser is full. -/
  | stackOverflow (limit : Nat)
  /-- Something other than a negation stands in front of a single operand. -/
  | oneOperandExpected
  /-- Two operands are not joined by an operator. -/
  | twoOperandsExpected
  /-- An operator or a function stands where a number or a parameter has to. -/
  | parameterExpected
deriving DecidableEq

/-- A cause and the region of the source where it was found. -/
structure ParseError where
  cause : ParseError.Cause
  span : Span
deriving DecidableEq

namespace ParseError.Cause

/-- The title of the error. -/
def message : Cause → String
  | undefinedToken name _ => "undefined token `" ++ name ++ "`"
  | parenMismatch _ => "unbalanced parentheses"
  | malformed => "invalid syntax"
  | stackOverflow _ => "formula is nested too deeply"
  | oneOperandExpected => "expected a negation or function call"
  | twoOperandsExpected => "expected a binary operator between two operands"
  | parameterExpected => "expected a number or parameter"

/-- The words beside the region in error. -/
def label : Cause → String
  | undefinedToken _ _ => "I don't know what this means"
  | parenMismatch .unclosed => "this parenthesis is never closed"
  | parenMismatch .unopened => "this parenthesis was never opened"
  | parenMismatch .contents => "these parentheses must surround exactly one expression"
  | malformed => "I could not make sense of this part of the formula"
  | stackOverflow _ => "the parser ran out of room here"
  | oneOperandExpected => "this cannot be applied to a single operand"
  | twoOperandsExpected => "these operands are not combined correctly"
  | parameterExpected => "add a number or parameter " ++ Ink.emphasis.paint "here"

/-- The advice on how to mend the formula, if there is any. -/
def help? : Cause → Option String
  | undefinedToken _ (some f) =>
    some ("did you mean the function " ++ Ink.emphasis.paint f.name ++ "?")
  | undefinedToken _ none =>
    some ("parameters are single letters, and functions are written as "
      ++ Ink.emphasis.paint "name(expr)")
  | parenMismatch .unclosed =>
    some ("add a closing parenthesis " ++ Ink.emphasis.paint ")" ++ " here")
  | parenMismatch .unopened =>
    some ("add an opening parenthesis " ++ Ink.emphasis.paint "(" ++ " before this")
  | parenMismatch .contents =>
    some ("write an " ++ Ink.emphasis.paint "expression" ++ " inside the parentheses")
  | malformed =>
    some ("operands must be separated by an " ++ Ink.emphasis.paint "operator" ++ ", such as `*`")
  | stackOverflow limit =>
    some ("the parser can hold at most " ++ Ink.emphasis.paint (toString limit)
      ++ " pending symbols")
  | oneOperandExpected =>
    some ("functions take their argument in parentheses, like " ++ Ink.emphasis.paint "sin(x)")
  | twoOperandsExpected =>
    some ("join operands with one of " ++ Ink.emphasis.paint "+ - * / ^")
  | parameterExpected => none

end ParseError.Cause

end SymbolicCalculus
