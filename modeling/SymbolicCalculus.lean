/-
# Symbolic calculus on formulas

Formulas are read from text, printed, evaluated, simplified and differentiated.
-/
import SymbolicCalculus.Log
import SymbolicCalculus.Report
import SymbolicCalculus.Proofs.Calculus.Congruence
import SymbolicCalculus.Proofs.Calculus.Derivative
import SymbolicCalculus.Proofs.Calculus.Failure
import SymbolicCalculus.Proofs.Calculus.Parameters
import SymbolicCalculus.Proofs.Equality.Value
import SymbolicCalculus.Proofs.Lexing.HandingBack
import SymbolicCalculus.Proofs.Lexing.MaximalMunch
import SymbolicCalculus.Proofs.Lexing.Suggestion
import SymbolicCalculus.Proofs.Parsing.ErrorSpan
import SymbolicCalculus.Proofs.Parsing.Nesting
import SymbolicCalculus.Proofs.Parsing.Postorder
import SymbolicCalculus.Proofs.Parsing.Respelling
import SymbolicCalculus.Proofs.Parsing.Subexpressions
import SymbolicCalculus.Proofs.Printing.Spelling
import SymbolicCalculus.Proofs.Simplify.Chain
import SymbolicCalculus.Proofs.Simplify.Folding
