import ExactAlgebra.Expected
import ExactAlgebra.Markup

/-!
# Errors of reading LaTeX

Why a written expression has no tree. Positions are byte offsets.
-/

namespace ExactAlgebra.Latex

/-- Why a text is not an expression. -/
inductive Error where
  | unexpected (position : Nat) (expected : Expected)
  | invalidDenominator (position : Nat)
  | tooDeep (limit : Nat)
  deriving DecidableEq

def Error.message : Error → String
  | .unexpected position expected =>
      "syntax error at position " ++ Markup.natural position ++ ": expected " ++ expected.text
  | .invalidDenominator position => "invalid denominator at position " ++ Markup.natural position
  | .tooDeep limit => "expression nested deeper than " ++ Markup.natural limit ++ " levels"

end ExactAlgebra.Latex
