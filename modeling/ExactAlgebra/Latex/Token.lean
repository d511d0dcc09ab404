import ExactAlgebra.Text.Numeral

/-!
# Tokens of LaTeX expressions
-/

namespace ExactAlgebra.Latex

inductive Token where
  | number (numeral : Numeral)
  | letter (name : Char)
  | plus
  | minus
  | times
  | divide
  | caret
  | openBrace
  | closeBrace
  | openParen
  | closeParen
  | frac
  | sqrt
  deriving DecidableEq

end ExactAlgebra.Latex
