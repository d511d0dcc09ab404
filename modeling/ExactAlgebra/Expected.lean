/-!
# What was expected

The things that a reader may have looked for at the place of a mistake.
-/

namespace ExactAlgebra

/-- What a reader looked for and did not find. -/
inductive Expected where
  | command
  | lexeme
  | expression
  | number
  | operand
  | operator
  | openParenthesis
  | openBrace
  | closeParenthesis
  | closeBrace
  | integerExponent
  | nonnegativeExponent
  | exponentEnd
  | radicand
  | radicandEnd
  | numerator
  | numeratorEnd
  | denominator
  | denominatorEnd
  | arithmeticLexeme
  | arithmeticOperand
  | decimal
  deriving DecidableEq

/-- The words for what was expected. -/
def Expected.text : Expected → String
  | command => "a supported command"
  | lexeme => "number, variable, operator or bracket"
  | expression => "expression"
  | number => "number"
  | operand => "operand"
  | operator => "operator"
  | openParenthesis => "matching '(' for ')'"
  | openBrace => "matching '\x7b' for '\x7d'"
  | closeParenthesis => "')'"
  | closeBrace => "'\x7d'"
  | integerExponent => "integer exponent"
  | nonnegativeExponent => "non-negative integer exponent"
  | exponentEnd => "'\x7d' closing the exponent"
  | radicand => "'\x7b' after \\sqrt"
  | radicandEnd => "'\x7d' closing \\sqrt"
  | numerator => "'\x7b' after \\frac"
  | numeratorEnd => "'\x7d' closing the numerator"
  | denominator => "'\x7b' opening the denominator"
  | denominatorEnd => "'\x7d' closing the denominator"
  | arithmeticLexeme => "number, operator or bracket"
  | arithmeticOperand => "number or '('"
  | decimal => "decimal number"

end ExactAlgebra
