import ExactAlgebra.Excess
import ExactAlgebra.Latex.Error
import ExactAlgebra.Operation
import ExactAlgebra.Rational.Arithmetic

/-!
# Errors

Why an operation on a written expression has no answer.
-/

namespace ExactAlgebra

/-- Why an operation fails. -/
inductive Error where
  | unexpected (position : Nat) (expected : Expected)
  | divisionByZero
  | invalidDenominator
  | unsupportedDivision
  | unsupportedNegativeExponent
  | unsupportedRadical
  | notFactorable (text : String)
  | unrecognizedProblem
  | tooComplex (excess : Excess)
  | notApplicable (operation : Operation)
  | unknownOperation (name : String)
  deriving DecidableEq

namespace Error

def message : Error → String
  | unexpected position expected =>
      "syntax error at position " ++ Markup.natural position ++ ": expected " ++ expected.text
  | divisionByZero => "division by zero"
  | invalidDenominator => "invalid denominator"
  | unsupportedDivision => "division by a non-constant expression is not supported"
  | unsupportedNegativeExponent => "negative exponents are only supported on constants"
  | unsupportedRadical => "square root has no exact rational value"
  | notFactorable text => "'" ++ text ++ "' cannot be factorized into primes"
  | unrecognizedProblem => "unrecognized problem type"
  | tooComplex excess => "input too complex: " ++ excess.text
  | notApplicable operation => operation.name ++ " does not apply to this expression"
  | unknownOperation name => "unknown operation '" ++ name ++ "'"

def ofLatex : Latex.Error → Error
  | .unexpected position expected => unexpected position expected
  | .invalidDenominator _ => invalidDenominator
  | .tooDeep limit => tooComplex (.depth limit)

/-- The error for an operation on rational numbers without a result. -/
def ofRational : Rational.Error → Error
  | .divisionByZero => divisionByZero
  | .invalidDenominator => invalidDenominator
  | .malformed _ => unexpected 0 .decimal

end Error

end ExactAlgebra
