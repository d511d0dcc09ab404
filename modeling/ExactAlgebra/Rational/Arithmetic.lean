import ExactAlgebra.Rational.Decimal

/-!
# Rational arithmetic that can fail

The operations on rational numbers that divide, and the reading of a decimal literal.
-/

namespace ExactAlgebra.Rational

/-- Why an operation on rational numbers has no result. -/
inductive Error where
  | divisionByZero
  | invalidDenominator
  | malformed (text : String)
  deriving DecidableEq

def Error.message : Error → String
  | .divisionByZero => "division by zero"
  | .invalidDenominator => "invalid denominator"
  | .malformed text => "malformed decimal literal '" ++ text ++ "'"

/-- The number with the given numerator and denominator. -/
def ofFraction (numerator denominator : Int) : Except Error Rat :=
  if denominator = 0 then .error .invalidDenominator
  else .ok (Rat.divInt numerator denominator)

def divide (a b : Rat) : Except Error Rat :=
  if b = 0 then .error .divisionByZero else .ok (a / b)

def reciprocal (a : Rat) : Except Error Rat := divide 1 a

/-- An integer power; a negative exponent takes the power of the inverse. -/
def power (a : Rat) (exponent : Int) : Except Error Rat :=
  if exponent < 0 then (reciprocal a).map (· ^ exponent.natAbs) else .ok (a ^ exponent.natAbs)

/-- The value of a decimal literal. -/
def ofDecimal (text : String) : Except Error Rat :=
  match Decimal.read? text.toList with
  | some d => if d.numeral.isScalable then .ok d.value else .error (.malformed text)
  | none => .error (.malformed text)

end ExactAlgebra.Rational
