import ExactAlgebra.Error
import ExactAlgebra.Expr
import ExactAlgebra.Polynomial.Product
import ExactAlgebra.Rational.SquareRoot

/-!
# Expansion

An expression is multiplied out to a polynomial. Divisors, radicands and bases of negative powers have to be
constants.
-/

namespace ExactAlgebra

/-- The quotient of a polynomial by one that is a constant. -/
def Polynomial.divide (p q : Polynomial) : Except Error Polynomial :=
  match q.asConstant? with
  | none => .error .unsupportedDivision
  | some c =>
      match Rational.reciprocal c with
      | .error e => .error (.ofRational e)
      | .ok inverse => .ok (p.scale inverse)

/-- Whether an integer is a signed word of 32 bits. -/
def isWord32 (n : Int) : Bool := -2147483648 ≤ n && n ≤ 2147483647

/-- A power of a polynomial; only a constant can have a negative exponent. -/
def Polynomial.power (limits : Limits) (p : Polynomial) (exponent : Int) : Except Error Polynomial :=
  if limits.maxPowerExponent.toNat < exponent.natAbs then .error (.tooComplex (.exponent exponent))
  else if 0 ≤ exponent then (p.pow limits.toBudget exponent.toNat).mapError .tooComplex
  else
    match p.asConstant? with
    | none => .error .unsupportedNegativeExponent
    | some c =>
        if isWord32 exponent then do
          let value ← (Rational.power c exponent).mapError .ofRational
          ((Polynomial.constant value).checkCoefficients limits.toBudget).mapError .tooComplex
          return .constant value
        else .error (.tooComplex (.exponent exponent))

/-- The square root of a polynomial that is the square of a rational number. -/
def Polynomial.sqrt (p : Polynomial) : Except Error Polynomial :=
  match p.asConstant?.bind Rational.sqrt? with
  | some root => .ok (.constant root)
  | none => .error .unsupportedRadical

namespace Operator

/-- The result of an operator on two polynomials. -/
def apply (limits : Limits) (op : Operator) (p q : Polynomial) : Except Error Polynomial :=
  match op with
  | add => .ok (p.add q)
  | sub => .ok (p.sub q)
  | mul => (p.mul limits.toBudget q).mapError .tooComplex
  | div => p.divide q

end Operator

namespace Expr

/-- The polynomial that an expression expands to. -/
def expand (limits : Limits) : Expr → Except Error Polynomial
  | num value => .ok (.constant value)
  | var name => .ok (.ofVariable name)
  | binary op left right => do
      let p ← left.expand limits
      let q ← right.expand limits
      op.apply limits p q
  | power base exponent => do (← base.expand limits).power limits exponent
  | negate inner => do return (← inner.expand limits).neg
  | group inner => inner.expand limits
  | sqrt inner => do (← inner.expand limits).sqrt

/-- The terms of an expression that stands in a sum, or is subtracted in it if `negated` holds. -/
def summandTerms (limits : Limits) (negated : Bool) (e : Expr) : Except Error (List Term) := do
  let p ← e.expand limits
  return if negated then p.terms.map Term.neg else p.terms

/-- The terms of the outermost sum before like terms are combined. Sums, differences, parentheses and minus
signs are opened; every other part is expanded. -/
def rawTermsSigned (limits : Limits) (negated : Bool) : Expr → Except Error (List Term)
  | group inner => inner.rawTermsSigned limits negated
  | negate inner => inner.rawTermsSigned limits (!negated)
  | binary .add left right => do
      let ts ← left.rawTermsSigned limits negated
      let us ← right.rawTermsSigned limits negated
      return ts ++ us
  | binary .sub left right => do
      let ts ← left.rawTermsSigned limits negated
      let us ← right.rawTermsSigned limits (!negated)
      return ts ++ us
  | e => e.summandTerms limits negated

/-- The terms of the outermost sum of an expression. -/
def rawTerms (limits : Limits) (e : Expr) : Except Error (List Term) :=
  e.rawTermsSigned limits false

end Expr

end ExactAlgebra
