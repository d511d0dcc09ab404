import ExactAlgebra.Error
import ExactAlgebra.Expansion
import ExactAlgebra.Expr
import ExactAlgebra.Indices.Chain
import ExactAlgebra.Limits

/-!
# The chain of an expression

The laws of indices turn a product, quotient or power of numbers and variables into one chain of powers.
Exponents add up along products, change sign under a fraction bar, and multiply through powers and roots.
-/

namespace ExactAlgebra.Indices

/-- How numbers are treated in a chain. -/
inductive Treatment where
  /-- Numbers are multiplied into the coefficient. -/
  | folded
  /-- Whole numbers above one are bases of their own, and roots are allowed. -/
  | kept
  deriving DecidableEq

/-- The operation that treats numbers so. -/
def Treatment.operation : Treatment → Operation
  | folded => .simplifyIndices
  | kept => .simplifyOneTerm

/-- The error for an expression that is not a chain. -/
def Treatment.notApplicable (treatment : Treatment) : Error := .notApplicable treatment.operation

/-- An exponent as an integer within the limits. -/
def integerExponent (limits : Limits) (treatment : Treatment) (k : Rat) : Except Error Int :=
  if k.den ≠ 1 then .error treatment.notApplicable
  else if isWord32 k.num && k.num.natAbs ≤ limits.maxPowerExponent.toNat then .ok k.num
  else .error (.tooComplex .chainExponent)

/-- Whether a number is a whole number above one, and so can be a base. -/
def isIntegerBase (value : Rat) : Bool := value.den == 1 && 1 < value.num

/-- The chain of a power of a number. -/
def numberPower (limits : Limits) (treatment : Treatment) (value k : Rat) : Except Error Chain :=
  if value = 1 then .ok (.ofNumber 1)
  else if treatment = .kept && isIntegerBase value then
    .ok (.ofPower (.integer value.num.toNat) k)
  else do
    let exponent ← integerExponent limits treatment k
    let power ← (Rational.power value exponent).mapError .ofRational
    return .ofNumber power

/-- The chain of an expression raised to the exponent `k`. -/
def chain (limits : Limits) (treatment : Treatment) (k : Rat) : Expr → Except Error Chain
  | .num value => numberPower limits treatment value k
  | .var name => .ok (.ofPower (.letter name) k)
  | .group inner => chain limits treatment k inner
  | .binary .mul left right => do
      let a ← chain limits treatment k left
      let b ← chain limits treatment k right
      return a.mul b
  | .binary .div left right => do
      let a ← chain limits treatment k left
      let b ← chain limits treatment (-k) right
      return a.mul b
  | .power base n => chain limits treatment (k * n) base
  | .negate inner => do
      let exponent ← integerExponent limits treatment k
      let c ← chain limits treatment k inner
      return if exponent % 2 = 0 then c else (Chain.ofNumber (-1)).mul c
  | .sqrt inner =>
      match treatment with
      | .kept => chain limits treatment (k / 2) inner
      | .folded => .error treatment.notApplicable
  | .binary .add _ _ => .error treatment.notApplicable
  | .binary .sub _ _ => .error treatment.notApplicable

end ExactAlgebra.Indices
