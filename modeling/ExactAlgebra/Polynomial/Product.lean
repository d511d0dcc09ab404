import ExactAlgebra.Excess
import ExactAlgebra.Limits
import ExactAlgebra.Polynomial.Basic

/-!
# Products of polynomials

Products and powers are formed within a budget for their terms, degrees and coefficients.
-/

namespace ExactAlgebra

/-- The number of binary digits of a number; zero has none. -/
def bitLength (n : Nat) : Nat := if n = 0 then 0 else n.log2 + 1

/-- The bits of the longer one of numerator and denominator. -/
def coefficientBits (q : Rat) : Nat := max (bitLength q.num.natAbs) (bitLength q.den)

/-- A count kept within an unsigned word of 64 bits. -/
def saturate (n : Nat) : Nat := min n (UInt64.size - 1)

namespace Polynomial

/-- The bits of the widest coefficient. -/
def coefficientWidth (p : Polynomial) : Nat :=
  (p.terms.map fun t => coefficientBits t.coefficient).foldr max 0

/-- Fails when a coefficient is wider than the budget allows. -/
def checkCoefficients (b : Budget) (p : Polynomial) : Except Excess Unit :=
  if b.maxCoefficientBits.toNat < p.coefficientWidth then
    .error (.coefficient p.coefficientWidth)
  else .ok ()

/-- The product of two terms, where its degree is within the budget. -/
def termProduct? (b : Budget) (s t : Term) : Option Term :=
  (s.mul? t).filter fun u => u.monomial.degree ≤ b.maxTotalDegree.toNat

/-- The products of each term of the one polynomial with each term of the other. -/
def termProducts? (b : Budget) (p q : Polynomial) : Option (List Term) :=
  (p.terms.flatMap fun s => q.terms.map fun t => (s, t)).mapM fun pair =>
    termProduct? b pair.1 pair.2

/-- The product of two polynomials within a budget. -/
def mul (b : Budget) (p q : Polynomial) : Except Excess Polynomial :=
  let left := p.terms.length
  let right := q.terms.length
  if saturate (b.maxTerms.toNat * 4) < saturate (left * right) then .error (.product left right)
  else
    match termProducts? b p q with
    | none => .error (.degree b.maxTotalDegree.toNat)
    | some products => do
        let product := combine products
        if b.maxTerms.toNat < product.terms.length then .error (.terms product.terms.length)
        else
          checkCoefficients b product
          return product

/-- The product of `start` with `count` factors `p`, one after the other. -/
def mulRepeatedly (b : Budget) (p start : Polynomial) : Nat → Except Excess Polynomial
  | 0 => .ok start
  | count + 1 =>
      match mul b start p with
      | .error e => .error e
      | .ok product => mulRepeatedly b p product count

/-- A power within a budget; the power zero is one. -/
def pow (b : Budget) (p : Polynomial) (exponent : Nat) : Except Excess Polynomial :=
  mulRepeatedly b p one exponent

end Polynomial

end ExactAlgebra
