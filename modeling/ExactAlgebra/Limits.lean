/-!
# Limits

Work is bounded: an input whose answer would pass a limit fails instead of growing without end.
-/

namespace ExactAlgebra

/-- What a product or a power of polynomials may grow to. -/
structure Budget where
  /-- The most terms that a product may have. -/
  maxTerms : UInt64 := 500
  /-- The largest total degree of a term of a product. -/
  maxTotalDegree : UInt32 := 1024
  /-- The most bits in the numerator or denominator of a coefficient. -/
  maxCoefficientBits : UInt64 := 4096
  deriving DecidableEq

/-- All limits on the work for one input. -/
structure Limits extends Budget where
  /-- How deep brackets, fractions, roots and signs may nest. -/
  maxDepth : UInt64 := 64
  /-- The largest exponent of a power. -/
  maxPowerExponent : UInt32 := 32
  /-- The largest number that is factorized. -/
  maxFactorInput : UInt64 := 1000000000000
  deriving DecidableEq

end ExactAlgebra
