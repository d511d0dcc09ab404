import ExactAlgebra.Proofs.Indices.Simplification
import ExactAlgebra.Proofs.Indices.SingleTerm
import ExactAlgebra.Proofs.Limits.Operations
import ExactAlgebra.Proofs.Polynomial.Run
import ExactAlgebra.Proofs.RoundTrip
import ExactAlgebra.Workbench
import ExactAlgebra.Proofs.Expansion.Collection
import ExactAlgebra.Proofs.Expansion.Size
import ExactAlgebra.Proofs.Arithmetic.Agreement
import ExactAlgebra.Proofs.Renormalization
import ExactAlgebra.Proofs.Profile.Parentheses
import ExactAlgebra.Proofs.Indices.Divisors
import ExactAlgebra.Proofs.Arithmetic.Calculations
import ExactAlgebra.Proofs.Polynomial.Leading
import ExactAlgebra.Proofs.Indices.Uniqueness
import ExactAlgebra.Proofs.Factorization.Answers
import ExactAlgebra.Proofs.Decimal.Conversion
import ExactAlgebra.Proofs.Availability
import ExactAlgebra.Proofs.Worked.Catalogue
import ExactAlgebra.Proofs.Profile.Variables
import ExactAlgebra.Proofs.Profile.Fractions
import ExactAlgebra.Proofs.Expansion.Combined
import ExactAlgebra.Proofs.Latex.Layout
import ExactAlgebra.Proofs.Profile.Arguments
import ExactAlgebra.Proofs.Profile.Pairing
import ExactAlgebra.Proofs.Latex.Towers
import ExactAlgebra.Proofs.Latex.Concatenation
import ExactAlgebra.Proofs.Latex.Depth
import ExactAlgebra.Proofs.Decimal.Literals
import ExactAlgebra.Proofs.Positions.Operations
import ExactAlgebra.Proofs.Rational.SquareRoot
