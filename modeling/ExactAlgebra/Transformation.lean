import ExactAlgebra.Arithmetic.Evaluate
import ExactAlgebra.Expansion
import ExactAlgebra.Factorization
import ExactAlgebra.Indices.Collect
import ExactAlgebra.Indices.Latex
import ExactAlgebra.Latex.Parser
import ExactAlgebra.Polynomial.Latex
import ExactAlgebra.Rational.Repeating

/-!
# Transformations

What each operation makes of a written expression. The answer is written in LaTeX again.
-/

namespace ExactAlgebra

/-- The expression that a text is, within the limits. -/
def Expr.ofText (limits : Limits) (text : List Char) : Except Error Expr :=
  (Latex.parse limits.maxDepth.toNat text).mapError .ofLatex

/-- The polynomial that a text expands to. -/
def Polynomial.ofText (limits : Limits) (text : List Char) : Except Error Polynomial := do
  (← Expr.ofText limits text).expand limits

namespace Transformation

/-- Combines the like terms of a sum. -/
def combine (limits : Limits) (text : List Char) : Except Error String := do
  let tree ← Expr.ofText limits text
  let terms ← tree.rawTerms limits
  return (Polynomial.combine terms).latex

/-- Multiplies out all brackets. -/
def expand (limits : Limits) (text : List Char) : Except Error String := do
  return (← Polynomial.ofText limits text).latex

/-- Reduces one literal fraction, or every coefficient of a polynomial. -/
def reduce (limits : Limits) (text : List Char) : Except Error String :=
  match Latex.literalFraction? text with
  | some fraction => do
      let value ← (Rational.ofFraction fraction.numerator fraction.denominator).mapError .ofRational
      return Markup.rational value
  | none => expand limits text

/-- Brings an expression to the one form of all that are equal to it. -/
def normalize (limits : Limits) (text : List Char) : Except Error String := expand limits text

/-! ## Prime factors -/

/-- Powers of primes joined by multiplication signs. -/
def primePowersLatex (factors : List (UInt64 × Nat)) : String :=
  Markup.times.intercalate (factors.map fun f =>
    let prime := Markup.natural f.1.toNat
    if f.2 = 1 then prime else Markup.power prime (Markup.natural f.2))

/-- The prime factors of an expression that is a whole number above one. -/
def primeFactorize (limits : Limits) (text : List Char) : Except Error String := do
  let p ← Polynomial.ofText limits text
  let notFactorable := Error.notFactorable (String.ofList (Text.trim text))
  match p.asConstant? with
  | none => .error notFactorable
  | some c =>
      if c.den ≠ 1 || c.num < 2 then .error notFactorable
      else if limits.maxFactorInput.toNat < c.num then .error (.tooComplex (.factorInput c.num))
      else return primePowersLatex (primeFactors (UInt64.ofNat c.num.toNat))

/-! ## Indices -/

/-- Simplifies a chain of powers, multiplying its numbers into a coefficient. -/
def simplifyIndices (limits : Limits) (text : List Char) : Except Error String := do
  let tree ← Expr.ofText limits text
  let chain ← Indices.chain limits .folded 1 tree
  return chain.latex

/-- Writes a chain of powers of a single base as one power. -/
def simplifyOneTerm (limits : Limits) (text : List Char) : Except Error String := do
  let tree ← Expr.ofText limits text
  let chain ← Indices.chain limits .kept 1 tree
  if 1 < chain.bases.length then .error Indices.Treatment.kept.notApplicable
  else return chain.latex

/-! ## Numbers -/

/-- Reads a decimal literal that ends after its last digit. -/
def terminatingDecimal (text : List Char) : Except Error Conversion := do
  let value ← (Rational.ofDecimal (String.ofList text)).mapError .ofRational
  return ⟨value, none⟩

/-- The number before the point, where no digits stand for zero. -/
def integerPart (whole : List Char) : Except Error Rat :=
  if whole.isEmpty then .ok 0 else (Rational.ofDecimal (String.ofList whole)).mapError .ofRational

/-- The decimal with the digits `whole` before the point and `block` without end after it. -/
def repeatingDecimal (negative : Bool) (whole block : List Char) : Except Error Conversion := do
  let integer ← integerPart whole
  if Decimal.maxPlaces < block.length then .error (.tooComplex .repeatingBlock)
  else
    let part ←
      (Rational.ofFraction (Text.natural block) (Int.pow 10 block.length - 1)).mapError .ofRational
    let magnitude := integer + part
    return ⟨if negative then -magnitude else magnitude, some block⟩

/-- Reads a decimal literal with what stands on the two sides of its point. -/
def pointedDecimal (literal : List Char) (negative : Bool) (whole fraction : List Char) : Except Error Conversion :=
  if whole.all Char.isDigit && fraction.all Char.isDigit then
    match repeatingBlock? fraction with
    | some block => repeatingDecimal negative whole block
    | none => terminatingDecimal literal
  else .error (.unexpected 0 .decimal)

/-- Reads a decimal literal, which may stand for a repeating decimal. -/
def convertDecimal (text : List Char) : Except Error Conversion :=
  let literal := Text.trim text
  let (negative, body) := Decimal.splitSign literal
  match Text.splitAtFirst '.' body with
  | none => terminatingDecimal literal
  | some (whole, fraction) => pointedDecimal literal negative whole fraction

/-- Writes a decimal literal as a fraction. -/
def decimalFraction (text : List Char) : Except Error String :=
  (convertDecimal text).map fun conversion => Markup.rational conversion.value

/-- Evaluates plain arithmetic. -/
def numberCalculate (limits : Limits) (text : List Char) : Except Error String :=
  (Arithmetic.evaluate limits text).map Markup.rational

end Transformation

namespace Operation

def apply (limits : Limits) (op : Operation) (text : List Char) : Except Error String :=
  match op with
  | combine => Transformation.combine limits text
  | reduce => Transformation.reduce limits text
  | expand => Transformation.expand limits text
  | primeFactorize => Transformation.primeFactorize limits text
  | simplifyIndices => Transformation.simplifyIndices limits text
  | normalize => Transformation.normalize limits text
  | decimalFraction => Transformation.decimalFraction text
  | simplifyOneTerm => Transformation.simplifyOneTerm limits text
  | numberCalculate => Transformation.numberCalculate limits text

end Operation

/-- The answer of the operation of a given name. -/
def applyOperation (limits : Limits) (name : String) (text : List Char) : Except Error String :=
  match Operation.ofName? name with
  | some op => op.apply limits text
  | none => .error (.unknownOperation name)

end ExactAlgebra
