import ExactAlgebra.Indices.Chain
import ExactAlgebra.Markup

/-!
# Chains in LaTeX

Positive exponents stand in the numerator and negative ones under a fraction bar; bases with exponent zero
are left out.
-/

namespace ExactAlgebra.Indices

def Base.latex : Base → String
  | integer value => Markup.natural value
  | letter name => name

/-- The written form of a power with a positive exponent. -/
def powerLatex (base : Base) (exponent : Rat) : String :=
  if exponent = 1 then base.latex
  else if exponent.num = 1 ∧ exponent.den = 2 then Markup.root base.latex
  else Markup.power base.latex (Markup.rational exponent)

/-- Whether a factor begins with a digit. -/
def beginsWithDigit (factor : String) : Bool :=
  match factor.toList with
  | c :: _ => c.isDigit
  | [] => false

/-- A factor after others: digits are kept apart by a multiplication sign. -/
def laterFactor (factor : String) : String :=
  if beginsWithDigit factor then Markup.times ++ factor else factor

def joinFactors : List String → String
  | [] => ""
  | factor :: factors => factor ++ String.join (factors.map laterFactor)

namespace Chain

def numeratorFactors (c : Chain) : List String :=
  let powers := (c.powers.filter fun p => 0 < p.2).map fun p => powerLatex p.1 p.2
  let coefficient := c.coefficient.num.natAbs
  if coefficient ≠ 1 ∨ powers.isEmpty then Markup.natural coefficient :: powers else powers

def denominatorFactors (c : Chain) : List String :=
  let powers := (c.powers.filter fun p => p.2 < 0).map fun p => powerLatex p.1 (-p.2)
  if c.coefficient.den ≠ 1 then Markup.natural c.coefficient.den :: powers else powers

/-- The chain as a product or a fraction of products, with the sign in front. -/
def latex (c : Chain) : String :=
  if c.coefficient = 0 then "0"
  else
    let sign := if c.coefficient < 0 then "-" else ""
    let numerator := joinFactors c.numeratorFactors
    match c.denominatorFactors with
    | [] => sign ++ numerator
    | factors => sign ++ Markup.fraction numerator (joinFactors factors)

end Chain

end ExactAlgebra.Indices
