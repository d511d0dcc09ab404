import ExactAlgebra.Markup
import ExactAlgebra.Polynomial.Basic

/-!
# Polynomials in LaTeX

The written form `2x^{2}-\frac{1}{2}xy+3`: terms in order, variables in order within a term, coefficients and
exponents one left out.
-/

namespace ExactAlgebra

/-- Powers of variables side by side. -/
def Monomial.latex (m : Monomial) : String :=
  String.join (m.factors.map fun f =>
    if f.2 = 1 then f.1 else Markup.power f.1 (Markup.natural f.2))

namespace Term

/-- The term without its sign. -/
def magnitudeLatex (t : Term) : String :=
  (if t.isConstant || t.coefficient.abs != 1 then Markup.rational t.coefficient.abs else "")
    ++ t.monomial.latex

/-- The term at the front of a sum, where no plus sign stands. -/
def latex (t : Term) : String := (if t.coefficient < 0 then "-" else "") ++ t.magnitudeLatex

/-- The term inside a sum, with its sign. -/
def signedLatex (t : Term) : String := (if t.coefficient < 0 then "-" else "+") ++ t.magnitudeLatex

end Term

/-- The terms of a polynomial as a sum. -/
def Polynomial.latex (p : Polynomial) : String :=
  match p.terms with
  | [] => "0"
  | t :: ts => t.latex ++ String.join (ts.map Term.signedLatex)

end ExactAlgebra
