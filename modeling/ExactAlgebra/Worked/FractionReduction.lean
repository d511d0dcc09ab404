import ExactAlgebra.Latex.Fraction
import ExactAlgebra.Worked.Solution

/-!
# Reducing a fraction

The explanation of how a literal fraction is reduced to lowest terms.
-/

namespace ExactAlgebra.Worked

/-- The steps that reduce a fraction; a fraction in lowest terms needs only one. -/
def reductionSteps (n d : Nat) : List Step :=
  let numerator := Markup.natural n
  let denominator := Markup.natural d
  let written := Markup.fraction numerator denominator
  let reduced := Markup.rational (mkRat n d)
  let divisor := Markup.natural (n.gcd d)
  if n.gcd d = 1 then [⟨"The fraction is already in lowest terms", written, some reduced⟩]
  else
    [⟨"Write down the fraction", written, none⟩,
      ⟨"Find the greatest common divisor of numerator and denominator",
        "\\gcd(" ++ numerator ++ ", " ++ denominator ++ ")", some divisor⟩,
      ⟨"Divide numerator and denominator by the greatest common divisor",
        Markup.fraction (numerator ++ "\\div" ++ divisor) (denominator ++ "\\div" ++ divisor),
        some reduced⟩,
      ⟨"Write the reduced fraction", written ++ "=" ++ reduced, some reduced⟩]

/-- Solves a text that is one literal fraction. -/
def reduceFraction (text : List Char) : Except Error Solution :=
  match Latex.literalFraction? text with
  | none => .error .unrecognizedProblem
  | some fraction =>
      if fraction.denominator = 0 then .error .invalidDenominator
      else
        let steps := reductionSteps fraction.numerator fraction.denominator
        .ok ⟨"fraction-reduction", steps, steps.getLast?.bind Step.result⟩

/-- A text that is one literal fraction. -/
def fractionReduction : Archetype where
  name := "fraction-reduction"
  accepts text := (Latex.literalFraction? text).isSome
  solve _ text := reduceFraction text

end ExactAlgebra.Worked
