import ExactAlgebra.Markup

/-!
# Excess

The ways in which an input is more complex than the limits allow.
-/

namespace ExactAlgebra

/-- What was too much. -/
inductive Excess where
  /-- Nesting deeper than the limit. -/
  | depth (limit : Nat)
  /-- A product of polynomials with this many terms each. -/
  | product (left right : Nat)
  /-- A term of a product above the largest degree. -/
  | degree (limit : Nat)
  /-- A product with this many terms. -/
  | terms (count : Nat)
  /-- A coefficient of this many bits. -/
  | coefficient (bits : Nat)
  /-- An exponent of a power. -/
  | exponent (value : Int)
  /-- An exponent in a chain of powers. -/
  | chainExponent
  /-- A number to factorize. -/
  | factorInput (value : Int)
  /-- A block of repeating digits. -/
  | repeatingBlock
  deriving DecidableEq

/-- The words for what was too much. -/
def Excess.text : Excess → String
  | depth limit => "nested deeper than " ++ Markup.natural limit ++ " levels"
  | product left right =>
      "product of " ++ Markup.natural left ++ " and " ++ Markup.natural right ++ " terms"
  | degree limit => "degree above " ++ Markup.natural limit
  | terms count => "product with " ++ Markup.natural count ++ " terms"
  | coefficient bits => "coefficient of " ++ Markup.natural bits ++ " bits"
  | exponent value => "exponent " ++ Markup.integer value
  | chainExponent => "exponent outside budget"
  | factorInput value => Markup.integer value ++ " exceeds factorization limit"
  | repeatingBlock => "repeating block"

end ExactAlgebra
