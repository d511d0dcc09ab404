import ExactAlgebra.Rational.Decimal

/-!
# Repeating decimals

The digits after the point may be some block written at least twice. The decimal is then taken for the one
in which the block repeats without end.
-/

namespace ExactAlgebra

/-- Whether a run of digits is the given block written again and again. -/
def tiles (block digits : List Char) : Bool :=
  (List.replicate (digits.length / block.length) block).flatten == digits

/-- The shortest block, not all zeros, that tiles at least three digits at least twice. -/
def repeatingBlock? (digits : List Char) : Option (List Char) :=
  if digits.length < 3 then none
  else
    (List.range' 1 (digits.length / 2)).findSome? fun length =>
      let block := digits.take length
      if tiles block digits && !block.all (· == '0') then some block else none

/-- The value that a decimal literal stands for, and the block that was taken to repeat. -/
structure Conversion where
  value : Rat
  block : Option (List Char)
  deriving DecidableEq

end ExactAlgebra
