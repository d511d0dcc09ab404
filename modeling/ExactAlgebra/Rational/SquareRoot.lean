/-!
# Exact square roots

The integer part of a square root, and the square root of a rational number where it is rational.
-/

namespace ExactAlgebra.Rational

/-- The integer part of the square root, from that of a quarter of the number. -/
def floorSqrt (n : Nat) : Nat :=
  if n = 0 then 0
  else
    let r := 2 * floorSqrt (n / 4)
    if (r + 1) * (r + 1) ≤ n then r + 1 else r
termination_by n
decreasing_by omega

/-- The integer part of the square root is the largest number whose square is not above `n`. -/
theorem floorSqrt_spec (n : Nat) :
    floorSqrt n * floorSqrt n ≤ n ∧ n < (floorSqrt n + 1) * (floorSqrt n + 1) := by
  induction n using Nat.strongRecOn with
  | _ n ih =>
      rw [floorSqrt]
      split
      · subst n; decide
      · have h := ih (n / 4) (by omega)
        generalize floorSqrt (n / 4) = s at h
        have h₁ : 2 * s * (2 * s) ≤ n := by grind
        have h₂ : n < (2 * s + 2) * (2 * s + 2) := by grind
        simp only
        split
        · exact ⟨by assumption, by grind⟩
        · exact ⟨h₁, by grind⟩

/-- The non-negative square root, when numerator and denominator are both squares. -/
def sqrt? (q : Rat) : Option Rat :=
  if q < 0 then none
  else
    let n := floorSqrt q.num.natAbs
    let d := floorSqrt q.den
    if n * n = q.num.natAbs ∧ d * d = q.den then some (mkRat n d) else none

end ExactAlgebra.Rational
