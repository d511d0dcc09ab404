import ExactAlgebra.Proofs.Rational
import Mathlib.Algebra.Order.Ring.Abs
import Mathlib.Data.Nat.Sqrt

/-!
# Exact square roots

A number has a square root just when it is the square of a rational number. In lowest terms such a number is a square
over a square, so the integer parts of the two roots are the whole roots, and nothing is left to cancel between them.
-/

namespace ExactAlgebra.Rational

variable {q r : ℚ}

theorem floorSqrt_eq_sqrt (n : ℕ) : floorSqrt n = Nat.sqrt n := Nat.eq_sqrt.2 (floorSqrt_spec n)

/-- The first number is the non-negative square root of the second one. Its numerator and denominator are the integer
parts of the roots of those of the second one, which have no common divisor. -/
structure IsRoot (r q : ℚ) : Prop where
  nonneg : 0 ≤ r
  square : r * r = q
  num : r.num = Nat.sqrt q.num.natAbs
  den : r.den = Nat.sqrt q.den
  coprime : (Nat.sqrt q.num.natAbs).Coprime (Nat.sqrt q.den)

theorem sqrt_num_mul_self (r : ℚ) : Nat.sqrt (r * r).num.natAbs = r.num.natAbs := by
  rw [Rat.mul_self_num, Int.natAbs_mul, Nat.sqrt_eq]

theorem sqrt_den_mul_self (r : ℚ) : Nat.sqrt (r * r).den = r.den := by
  rw [Rat.mul_self_den, Nat.sqrt_eq]

theorem isRoot_mul_self (hr : 0 ≤ r) : IsRoot r (r * r) where
  nonneg := hr
  square := rfl
  num := by rw [sqrt_num_mul_self, Int.natAbs_of_nonneg (Rat.num_nonneg.2 hr)]
  den := (sqrt_den_mul_self r).symm
  coprime := by
    rw [sqrt_num_mul_self, sqrt_den_mul_self]
    exact r.reduced

/-- The root of a square is found. -/
theorem sqrt?_mul_self (hr : 0 ≤ r) : sqrt? (r * r) = some r := by
  have hnum : floorSqrt (r * r).num.natAbs = r.num.natAbs := by rw [floorSqrt_eq_sqrt, sqrt_num_mul_self]
  have hden : floorSqrt (r * r).den = r.den := by rw [floorSqrt_eq_sqrt, sqrt_den_mul_self]
  have hsquares : r.num.natAbs * r.num.natAbs = (r * r).num.natAbs ∧ r.den * r.den = (r * r).den := by
    rw [Rat.mul_self_num, Int.natAbs_mul, Rat.mul_self_den]
    exact ⟨rfl, rfl⟩
  have hreduced : mkRat r.num.natAbs r.den = r := by
    rw [Int.natAbs_of_nonneg (Rat.num_nonneg.2 hr), Rat.mkRat_self]
  rw [sqrt?, if_neg (not_lt.2 (mul_self_nonneg r))]
  simp only [hnum, hden]
  rw [if_pos hsquares, hreduced]

theorem sqrt?_eq_some_iff : sqrt? q = some r ↔ IsRoot r q := by
  constructor
  · intro h
    obtain ⟨hr, rfl⟩ := sqrt?_sound h
    exact isRoot_mul_self hr
  · rintro ⟨hr, rfl, -⟩
    exact sqrt?_mul_self hr

theorem exists_sqrt?_iff : (∃ r, sqrt? q = some r) ↔ IsSquare q := by
  constructor
  · rintro ⟨r, h⟩
    exact ⟨r, (sqrt?_eq_some_iff.1 h).square.symm⟩
  · rintro ⟨r, rfl⟩
    -- either root of the square will do, and the one that is found is not negative
    rw [← abs_mul_abs_self]
    exact ⟨|r|, sqrt?_mul_self (abs_nonneg r)⟩

/-- A root is found just when the number is the square of a rational number, and then it is the one root that is not
negative, in lowest terms. -/
theorem sqrt?_exact (q : ℚ) :
    ((∃ r, sqrt? q = some r) ↔ IsSquare q) ∧ (∀ r, sqrt? q = some r ↔ IsRoot r q) ∧
      (sqrt? q = none ↔ ¬ IsSquare q) := by
  refine ⟨exists_sqrt?_iff, fun r => sqrt?_eq_some_iff, ?_⟩
  rw [← exists_sqrt?_iff, not_exists]
  exact Option.eq_none_iff_forall_ne_some

end ExactAlgebra.Rational
