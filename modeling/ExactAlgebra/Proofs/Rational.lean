import ExactAlgebra.Proofs.Outcome
import ExactAlgebra.Rational.Arithmetic
import ExactAlgebra.Rational.SquareRoot
import Mathlib.Algebra.Order.Field.Rat
import Mathlib.Tactic.Linarith

/-!
# Operations on rational numbers

When an inverse, a power and a square root exist, and what they are.
-/

namespace ExactAlgebra.Rational

theorem reciprocal_zero : reciprocal 0 = .error .divisionByZero := rfl

theorem reciprocal_of_ne_zero {a : ℚ} (h : a ≠ 0) : reciprocal a = .ok (1 / a) := if_neg h

theorem reciprocal_eq_ok {a v : ℚ} (h : reciprocal a = .ok v) : a ≠ 0 ∧ v = a⁻¹ := by
  by_cases ha : a = 0
  · rw [ha, reciprocal_zero] at h
    cases h
  · rw [reciprocal_of_ne_zero ha] at h
    cases h
    exact ⟨ha, one_div a⟩

theorem reciprocal_eq_error {a : ℚ} {e : Error} (h : reciprocal a = .error e) :
    a = 0 ∧ e = .divisionByZero := by
  by_cases ha : a = 0
  · rw [ha, reciprocal_zero] at h
    cases h
    exact ⟨ha, rfl⟩
  · rw [reciprocal_of_ne_zero ha] at h
    cases h

/-- A power that exists is the power of the field, and a negative one is not of zero. -/
theorem power_eq_ok {a v : ℚ} {n : ℤ} (h : power a n = .ok v) : (n < 0 → a ≠ 0) ∧ v = a ^ n := by
  rw [power] at h
  split at h
  · rename_i hn
    obtain ⟨w, hw, rfl⟩ := Outcome.map_eq_ok.1 h
    obtain ⟨ha, rfl⟩ := reciprocal_eq_ok hw
    refine ⟨fun _ => ha, ?_⟩
    rw [← zpow_natCast, inv_zpow', Int.ofNat_natAbs_of_nonpos hn.le, neg_neg]
  · rename_i hn
    cases h
    refine ⟨fun hn' => absurd hn' hn, ?_⟩
    rw [← zpow_natCast, Int.natAbs_of_nonneg (not_lt.1 hn)]

theorem power_eq_error {a : ℚ} {n : ℤ} {e : Error} (h : power a n = .error e) :
    n < 0 ∧ a = 0 ∧ e = .divisionByZero := by
  rw [power] at h
  split at h
  · rename_i hn
    cases hr : reciprocal a with
    | ok w => rw [hr] at h; cases h
    | error e' =>
        rw [hr] at h
        cases h
        exact ⟨hn, reciprocal_eq_error hr⟩
  · cases h

/-- A square root that is found is not negative, and its square is the number. -/
theorem sqrt?_sound {q r : ℚ} (h : sqrt? q = some r) : 0 ≤ r ∧ r * r = q := by
  simp only [sqrt?] at h
  split at h
  · cases h
  · rename_i hq
    split at h
    · rename_i hroots
      obtain ⟨hnum, hden⟩ := hroots
      cases h
      have hq' : q = (q.num.natAbs : ℚ) / q.den := by
        rw [← Int.cast_natCast, Int.natAbs_of_nonneg (Rat.num_nonneg.2 (not_lt.1 hq)),
          Rat.num_div_den]
      rw [Rat.mkRat_eq_div, Int.cast_natCast]
      refine ⟨div_nonneg (Nat.cast_nonneg _) (Nat.cast_nonneg _), ?_⟩
      rw [div_mul_div_comm, ← Nat.cast_mul, ← Nat.cast_mul, hnum, hden, ← hq']
    · cases h

end ExactAlgebra.Rational
