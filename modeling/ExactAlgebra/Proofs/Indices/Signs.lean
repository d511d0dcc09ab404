import ExactAlgebra.Proofs.Indices.Laws

/-!
# Signs of chains

The sign of a chain is collected apart from its powers. A root takes the signs under it along, although a square
root is never negative. So the sign of a chain differs from the sign of the expression by what comes out of the
roots.
-/

namespace ExactAlgebra.Indices

/-- The sign that is collected from an expression raised to the exponent `k`. -/
def collectedSign (k : ℚ) : Expr → ℚ
  | .num q => if q < 0 then (-1) ^ k.num else 1
  | .var _ => 1
  | .group e => collectedSign k e
  | .binary .div l r => collectedSign k l * collectedSign (-k) r
  | .binary _ l r => collectedSign k l * collectedSign k r
  | .power e n => collectedSign (k * n) e
  | .negate e => (-1) ^ k.num * collectedSign k e
  | .sqrt e => collectedSign (k / 2) e

/-- The sign that comes out of the outermost roots of an expression raised to the exponent `k`. -/
def rootSign (k : ℚ) : Expr → ℚ
  | .num _ => 1
  | .var _ => 1
  | .group e => rootSign k e
  | .binary .div l r => rootSign k l * rootSign (-k) r
  | .binary _ l r => rootSign k l * rootSign k r
  | .power e n => rootSign (k * n) e
  | .negate e => rootSign k e
  | .sqrt e => collectedSign (k / 2) e

theorem collectedSign_mul_self (k : ℚ) (e : Expr) : collectedSign k e * collectedSign k e = 1 := by
  have hsign (n : ℤ) : (-1 : ℚ) ^ n * (-1) ^ n = 1 := by
    rw [← mul_zpow, neg_one_mul, neg_neg, one_zpow]
  fun_induction collectedSign k e with
  | case1 => exact hsign _
  | case2 | case3 => exact one_mul 1
  | case4 _ _ ih | case7 _ _ _ ih | case9 _ _ ih => exact ih
  | case5 _ _ _ ihl ihr | case6 _ _ _ _ _ ihl ihr => rw [mul_mul_mul_comm, ihl, ihr, one_mul]
  | case8 _ _ ih => rw [mul_mul_mul_comm, hsign, ih, one_mul]

theorem rootSign_mul_self (k : ℚ) (e : Expr) : rootSign k e * rootSign k e = 1 := by
  fun_induction rootSign k e with
  | case1 | case2 => exact one_mul 1
  | case3 _ _ ih | case6 _ _ _ ih | case7 _ _ ih => exact ih
  | case4 _ _ _ ihl ihr | case5 _ _ _ _ _ ihl ihr => rw [mul_mul_mul_comm, ihl, ihr, one_mul]
  | case8 => exact collectedSign_mul_self _ _

theorem zpow_eq_sign_mul_abs (q : ℚ) (n : ℤ) : q ^ n = (if q < 0 then (-1) ^ n else 1) * |q ^ n| := by
  split
  · rename_i hneg
    rw [abs_zpow, abs_of_neg hneg, ← mul_zpow, neg_one_mul, neg_neg]
  · rename_i hneg
    rw [one_mul, abs_of_nonneg (zpow_nonneg (not_lt.1 hneg) n)]

variable {treatment : Treatment} {k : ℚ} {e : Expr} {c : Chain} {ρ : String → ℚ}

/-- The coefficient of a chain has the collected sign. -/
theorem Collects.coefficient_eq (h : Collects treatment k e c) :
    c.coefficient = collectedSign k e * |c.coefficient| := by
  have hmul {s t a b : ℚ} (ha : a = s * |a|) (hb : b = t * |b|) : a * b = s * t * |a * b| := by
    rw [abs_mul, mul_mul_mul_comm, ← ha, ← hb]
  induction h with
  | C_One => simp [Chain.ofNumber, collectedSign]
  | C_Integer => simp [Chain.ofPower, collectedSign]
  | C_Number => rw [Chain.ofNumber, collectedSign, Rat.num_intCast]; exact zpow_eq_sign_mul_abs ..
  | C_Letter => simp [Chain.ofPower, collectedSign]
  | C_Group _ ih | C_Power _ ih | C_Sqrt _ _ ih => exact ih
  | C_Mul _ _ iha ihb | C_Div _ _ iha ihb => exact hmul iha ihb
  | C_NegateEven heven _ ih => rw [collectedSign, Rat.num_intCast, heven.neg_one_zpow, one_mul]; exact ih
  | C_NegateOdd hodd _ ih =>
      rw [collectedSign, Rat.num_intCast, hodd.neg_one_zpow]
      exact hmul (by simp [Chain.ofNumber]) ih

/-- The sign of a power of an expression is the collected one, except for what comes out of the roots. -/
theorem Collects.zpow_eq (h : Collects treatment k e c) (hρ : ∀ name ∈ e.names, 0 < ρ name) {n : ℤ} (hk : k = n)
    {v : ℚ} (hv : e.HasValue ρ v) : v ^ n = collectedSign k e * rootSign k e * |v ^ n| := by
  have hmul {s s' r r' a b : ℚ} (ha : a = s * r * |a|) (hb : b = s' * r' * |b|) :
      a * b = s * s' * (r * r') * |a * b| := by
    calc a * b = s * r * |a| * (s' * r' * |b|) := by rw [← ha, ← hb]
      _ = s * s' * (r * r') * |a * b| := by rw [abs_mul]; ring
  have hnegate {s r v : ℚ} {n : ℤ} (hv : v ^ n = s * r * |v ^ n|) :
      (-v) ^ n = (-1) ^ n * s * r * |(-v) ^ n| := by
    rw [abs_zpow, abs_neg, ← abs_zpow, neg_eq_neg_one_mul, mul_zpow, mul_assoc ((-1) ^ n), mul_assoc, ← hv]
  induction h generalizing n v with
  | C_One | C_Integer | C_Number =>
      cases hv
      rw [hk, collectedSign, rootSign, Rat.num_intCast, mul_one]
      exact zpow_eq_sign_mul_abs ..
  | C_Letter =>
      cases hv
      rw [collectedSign, rootSign, abs_of_pos (zpow_pos (hρ _ (List.mem_singleton_self _)) n), mul_one, one_mul]
  | C_Group _ ih =>
      cases hv with
      | V_Group hv => exact ih hρ hk hv
  | C_Mul _ _ iha ihb =>
      have ⟨hρl, hρr⟩ := List.forall_mem_append.1 hρ
      cases hv with
      | V_Mul ha hb =>
          rw [mul_zpow]
          exact hmul (iha hρl hk ha) (ihb hρr hk hb)
  | C_Div _ _ iha ihb =>
      have ⟨hρl, hρr⟩ := List.forall_mem_append.1 hρ
      cases hv with
      | V_Div ha hb _ =>
          rw [div_zpow, div_eq_mul_inv, ← zpow_neg]
          exact hmul (iha hρl hk ha) (ihb hρr (by rw [hk, Int.cast_neg]) hb)
  | C_Power _ ih =>
      cases hv with
      | V_Power ha _ =>
          rw [← zpow_mul, mul_comm]
          exact ih hρ (by rw [hk, Int.cast_mul]) ha
  | C_NegateEven _ _ ih | C_NegateOdd _ _ ih =>
      obtain rfl := Int.cast_injective hk
      cases hv with
      | V_Negate ha =>
          rw [collectedSign, rootSign, Rat.num_intCast]
          exact hnegate (ih hρ rfl ha)
  | C_Sqrt =>
      -- both signs are what is collected under the root, and the root itself is not negative
      cases hv with
      | V_Sqrt _ hr _ => rw [collectedSign, rootSign, collectedSign_mul_self, one_mul, abs_of_nonneg (zpow_nonneg hr n)]

end ExactAlgebra.Indices
