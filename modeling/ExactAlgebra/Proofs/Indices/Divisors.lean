import ExactAlgebra.Proofs.Indices.Simplification

/-!
# Divisors of chains

A chain is collected with the exponents that all quotients and powers around a factor give it together, and only a
zero whose exponent is negative in the end is refused. So a divisor that is zero goes unnoticed where its exponent
comes out positive or zero again: under a further fraction bar, or in a power with exponent zero.
-/

namespace ExactAlgebra

namespace Indices

/-- The divisors and the bases of negative powers in an expression raised to the exponent `k`, each with the exponent
that it is raised to itself. -/
def divisors (k : ℚ) : Expr → List (ℚ × Expr)
  | .num _ => []
  | .var _ => []
  | .group e => divisors k e
  | .binary .div l r => (-k, r) :: (divisors k l ++ divisors (-k) r)
  | .binary _ l r => divisors k l ++ divisors k r
  | .power e n => if n < 0 then (k * n, e) :: divisors (k * n) e else divisors (k * n) e
  | .negate e => divisors k e
  | .sqrt e => divisors (k / 2) e

variable {ρ : String → ℚ} {k v : ℚ} {e : Expr} {c : Chain}

/-- Where an expression has a value, none of its divisors is zero. -/
theorem not_hasValue_zero_of_mem_divisors (hv : e.HasValue ρ v) : ∀ d ∈ divisors k e, ¬ d.2.HasValue ρ 0 := by
  induction hv generalizing k with
  | V_Num | V_Var => nofun
  | V_Add _ _ iha ihb | V_Sub _ _ iha ihb | V_Mul _ _ iha ihb => exact List.forall_mem_append.2 ⟨iha, ihb⟩
  | V_Div _ hw hne iha ihb =>
      exact List.forall_mem_cons.2 ⟨fun hzero => hne (hw.unique hzero), List.forall_mem_append.2 ⟨iha, ihb⟩⟩
  | V_Power ha hne iha =>
      unfold divisors
      split
      · rename_i hneg
        exact List.forall_mem_cons.2 ⟨fun hzero => hne hneg (ha.unique hzero), iha⟩
      · exact iha
  | V_Negate _ iha | V_Group _ iha | V_Sqrt _ _ _ iha => exact iha

namespace Collects

/-- What is collected with a negative exponent is not zero: a zero would have been refused. -/
theorem ne_zero_of_neg (h : Collects .folded k e c) (hk : k < 0) (hρ : ∀ name ∈ e.names, ρ name ≠ 0)
    (hv : e.HasValue ρ v) : v ≠ 0 := by
  induction h generalizing v with
  | C_One =>
      cases hv
      exact one_ne_zero
  | C_Integer hkept | C_Sqrt hkept => cases hkept
  | C_Number hne =>
      cases hv
      exact hne (Int.cast_lt_zero.1 hk)
  | C_Letter =>
      cases hv
      exact hρ _ (List.mem_singleton_self _)
  | C_Group _ ih =>
      cases hv with
      | V_Group hv => exact ih hk hρ hv
  | C_Mul _ _ iha ihb =>
      have ⟨hρl, hρr⟩ := List.forall_mem_append.1 hρ
      cases hv with
      | V_Mul ha hb => exact mul_ne_zero (iha hk hρl ha) (ihb hk hρr hb)
  | C_Div _ _ iha _ =>
      have ⟨hρl, _⟩ := List.forall_mem_append.1 hρ
      cases hv with
      | V_Div ha _ hw => exact div_ne_zero (iha hk hρl ha) hw
  | @C_Power k _ _ n _ ih =>
      cases hv with
      | V_Power ha hne =>
          rcases lt_trichotomy n 0 with hn | rfl | hn
          · exact zpow_ne_zero n (hne hn)
          · rw [zpow_zero]
            exact one_ne_zero
          · exact zpow_ne_zero n (ih (mul_neg_of_neg_of_pos hk (Int.cast_pos.2 hn)) hρ ha)
  | C_NegateEven _ _ ih | C_NegateOdd _ _ ih =>
      cases hv with
      | V_Negate ha => exact neg_ne_zero.2 (ih hk hρ ha)

/-- A divisor with a negative exponent is not zero, because it is collected; others have to be known not to be zero. -/
theorem divisor_ne_zero (h : Collects .folded k e c) (hρ : ∀ name ∈ e.names, ρ name ≠ 0)
    (hzero : 0 ≤ k → ¬ e.HasValue ρ 0) (hv : e.HasValue ρ v) : v ≠ 0 := by
  rintro rfl
  exact (lt_or_ge k 0).elim (fun hk => h.ne_zero_of_neg hk hρ hv rfl) fun hk => hzero hk hv

/-- An expression that is collected has a value when the divisors that are not raised to a negative exponent are not
zero. -/
theorem exists_hasValue (h : Collects .folded k e c) (hρ : ∀ name ∈ e.names, ρ name ≠ 0)
    (hdivisors : ∀ d ∈ divisors k e, 0 ≤ d.1 → ¬ d.2.HasValue ρ 0) : ∃ v, e.HasValue ρ v := by
  induction h with
  | C_One | C_Number => exact ⟨_, .V_Num⟩
  | C_Integer hkept | C_Sqrt hkept => cases hkept
  | C_Letter => exact ⟨_, .V_Var⟩
  | C_Group _ ih =>
      obtain ⟨v, hv⟩ := ih hρ hdivisors
      exact ⟨v, .V_Group hv⟩
  | C_Mul _ _ iha ihb =>
      have ⟨hρl, hρr⟩ := List.forall_mem_append.1 hρ
      have ⟨hl, hr⟩ := List.forall_mem_append.1 hdivisors
      obtain ⟨v, hv⟩ := iha hρl hl
      obtain ⟨w, hw⟩ := ihb hρr hr
      exact ⟨v * w, .V_Mul hv hw⟩
  | C_Div _ hright iha ihb =>
      have ⟨hρl, hρr⟩ := List.forall_mem_append.1 hρ
      have ⟨hzero, hrest⟩ := List.forall_mem_cons.1 hdivisors
      have ⟨hl, hr⟩ := List.forall_mem_append.1 hrest
      obtain ⟨v, hv⟩ := iha hρl hl
      obtain ⟨w, hw⟩ := ihb hρr hr
      exact ⟨v / w, .V_Div hv hw (hright.divisor_ne_zero hρr hzero hw)⟩
  | @C_Power k e c n hbase ih =>
      unfold divisors at hdivisors
      split at hdivisors
      · have ⟨hzero, hbelow⟩ := List.forall_mem_cons.1 hdivisors
        obtain ⟨v, hv⟩ := ih hρ hbelow
        exact ⟨v ^ n, .V_Power hv fun _ => hbase.divisor_ne_zero hρ hzero hv⟩
      · rename_i hn
        obtain ⟨v, hv⟩ := ih hρ hdivisors
        exact ⟨v ^ n, .V_Power hv fun hneg => absurd hneg hn⟩
  | C_NegateEven _ _ ih | C_NegateOdd _ _ ih =>
      obtain ⟨v, hv⟩ := ih hρ hdivisors
      exact ⟨-v, .V_Negate hv⟩

end Collects

end Indices

namespace Transformation

open Indices

variable {limits : Limits} {text : List Char} {s : String}

/-- An expression whose indices are simplified has a value where no variable is zero, just when no divisor is zero
there that the chain takes with an exponent of zero or more. All other divisors are never zero. -/
theorem simplifyIndices_defined_iff (h : simplifyIndices limits text = .ok s) :
    ∃ e, Expr.ofText limits text = .ok e ∧ ∀ ρ, (∀ name ∈ e.names, ρ name ≠ 0) →
      ((∃ v, e.HasValue ρ v) ↔ ∀ d ∈ divisors 1 e, 0 ≤ d.1 → ¬ d.2.HasValue ρ 0) := by
  obtain ⟨e, c, he, hcollects, rfl⟩ := simplifyIndices_eq_ok h
  refine ⟨e, he, fun ρ hρ => ⟨?_, hcollects.exists_hasValue hρ⟩⟩
  rintro ⟨v, hv⟩ d hd _
  exact not_hasValue_zero_of_mem_divisors hv d hd

theorem simplifyIndices_defined_iff_quotients :
    simplifyIndices {} "(2x\\div(3\\div y))^\x7b-2\x7d".toList = .ok "\\frac\x7b9\x7d\x7b4x^\x7b2\x7dy^\x7b2\x7d\x7d" ∧
      ∃ e, Expr.ofText {} "(2x\\div(3\\div y))^\x7b-2\x7d".toList = .ok e ∧ ∀ ρ, (∀ name ∈ e.names, ρ name ≠ 0) →
        ((∃ v, e.HasValue ρ v) ↔ ∀ d ∈ divisors 1 e, 0 ≤ d.1 → ¬ d.2.HasValue ρ 0) := by
  have h : simplifyIndices {} "(2x\\div(3\\div y))^\x7b-2\x7d".toList =
      .ok "\\frac\x7b9\x7d\x7b4x^\x7b2\x7dy^\x7b2\x7d\x7d" := by cbv
  exact ⟨h, simplifyIndices_defined_iff h⟩

/-- A quotient by zero is taken for zero when it is a divisor itself. -/
theorem simplifyIndices_quotient_by_zero :
    simplifyIndices {} "1\\div(1\\div0)".toList = .ok "0" ∧
      ∃ e, Expr.ofText {} "1\\div(1\\div0)".toList = .ok e ∧ ∀ ρ v, ¬ e.HasValue ρ v := by
  refine ⟨by cbv, .binary .div (.num 1) (.group (.binary .div (.num 1) (.num 0))), by cbv, fun ρ v hv => ?_⟩
  exact not_hasValue_zero_of_mem_divisors (k := 1) hv (- -1, .num 0) (by simp [divisors]) .V_Num

end Transformation

end ExactAlgebra
