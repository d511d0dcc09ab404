import ExactAlgebra.Expr
import Mathlib

/-!
# Exact values of expressions

The value of an expression at an assignment of rational numbers to its variables. Quotients by zero, negative
powers of zero and square roots that are not rational have no value, and neither has what contains them.
-/

namespace ExactAlgebra.Expr

/-- The expression `e` has the exact value `v` at the assignment `ρ`. -/
inductive HasValue (ρ : String → ℚ) : Expr → ℚ → Prop where
  | V_Num {q} : HasValue ρ (num q) q
  | V_Var {name} : HasValue ρ (var name) (ρ name)
  | V_Add {a b v w} : HasValue ρ a v → HasValue ρ b w → HasValue ρ (binary .add a b) (v + w)
  | V_Sub {a b v w} : HasValue ρ a v → HasValue ρ b w → HasValue ρ (binary .sub a b) (v - w)
  | V_Mul {a b v w} : HasValue ρ a v → HasValue ρ b w → HasValue ρ (binary .mul a b) (v * w)
  | V_Div {a b v w} : HasValue ρ a v → HasValue ρ b w → w ≠ 0 → HasValue ρ (binary .div a b) (v / w)
  | V_Power {a v} {n : ℤ} : HasValue ρ a v → (n < 0 → v ≠ 0) → HasValue ρ (power a n) (v ^ n)
  | V_Negate {a v} : HasValue ρ a v → HasValue ρ (negate a) (-v)
  | V_Group {a v} : HasValue ρ a v → HasValue ρ (group a) v
  | V_Sqrt {a v r} : HasValue ρ a v → 0 ≤ r → r * r = v → HasValue ρ (sqrt a) r

/-- An expression has at most one value. -/
theorem HasValue.unique {ρ : String → ℚ} {e : Expr} {v w : ℚ} (hv : HasValue ρ e v)
    (hw : HasValue ρ e w) : v = w := by
  induction hv generalizing w with
  | V_Num => cases hw; rfl
  | V_Var => cases hw; rfl
  | V_Add _ _ iha ihb => cases hw with | V_Add ha hb => rw [iha ha, ihb hb]
  | V_Sub _ _ iha ihb => cases hw with | V_Sub ha hb => rw [iha ha, ihb hb]
  | V_Mul _ _ iha ihb => cases hw with | V_Mul ha hb => rw [iha ha, ihb hb]
  | V_Div _ _ _ iha ihb => cases hw with | V_Div ha hb _ => rw [iha ha, ihb hb]
  | V_Power _ _ iha => cases hw with | V_Power ha _ => rw [iha ha]
  | V_Negate _ iha => cases hw with | V_Negate ha => rw [iha ha]
  | V_Group _ iha => cases hw with | V_Group ha => exact iha ha
  | V_Sqrt _ hr hrv iha =>
      cases hw with
      | V_Sqrt ha hs hsv => exact (mul_self_inj hr hs).1 (hrv.trans ((iha ha).trans hsv.symm))

theorem HasValue.iff_eq {ρ : String → ℚ} {e : Expr} {v w : ℚ} (hv : HasValue ρ e v) :
    HasValue ρ e w ↔ w = v :=
  ⟨fun hw => hw.unique hv, fun h => h ▸ hv⟩

end ExactAlgebra.Expr
