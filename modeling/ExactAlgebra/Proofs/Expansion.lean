import ExactAlgebra.Proofs.Expr.Value
import ExactAlgebra.Proofs.Polynomial.Ring
import ExactAlgebra.Proofs.Rational

/-!
# Expansion keeps the value

An expression that expands has a value everywhere, the value of its polynomial; one that divides by zero has a
value nowhere. The polynomial of an expansion is in canonical form.
-/

namespace ExactAlgebra

variable {limits : Limits} {ρ : String → ℚ}

/-! ## Quotients, powers and roots -/

namespace Polynomial

theorem divide_eq_ok {p q r : Polynomial} (h : p.divide q = .ok r) :
    ∃ c, q.asConstant? = some c ∧ c ≠ 0 ∧ r = p.scale c⁻¹ := by
  rw [divide] at h
  split at h
  · cases h
  · rename_i c hc
    split at h
    · cases h
    · rename_i inverse hinverse
      cases h
      obtain ⟨hne, rfl⟩ := Rational.reciprocal_eq_ok hinverse
      exact ⟨c, hc, hne, rfl⟩

theorem divide_eq_divisionByZero {p q : Polynomial} (h : p.divide q = .error .divisionByZero) :
    q.asConstant? = some 0 := by
  rw [divide] at h
  split at h
  · cases h
  · rename_i c hc
    split at h
    · rename_i e he
      rw [hc, (Rational.reciprocal_eq_error he).1]
    · cases h

theorem power_eq_ok {p r : Polynomial} {n : ℤ} (h : p.power limits n = .ok r) :
    (0 ≤ n ∧ p.pow limits.toBudget n.toNat = .ok r) ∨
      ∃ c v, n < 0 ∧ p.asConstant? = some c ∧ Rational.power c n = .ok v ∧ r = constant v := by
  rw [power] at h
  split at h
  · cases h
  · split at h
    · rename_i hn
      exact .inl ⟨hn, Outcome.mapError_eq_ok.1 h⟩
    · rename_i hn
      split at h
      · cases h
      · rename_i c hc
        split at h
        · obtain ⟨v, hv, h⟩ := Outcome.bind_eq_ok.1 h
          obtain ⟨_, _, h⟩ := Outcome.bind_eq_ok.1 h
          cases h
          exact .inr ⟨c, v, not_le.1 hn, hc, Outcome.mapError_eq_ok.1 hv, rfl⟩
        · cases h

theorem power_eq_divisionByZero {p : Polynomial} {n : ℤ}
    (h : p.power limits n = .error .divisionByZero) : n < 0 ∧ p.asConstant? = some 0 := by
  rw [power] at h
  split at h
  · cases h
  · split at h
    · obtain ⟨_, _, h⟩ := Outcome.mapError_eq_error.1 h
      cases h
    · split at h
      · cases h
      · rename_i c hc
        split at h
        · rcases Outcome.bind_eq_error.1 h with h | ⟨v, _, h⟩
          · obtain ⟨e, he, _⟩ := Outcome.mapError_eq_error.1 h
            obtain ⟨hn, rfl, _⟩ := Rational.power_eq_error he
            exact ⟨hn, hc⟩
          · rcases Outcome.bind_eq_error.1 h with h | ⟨_, _, h⟩
            · obtain ⟨_, _, h⟩ := Outcome.mapError_eq_error.1 h
              cases h
            · cases h
        · cases h

theorem sqrt_eq_ok {p r : Polynomial} (h : p.sqrt = .ok r) :
    ∃ c root, p.asConstant? = some c ∧ Rational.sqrt? c = some root ∧ r = constant root := by
  rw [sqrt] at h
  split at h
  · rename_i root hroot
    cases h
    obtain ⟨c, hc, hroot⟩ := Option.bind_eq_some_iff.1 hroot
    exact ⟨c, root, hc, hroot, rfl⟩
  · cases h

theorem sqrt_ne_divisionByZero (p : Polynomial) : p.sqrt ≠ .error .divisionByZero := by
  rw [sqrt]
  split <;> simp

end Polynomial

/-! ## One node -/

namespace Expr

theorem hasValue_apply {op : Operator} {a b : Expr} {p q r : Polynomial}
    (h : op.apply limits p q = .ok r) (ha : a.HasValue ρ (p.eval ρ)) (hb : b.HasValue ρ (q.eval ρ)) :
    (binary op a b).HasValue ρ (r.eval ρ) := by
  cases op with
  | add =>
      cases h
      rw [Polynomial.eval_add]
      exact .V_Add ha hb
  | sub =>
      cases h
      rw [Polynomial.eval_sub]
      exact .V_Sub ha hb
  | mul =>
      rw [Polynomial.eval_mul ρ (Outcome.mapError_eq_ok.1 h)]
      exact .V_Mul ha hb
  | div =>
      obtain ⟨c, hc, hne, rfl⟩ := Polynomial.divide_eq_ok h
      rw [Polynomial.eval_of_asConstant ρ hc] at hb
      rw [Polynomial.eval_scale, ← div_eq_mul_inv]
      exact .V_Div ha hb hne

theorem hasValue_power {a : Expr} {p r : Polynomial} {n : ℤ} (h : p.power limits n = .ok r)
    (ha : a.HasValue ρ (p.eval ρ)) : (power a n).HasValue ρ (r.eval ρ) := by
  rcases Polynomial.power_eq_ok h with ⟨hn, hpow⟩ | ⟨c, v, hn, hc, hv, rfl⟩
  · rw [Polynomial.eval_pow ρ hpow, ← zpow_natCast, Int.toNat_of_nonneg hn]
    exact .V_Power ha fun hneg => absurd hneg (not_lt.2 hn)
  · obtain ⟨hne, rfl⟩ := Rational.power_eq_ok hv
    rw [Polynomial.eval_of_asConstant ρ hc] at ha
    rw [Polynomial.eval_constant]
    exact .V_Power ha hne

theorem hasValue_sqrt {a : Expr} {p r : Polynomial} (h : p.sqrt = .ok r)
    (ha : a.HasValue ρ (p.eval ρ)) : (sqrt a).HasValue ρ (r.eval ρ) := by
  obtain ⟨c, root, hc, hroot, rfl⟩ := Polynomial.sqrt_eq_ok h
  obtain ⟨hnonneg, hsquare⟩ := Rational.sqrt?_sound hroot
  rw [Polynomial.eval_of_asConstant ρ hc] at ha
  rw [Polynomial.eval_constant]
  exact .V_Sqrt ha hnonneg hsquare

/-! ## Whole expressions -/

/-- An expression that expands has the value of its polynomial. -/
theorem hasValue_of_expand {e : Expr} {p : Polynomial} (h : e.expand limits = .ok p) :
    e.HasValue ρ (p.eval ρ) := by
  induction e generalizing p with
  | num value =>
      cases h
      rw [Polynomial.eval_constant]
      exact .V_Num
  | var name =>
      cases h
      rw [Polynomial.eval_ofVariable]
      exact .V_Var
  | binary op a b iha ihb =>
      obtain ⟨p, hp, h⟩ := Outcome.bind_eq_ok.1 h
      obtain ⟨q, hq, h⟩ := Outcome.bind_eq_ok.1 h
      exact hasValue_apply h (iha hp) (ihb hq)
  | power a n iha =>
      obtain ⟨p, hp, h⟩ := Outcome.bind_eq_ok.1 h
      exact hasValue_power h (iha hp)
  | negate a iha =>
      obtain ⟨p, hp, h⟩ := Outcome.bind_eq_ok.1 h
      cases h
      rw [Polynomial.eval_neg]
      exact .V_Negate (iha hp)
  | group a iha => exact .V_Group (iha h)
  | sqrt a iha =>
      obtain ⟨p, hp, h⟩ := Outcome.bind_eq_ok.1 h
      exact hasValue_sqrt h (iha hp)

theorem apply_eq_divisionByZero {op : Operator} {p q : Polynomial}
    (h : op.apply limits p q = .error .divisionByZero) : op = .div ∧ q.asConstant? = some 0 := by
  cases op with
  | add => cases h
  | sub => cases h
  | mul =>
      obtain ⟨_, _, h⟩ := Outcome.mapError_eq_error.1 h
      cases h
  | div => exact ⟨rfl, Polynomial.divide_eq_divisionByZero h⟩

theorem expand_binary_eq_divisionByZero {op : Operator} {a b : Expr}
    (h : (binary op a b).expand limits = .error .divisionByZero) :
    a.expand limits = .error .divisionByZero ∨ b.expand limits = .error .divisionByZero ∨
      op = .div ∧ ∃ q, b.expand limits = .ok q ∧ q.asConstant? = some 0 := by
  rcases Outcome.bind_eq_error.1 h with h | ⟨p, hp, h⟩
  · exact .inl h
  · rcases Outcome.bind_eq_error.1 h with h | ⟨q, hq, h⟩
    · exact .inr (.inl h)
    · obtain ⟨hop, hzero⟩ := apply_eq_divisionByZero h
      exact .inr (.inr ⟨hop, q, hq, hzero⟩)

/-- An expression that expands to the constant zero has no other value. -/
theorem eq_zero_of_hasValue {e : Expr} {p : Polynomial} {v : ℚ} (h : e.expand limits = .ok p)
    (hp : p.asConstant? = some 0) (hv : e.HasValue ρ v) : v = 0 := by
  rw [hv.unique (hasValue_of_expand h), Polynomial.eval_of_asConstant ρ hp]

/-- An expression whose expansion divides by zero has no value. -/
theorem not_hasValue_of_expand {e : Expr} (h : e.expand limits = .error .divisionByZero) (v : ℚ) :
    ¬ e.HasValue ρ v := by
  intro hv
  induction hv with
  | V_Num => cases h
  | V_Var => cases h
  | V_Add _ _ iha ihb | V_Sub _ _ iha ihb | V_Mul _ _ iha ihb =>
      rcases expand_binary_eq_divisionByZero h with h | h | ⟨hop, _⟩
      · exact iha h
      · exact ihb h
      · cases hop
  | V_Div _ hb hne iha ihb =>
      rcases expand_binary_eq_divisionByZero h with h | h | ⟨_, q, hq, hzero⟩
      · exact iha h
      · exact ihb h
      · exact hne (eq_zero_of_hasValue hq hzero hb)
  | V_Power ha hne iha =>
      rcases Outcome.bind_eq_error.1 h with h | ⟨p, hp, h⟩
      · exact iha h
      · obtain ⟨hn, hzero⟩ := Polynomial.power_eq_divisionByZero h
        exact hne hn (eq_zero_of_hasValue hp hzero ha)
  | V_Negate _ iha =>
      rcases Outcome.bind_eq_error.1 h with h | ⟨_, _, h⟩
      · exact iha h
      · cases h
  | V_Group _ iha => exact iha h
  | V_Sqrt _ _ _ iha =>
      rcases Outcome.bind_eq_error.1 h with h | ⟨p, _, h⟩
      · exact iha h
      · exact Polynomial.sqrt_ne_divisionByZero p h

/-- Whether expansion succeeds or divides by zero, it agrees with the exact value of the expression. -/
theorem expand_exact (limits : Limits) (e : Expr) (ρ : String → ℚ) :
    (∀ p, e.expand limits = .ok p → ∀ v, e.HasValue ρ v ↔ v = p.eval ρ) ∧
      (e.expand limits = .error .divisionByZero → ∀ v, ¬ e.HasValue ρ v) :=
  ⟨fun _ h _ => (hasValue_of_expand h).iff_eq, not_hasValue_of_expand⟩

theorem expand_exact_quotients :
    let half := binary .div (binary .add (var "x") (num 1)) (sqrt (num 4))
    let undefined := binary .div (var "x") (binary .sub (var "y") (group (var "y")))
    half.expand {} = .ok ⟨[⟨1 / 2, .ofVariable "x"⟩, ⟨1 / 2, .one⟩]⟩ ∧
      undefined.expand {} = .error .divisionByZero ∧
      ∀ ρ v, (half.HasValue ρ v ↔ v = Polynomial.eval ρ ⟨[⟨1 / 2, .ofVariable "x"⟩, ⟨1 / 2, .one⟩]⟩) ∧
        ¬ undefined.HasValue ρ v := by
  intro half undefined
  have hhalf : half.expand {} = .ok ⟨[⟨1 / 2, .ofVariable "x"⟩, ⟨1 / 2, .one⟩]⟩ := by cbv
  have hundefined : undefined.expand {} = .error .divisionByZero := by cbv
  exact ⟨hhalf, hundefined, fun ρ v =>
    ⟨(expand_exact {} half ρ).1 _ hhalf v, (expand_exact {} undefined ρ).2 hundefined v⟩⟩

/-! ## Canonical form -/

theorem canonical_apply {op : Operator} {p q r : Polynomial} (h : op.apply limits p q = .ok r) :
    r.Canonical := by
  cases op with
  | add => cases h; exact Polynomial.canonical_combine _
  | sub => cases h; exact Polynomial.canonical_combine _
  | mul => exact Polynomial.canonical_mul (Outcome.mapError_eq_ok.1 h)
  | div =>
      obtain ⟨_, _, _, rfl⟩ := Polynomial.divide_eq_ok h
      exact Polynomial.canonical_combine _

theorem canonical_of_expand {e : Expr} {p : Polynomial} (h : e.expand limits = .ok p) :
    p.Canonical := by
  induction e generalizing p with
  | num value => cases h; exact Polynomial.canonical_combine _
  | var name => cases h; exact Polynomial.canonical_combine _
  | binary op a b iha ihb =>
      obtain ⟨p, _, h⟩ := Outcome.bind_eq_ok.1 h
      obtain ⟨q, _, h⟩ := Outcome.bind_eq_ok.1 h
      exact canonical_apply h
  | power a n iha =>
      obtain ⟨p, _, h⟩ := Outcome.bind_eq_ok.1 h
      rcases Polynomial.power_eq_ok h with ⟨_, hpow⟩ | ⟨_, _, _, _, _, rfl⟩
      · exact Polynomial.canonical_pow hpow
      · exact Polynomial.canonical_combine _
  | negate a iha =>
      obtain ⟨p, hp, h⟩ := Outcome.bind_eq_ok.1 h
      cases h
      exact (iha hp).neg
  | group a iha => exact iha h
  | sqrt a iha =>
      obtain ⟨p, _, h⟩ := Outcome.bind_eq_ok.1 h
      obtain ⟨_, _, _, _, rfl⟩ := Polynomial.sqrt_eq_ok h
      exact Polynomial.canonical_combine _

end Expr

end ExactAlgebra
