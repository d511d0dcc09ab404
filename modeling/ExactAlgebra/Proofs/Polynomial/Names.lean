import ExactAlgebra.Proofs.Expansion

/-!
# Variables of expansions

An expansion has no variables that the expression does not have.
-/

namespace ExactAlgebra

open MvPolynomial (supported)

variable {limits : Limits} {s : Set String}

/-- The variables of a canonical polynomial are those of the ring element that it denotes. -/
theorem Polynomial.Canonical.mem_of_supported {p : Polynomial} (hp : p.Canonical)
    (hs : p.toRing ∈ supported ℚ s) : ∀ t ∈ p.terms, ∀ f ∈ t.monomial.factors, f.1 ∈ s := by
  intro t ht f hf
  have hexponent : t.monomial.exponents f.1 ≠ 0 := by
    have hf' := Monomial.mem_factors_iff.1 (show (f.1, f.2) ∈ t.monomial.factors from hf)
    rw [hf'.1]
    exact hf'.2
  refine MvPolynomial.mem_supported.1 hs (Finset.mem_coe.2 ((MvPolynomial.mem_vars_iff_mem_support f.1).2 ?_))
  refine ⟨t.monomial.exponents, MvPolynomial.mem_support_iff.2 ?_, Finsupp.mem_support_iff.2 hexponent⟩
  rw [hp.coeff_of_mem ht]
  exact hp.1 t ht

namespace Polynomial

theorem constant_mem_supported (value : ℚ) : (constant value).toRing ∈ supported ℚ s := by
  rw [toRing_constant]
  exact (supported ℚ s).algebraMap_mem value

theorem scale_mem_supported {p : Polynomial} {k : ℚ} (hp : p.toRing ∈ supported ℚ s) :
    (p.scale k).toRing ∈ supported ℚ s := by
  rw [toRing_scale]
  exact mul_mem hp ((supported ℚ s).algebraMap_mem k)

end Polynomial

namespace Expr

theorem apply_mem_supported {op : Operator} {p q r : Polynomial} (h : op.apply limits p q = .ok r)
    (hp : p.toRing ∈ supported ℚ s) (hq : q.toRing ∈ supported ℚ s) : r.toRing ∈ supported ℚ s := by
  cases op with
  | add =>
      cases h
      rw [Polynomial.toRing_add]
      exact add_mem hp hq
  | sub =>
      cases h
      rw [Polynomial.toRing_sub]
      exact sub_mem hp hq
  | mul =>
      rw [Polynomial.toRing_mul (Outcome.mapError_eq_ok.1 h)]
      exact mul_mem hp hq
  | div =>
      obtain ⟨c, _, _, rfl⟩ := Polynomial.divide_eq_ok h
      exact Polynomial.scale_mem_supported hp

theorem expand_mem_supported {e : Expr} {p : Polynomial} (h : e.expand limits = .ok p)
    (hs : ∀ name ∈ e.names, name ∈ s) : p.toRing ∈ supported ℚ s := by
  induction e generalizing p with
  | num value =>
      cases h
      exact Polynomial.constant_mem_supported value
  | var name =>
      cases h
      rw [Polynomial.toRing_ofVariable]
      exact MvPolynomial.X_mem_supported.2 (hs name List.mem_cons_self)
  | binary op a b iha ihb =>
      obtain ⟨p, hp, h⟩ := Outcome.bind_eq_ok.1 h
      obtain ⟨q, hq, h⟩ := Outcome.bind_eq_ok.1 h
      have ⟨hsa, hsb⟩ := List.forall_mem_append.1 hs
      exact apply_mem_supported h (iha hp hsa) (ihb hq hsb)
  | power a n iha =>
      obtain ⟨p, hp, h⟩ := Outcome.bind_eq_ok.1 h
      rcases Polynomial.power_eq_ok h with ⟨_, hpow⟩ | ⟨_, v, _, _, _, rfl⟩
      · rw [Polynomial.toRing_pow hpow]
        exact pow_mem (iha hp hs) _
      · exact Polynomial.constant_mem_supported v
  | negate a iha =>
      obtain ⟨p, hp, h⟩ := Outcome.bind_eq_ok.1 h
      cases h
      rw [Polynomial.toRing_neg]
      exact neg_mem (iha hp hs)
  | group a iha => exact iha h hs
  | sqrt a iha =>
      obtain ⟨p, _, h⟩ := Outcome.bind_eq_ok.1 h
      obtain ⟨_, root, _, _, rfl⟩ := Polynomial.sqrt_eq_ok h
      exact Polynomial.constant_mem_supported root

/-- Every variable of an expansion is one of the expression. -/
theorem mem_names_of_expand {e : Expr} {p : Polynomial} (h : e.expand limits = .ok p) :
    ∀ t ∈ p.terms, ∀ f ∈ t.monomial.factors, f.1 ∈ e.names :=
  (canonical_of_expand h).mem_of_supported (s := {name | name ∈ e.names})
    (expand_mem_supported h fun _ hname => hname)

end Expr

end ExactAlgebra
