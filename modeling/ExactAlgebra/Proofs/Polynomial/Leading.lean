import ExactAlgebra.Proofs.Expansion.Size
import ExactAlgebra.Proofs.Monomial.Graded

/-!
# Leading terms

The first term of a canonical polynomial has the largest exponents. The first term of a product is the product of the
first terms, whatever else cancels; so degrees add up, and the budget for the degree stops no product but one whose
degree is too large.
-/

namespace ExactAlgebra

open MvPolynomial (coeff)

/-- Exponents with a coefficient belong to a term. -/
theorem Term.exists_mem_of_coeff_ne_zero {ts : List Term} {e : String →₀ ℕ} (h : coeff e (sumToRing ts) ≠ 0) :
    ∃ t ∈ ts, t.monomial.exponents = e := by
  induction ts with
  | nil => exact absurd (MvPolynomial.coeff_zero e) h
  | cons t ts ih =>
      rw [sumToRing_cons, MvPolynomial.coeff_add, toRing, MvPolynomial.coeff_monomial] at h
      by_cases ht : t.monomial.exponents = e
      · exact ⟨t, List.mem_cons_self, ht⟩
      · rw [if_neg ht, zero_add] at h
        obtain ⟨u, hu, he⟩ := ih h
        exact ⟨u, List.mem_cons_of_mem t hu, he⟩

/-- The term is one of the ring element, and no exponents in this are larger. -/
structure Term.Leads (s : Term) (f : MvPolynomial String ℚ) : Prop where
  coeff_eq : coeff s.monomial.exponents f = s.coefficient
  ne_zero : s.coefficient ≠ 0
  largest : ∀ e, coeff e f ≠ 0 → toDegLex e ≤ toDegLex s.monomial.exponents

namespace Term.Leads

variable {s t u : Term} {f g : MvPolynomial String ℚ}

/-- No other two terms have a product with the exponents of the leading terms. -/
theorem eq_of_add (hs : s.Leads f) (ht : t.Leads g) {e e' : String →₀ ℕ} (he : coeff e f ≠ 0) (he' : coeff e' g ≠ 0)
    (h : e + e' = s.monomial.exponents + t.monomial.exponents) :
    e = s.monomial.exponents ∧ e' = t.monomial.exponents := by
  have hsum : toDegLex e + toDegLex e' = toDegLex s.monomial.exponents + toDegLex t.monomial.exponents := h
  exact (add_eq_add_iff_eq_and_eq (hs.largest e he) (ht.largest e' he')).1 hsum

/-- The product of the leading terms leads the product: there is nothing that it could cancel with. -/
theorem mul (hs : s.Leads f) (ht : t.Leads g) (hu : s.mul? t = some u) : u.Leads (f * g) := by
  obtain ⟨m, hm, rfl⟩ := Option.map_eq_some_iff.1 hu
  refine ⟨?_, mul_ne_zero hs.ne_zero ht.ne_zero, fun e he => ?_⟩
  · have hmem : (s.monomial.exponents, t.monomial.exponents) ∈
        Finset.HasAntidiagonal.antidiagonal (s.monomial.exponents + t.monomial.exponents) := by simp
    rw [Monomial.exponents_mul hm, MvPolynomial.coeff_mul, ← hs.coeff_eq, ← ht.coeff_eq]
    refine Finset.sum_eq_single_of_mem _ hmem fun pair hpair hne => ?_
    by_contra hzero
    obtain ⟨he, he'⟩ := hs.eq_of_add ht (left_ne_zero_of_mul hzero) (right_ne_zero_of_mul hzero)
      (Finset.HasAntidiagonal.mem_antidiagonal.1 hpair)
    exact hne (Prod.ext he he')
  · rw [MvPolynomial.coeff_mul] at he
    obtain ⟨⟨v, w⟩, hpair, hne⟩ := Finset.exists_ne_zero_of_sum_ne_zero he
    obtain rfl := Finset.HasAntidiagonal.mem_antidiagonal.1 hpair
    rw [Monomial.exponents_mul hm]
    exact add_le_add (hs.largest v (left_ne_zero_of_mul hne)) (ht.largest w (right_ne_zero_of_mul hne))

end Term.Leads

namespace Polynomial

variable {b : Budget} {p q r : Polynomial} {s t u : Term} {d : ℕ}

theorem Canonical.eq_or_lt (hp : p.Canonical) (hs : p.terms.head? = some s) (ht : t ∈ p.terms) :
    t = s ∨ toDegLex t.monomial.exponents < toDegLex s.monomial.exponents := by
  obtain ⟨ts, hts⟩ := List.head?_eq_some_iff.1 hs
  have hascending := hp.2
  rw [hts] at ht hascending
  rcases List.mem_cons.1 ht with rfl | ht
  · exact .inl rfl
  · exact .inr (Monomial.toDegLex_lt_of_compare (List.rel_of_pairwise_cons hascending ht))

/-- The first term of a canonical polynomial is the one that leads it. -/
theorem Canonical.head?_eq_some_iff (hp : p.Canonical) : p.terms.head? = some s ↔ s.Leads p.toRing := by
  constructor
  · intro hs
    have hmem : s ∈ p.terms := List.mem_of_mem_head? hs
    refine ⟨hp.coeff_of_mem hmem, hp.1 s hmem, fun e he => ?_⟩
    obtain ⟨t, ht, rfl⟩ := Term.exists_mem_of_coeff_ne_zero he
    rcases hp.eq_or_lt hs ht with rfl | hlt
    · exact le_rfl
    · exact hlt.le
  · intro hs
    obtain ⟨t, ht, hexponents⟩ := Term.exists_mem_of_coeff_ne_zero (hs.coeff_eq.symm ▸ hs.ne_zero)
    have hcoefficient : t.coefficient = s.coefficient := by rw [← hp.coeff_of_mem ht, hexponents, hs.coeff_eq]
    obtain rfl : t = s := by
      cases t
      cases s
      rw [Term.mk.injEq]
      exact ⟨hcoefficient, Monomial.exponents_injective hexponents⟩
    obtain ⟨w, ws, hterms⟩ := List.exists_cons_of_ne_nil (List.ne_nil_of_mem ht)
    have hw : p.terms.head? = some w := by rw [hterms, List.head?_cons]
    have hmem : w ∈ p.terms := List.mem_of_mem_head? hw
    rcases hp.eq_or_lt hw ht with rfl | hlt
    · exact hw
    · exact absurd hlt (hs.largest _ (hp.coeff_of_mem hmem ▸ hp.1 w hmem)).not_gt

/-! ## Degrees -/

theorem degree_le_iff : p.degree ≤ d ↔ p.DegreeWithin d := by
  rw [degree, DegreeWithin]
  induction p.terms with
  | nil => simp
  | cons t ts ih => simp [ih]

/-- The degree of a canonical polynomial is that of its first term. -/
theorem Canonical.degree_eq (hp : p.Canonical) (hs : p.terms.head? = some s) : p.degree = s.monomial.degree := by
  refine le_antisymm (degree_le_iff.2 fun t ht => ?_) (degree_le_iff.1 le_rfl s (List.mem_of_mem_head? hs))
  rcases hp.eq_or_lt hs ht with rfl | hlt
  · exact le_rfl
  · rw [Monomial.degree_eq, Monomial.degree_eq]
    exact Finsupp.DegLex.monotone_degree hlt.le

end Polynomial

end ExactAlgebra
