import ExactAlgebra.Proofs.Expansion
import ExactAlgebra.Proofs.Factorization.Written

/-!
# Answers of factorization

An expression is factorized when it expands to a whole number from two to the limit. Larger numbers are too complex, and
everything else is not factorable.
-/

namespace ExactAlgebra

variable {limits : Limits} {text : List Char} {p : Polynomial}

theorem Polynomial.canonical_of_ofText (h : ofText limits text = .ok p) : p.Canonical := by
  obtain ⟨e, _, he⟩ := Outcome.bind_eq_ok.1 h
  exact Expr.canonical_of_expand he

/-- A text that is read leaves room for one level of nesting. -/
theorem Polynomial.maxDepth_pos_of_ofText (h : ofText limits text = .ok p) : 0 < limits.maxDepth.toNat := by
  obtain ⟨e, he, _⟩ := Outcome.bind_eq_ok.1 h
  obtain ⟨_, d, _, hlimit, _⟩ := Latex.parse_eq_ok_iff.1 (Outcome.mapError_eq_ok.1 he)
  omega

/-- A constant polynomial is that of one number only. -/
theorem Polynomial.exists_constant_eq_iff {n : ℤ} {P : ℤ → Prop} :
    (∃ m : ℤ, Polynomial.constant n = .constant m ∧ P m) ↔ P n := by
  constructor
  · rintro ⟨m, hm, hP⟩
    rwa [Int.cast_injective (constant_injective hm)]
  · intro hP
    exact ⟨n, rfl, hP⟩

namespace Transformation

theorem primeFactorize_of_error {err : Error} (h : Polynomial.ofText limits text = .error err) :
    primeFactorize limits text = .error err := by
  rw [primeFactorize, h]
  rfl

/-- A whole number above one is factorized, unless it is above the limit. -/
theorem primeFactorize_of_constant {n : ℤ} (h : Polynomial.ofText limits text = .ok (.constant n)) (hn : 2 ≤ n) :
    primeFactorize limits text =
      if limits.maxFactorInput.toNat < n then .error (.tooComplex (.factorInput n))
      else .ok (primePowersLatex (primeFactors (UInt64.ofNat n.toNat))) := by
  have hfactorable : ¬ ((n : ℚ).den ≠ 1 || (n : ℚ).num < 2) := by
    simpa using Int.not_lt.2 hn
  rw [primeFactorize, h, Outcome.ok_bind]
  simp only [Polynomial.asConstant_constant]
  rw [if_neg hfactorable]
  simp only [Rat.num_intCast]
  rfl

/-- Everything else is not factorable. -/
theorem primeFactorize_of_not_constant (h : Polynomial.ofText limits text = .ok p)
    (hp : ¬ ∃ n : ℤ, p = .constant n ∧ 2 ≤ n) :
    primeFactorize limits text = .error (.notFactorable (String.ofList (Text.trim text))) := by
  have hcanonical := Polynomial.canonical_of_ofText h
  rw [primeFactorize, h, Outcome.ok_bind]
  cases hc : p.asConstant? with
  | none => rfl
  | some c =>
      have hunfit : c.den ≠ 1 || c.num < 2 := by
        by_contra hfit
        simp only [ne_eq, decide_not, Bool.or_eq_true, Bool.not_eq_true', decide_eq_false_iff_not, decide_eq_true_eq,
          not_or, not_not, not_lt] at hfit
        refine hp ⟨c.num, ?_, hfit.2⟩
        rw [(Rat.den_eq_one_iff c).1 hfit.1]
        exact hcanonical.asConstant_eq_some_iff.1 hc
      simp only [if_pos hunfit]

/-- The prime factors of a word are read back as a product of primes with the word as its value. -/
theorem exists_primeProduct {n : UInt64} (hn : 2 ≤ n.toNat) :
    ∃ tree primes, (∀ depth, 0 < depth → Latex.parse depth (primePowersLatex (primeFactors n)).toList = .ok tree) ∧
      PrimeProduct tree primes ∧ primes.Pairwise (· < ·) ∧ ∀ ρ, tree.HasValue ρ n.toNat := by
  have hprimes := primePowers_primeFactors n
  have hproduct := factorsProduct_primeFactors (n := n) (by omega)
  have hne : primeFactors n ≠ [] := by
    intro hnil
    rw [hnil, factorsProduct_nil] at hproduct
    omega
  refine ⟨factorsTree (primeFactors n), (primeFactors n).map fun f => f.1.toNat, fun depth hdepth => ?_,
    primeProduct_factorsTree hne hprimes.prime hprimes.positive, ?_, fun ρ => ?_⟩
  · exact parse_primePowersLatex hdepth hne hprimes.prime hprimes.positive multiplicity_primeFactors_lt
  · exact List.pairwise_map.2 (hprimes.ascending.imp fun hlt => UInt64.lt_iff_toNat_lt.1 hlt)
  · rw [← hproduct]
    exact hasValue_factorsTree _

/-- A text that cannot be expanded has no prime factors either. A text that expands to a polynomial is factorized just
when this is a whole number from two to the limit; the answer is read back as a product of ascending primes with that
value. It is too complex just when it is a larger whole number, and not factorable in all other cases. -/
theorem primeFactorize_outcome (limits : Limits) (text : List Char) :
    (∀ err, Polynomial.ofText limits text = .error err → primeFactorize limits text = .error err) ∧
      ∀ p, Polynomial.ofText limits text = .ok p →
        ((∃ s, primeFactorize limits text = .ok s) ↔
          ∃ n : ℤ, p = .constant n ∧ 2 ≤ n ∧ n ≤ limits.maxFactorInput.toNat) ∧
        ((∃ excess, primeFactorize limits text = .error (.tooComplex excess)) ↔
          ∃ n : ℤ, p = .constant n ∧ 2 ≤ n ∧ limits.maxFactorInput.toNat < n) ∧
        (primeFactorize limits text = .error (.notFactorable (String.ofList (Text.trim text))) ↔
          ¬ ∃ n : ℤ, p = .constant n ∧ 2 ≤ n) ∧
        ∀ (n : ℤ) (s : String), p = .constant n → primeFactorize limits text = .ok s →
          ∃ tree primes, Expr.ofText limits s.toList = .ok tree ∧
            (∀ depth, 0 < depth → Latex.parse depth s.toList = .ok tree) ∧ PrimeProduct tree primes ∧
            primes.Pairwise (· < ·) ∧ ∀ ρ, tree.HasValue ρ n := by
  refine ⟨fun err => primeFactorize_of_error, fun p hp => ?_⟩
  by_cases hconstant : ∃ n : ℤ, p = .constant n ∧ 2 ≤ n
  · obtain ⟨n, rfl, hn⟩ := hconstant
    rw [primeFactorize_of_constant hp hn]
    simp only [Polynomial.exists_constant_eq_iff]
    by_cases hlarge : limits.maxFactorInput.toNat < n
    · rw [if_pos hlarge]
      exact ⟨iff_of_false nofun (by omega), iff_of_true ⟨_, rfl⟩ ⟨hn, hlarge⟩, iff_of_false nofun (by omega), nofun⟩
    · rw [if_neg hlarge]
      refine ⟨iff_of_true ⟨_, rfl⟩ ⟨hn, not_lt.1 hlarge⟩, iff_of_false nofun (by omega),
        iff_of_false nofun (by omega), ?_⟩
      rintro m _ hm ⟨⟩
      obtain rfl : n = m := Int.cast_injective (Polynomial.constant_injective hm)
      have hbound := limits.maxFactorInput.toNat_lt
      have hword : (UInt64.ofNat n.toNat).toNat = n.toNat := by
        rw [UInt64.toNat_ofNat']
        omega
      have hvalue : ((UInt64.ofNat n.toNat).toNat : ℚ) = n := by
        rw [hword, ← Int.cast_natCast, Int.toNat_of_nonneg (by omega)]
      obtain ⟨tree, primes, hparse, hproduct⟩ := exists_primeProduct (n := UInt64.ofNat n.toNat) (by omega)
      have hread := hparse _ (Polynomial.maxDepth_pos_of_ofText hp)
      rw [hvalue] at hproduct
      exact ⟨tree, primes, Outcome.mapError_eq_ok.2 hread, hparse, hproduct⟩
  · have hlarger {P : ℤ → Prop} : ¬ ∃ n : ℤ, p = .constant n ∧ 2 ≤ n ∧ P n := by
      rintro ⟨n, hn, htwo, -⟩
      exact hconstant ⟨n, hn, htwo⟩
    rw [primeFactorize_of_not_constant hp hconstant]
    exact ⟨iff_of_false nofun hlarger, iff_of_false nofun hlarger, iff_of_true rfl hconstant, nofun⟩

end Transformation

end ExactAlgebra
