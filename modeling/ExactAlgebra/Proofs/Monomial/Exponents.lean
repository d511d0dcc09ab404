import ExactAlgebra.Monomial
import ExactAlgebra.Proofs.Tally
import Mathlib.Data.Finsupp.Weight

/-!
# Monomials as functions to exponents

A monomial is determined by the exponent that it gives each variable. A product has the sums of the exponents,
and it exists exactly when some monomial has these sums.
-/

namespace ExactAlgebra.Monomial

/-- The exponents of all variables. -/
noncomputable def exponents (m : Monomial) : String →₀ ℕ := (m.factors.map fun f => Finsupp.single f.1 f.2).sum

theorem exponents_apply (m : Monomial) (name : String) :
    m.exponents name = Tally.amount m.factors name := by
  rw [exponents]
  induction m.factors with
  | nil => rfl
  | cons f fs ih =>
      rw [List.map_cons, List.sum_cons, Finsupp.add_apply, ih, Finsupp.single_apply,
        Tally.amount_cons]

theorem mem_factors_iff {m : Monomial} {name : String} {n : ℕ} :
    (name, n) ∈ m.factors ↔ m.exponents name = n ∧ n ≠ 0 := by
  rw [exponents_apply]
  exact Tally.mem_iff m.ascending fun f hf => (m.positive f hf).ne'

theorem exponents_injective : Function.Injective exponents := by
  intro a b h
  refine Monomial.ext (a.ascending.ext b.ascending (fun f hf => (a.positive f hf).ne')
    (fun f hf => (b.positive f hf).ne') fun name => ?_)
  rw [← exponents_apply, ← exponents_apply, h]

theorem exponents_lt (m : Monomial) (name : String) : m.exponents name < exponentBound := by
  by_cases h : m.exponents name = 0
  · rw [h]
    decide
  · exact m.bounded _ (mem_factors_iff.2 ⟨rfl, h⟩)

@[simp] theorem exponents_one : one.exponents = 0 := rfl

@[simp] theorem exponents_ofVariable (name : String) :
    (ofVariable name).exponents = Finsupp.single name 1 := by
  simp [exponents, ofVariable]

theorem degree_eq (m : Monomial) : m.degree = m.exponents.degree := by
  rw [degree, exponents]
  induction m.factors with
  | nil => simp
  | cons f fs ih => simp [ih]

/-! ## Products -/

theorem amount_product (a b : Monomial) (name : String) :
    Tally.amount (Tally.addAll b.factors a.factors) name = (a.exponents + b.exponents) name := by
  rw [Tally.amount_addAll, Finsupp.add_apply, exponents_apply, exponents_apply, add_comm]

theorem exponents_mul {a b m : Monomial} (h : a.mul? b = some m) :
    m.exponents = a.exponents + b.exponents := by
  simp only [mul?] at h
  split at h
  · cases h
    ext name
    rw [exponents_apply, amount_product]
  · cases h

theorem exists_mul {a b : Monomial} (h : ∀ name, (a.exponents + b.exponents) name < exponentBound) :
    ∃ m, a.mul? b = some m := by
  have hbounded : ∀ f ∈ Tally.addAll b.factors a.factors, f.2 < exponentBound := by
    intro f hf
    rw [← Tally.amount_of_mem (a.ascending.addAll b.factors) hf, amount_product]
    exact h f.1
  simp only [mul?, dif_pos hbounded]
  exact ⟨_, rfl⟩

/-- The product is the monomial with the sums of the exponents, if there is one. -/
theorem mul?_eq_some_iff {a b m : Monomial} :
    a.mul? b = some m ↔ m.exponents = a.exponents + b.exponents := by
  refine ⟨exponents_mul, fun h => ?_⟩
  obtain ⟨m', hm'⟩ := exists_mul (a := a) (b := b) fun name => h ▸ m.exponents_lt name
  rw [hm', exponents_injective ((exponents_mul hm').trans h.symm)]

/-! ## Monomials with given exponents -/

/-- A power of one variable. -/
def ofPower (f : String × ℕ) (hpositive : 0 < f.2) (hbounded : f.2 < exponentBound) : Monomial :=
  ⟨[f], List.pairwise_singleton _ _, by simpa using hpositive, by simpa using hbounded⟩

@[simp] theorem exponents_ofPower {f : String × ℕ} (hpositive : 0 < f.2) (hbounded : f.2 < exponentBound) :
    (ofPower f hpositive hbounded).exponents = Finsupp.single f.1 f.2 := by
  simp [exponents, ofPower]

/-- All exponents below the bound belong to a monomial. -/
theorem exists_exponents_eq {e : String →₀ ℕ} (h : ∀ name, e name < exponentBound) :
    ∃ m : Monomial, m.exponents = e := by
  induction e using Finsupp.induction with
  | zero => exact ⟨one, rfl⟩
  | single_add name n e hname hn ih =>
      obtain ⟨m, hm⟩ := ih fun x => lt_of_le_of_lt (by simp) (h x)
      have hbounded : n < exponentBound := by simpa [Finsupp.notMem_support_iff.1 hname] using h name
      have hpower := exponents_ofPower (f := (name, n)) (Nat.pos_of_ne_zero hn) hbounded
      obtain ⟨r, hr⟩ := exists_mul (a := ofPower (name, n) (Nat.pos_of_ne_zero hn) hbounded) (b := m) (by
        rw [hpower, hm]
        exact h)
      exact ⟨r, by rw [exponents_mul hr, hpower, hm]⟩

/-- Some exponents of a monomial belong to a monomial of no greater degree. -/
theorem exists_exponents_eq_of_add {r : Monomial} {e e' : String →₀ ℕ} (h : r.exponents = e + e') :
    ∃ m : Monomial, m.exponents = e ∧ m.degree ≤ r.degree := by
  have hle (name : String) : e name ≤ r.exponents name := by simp [h]
  obtain ⟨m, rfl⟩ := exists_exponents_eq fun name => lt_of_le_of_lt (hle name) (r.exponents_lt name)
  refine ⟨m, rfl, ?_⟩
  rw [degree_eq, degree_eq, h, map_add]
  exact Nat.le_add_right _ _

/-! ## Values -/

/-- The value at an assignment of numbers to the variables. -/
def eval (ρ : String → ℚ) (m : Monomial) : ℚ := (m.factors.map fun f => ρ f.1 ^ f.2).prod

theorem eval_eq_prod (ρ : String → ℚ) (m : Monomial) :
    m.eval ρ = m.exponents.prod fun name n => ρ name ^ n := by
  rw [eval, exponents]
  induction m.factors with
  | nil => simp
  | cons f fs ih =>
      rw [List.map_cons, List.prod_cons, ih, List.map_cons, List.sum_cons,
        Finsupp.prod_add_index' (h := fun name n => ρ name ^ n) (fun _ => pow_zero _)
          (fun _ _ _ => pow_add _ _ _),
        Finsupp.prod_single_index (h := fun name n => ρ name ^ n) (pow_zero _)]

end ExactAlgebra.Monomial
