import ExactAlgebra.Monomial

/-!
# The order of monomials

The comparison of monomials is a linear order: it is transitive, swapping its arguments swaps the answer, and
only a monomial itself compares as equal to it.
-/

namespace ExactAlgebra.Monomial

/-! ## Powers -/

/-- The comparison of two powers: the earlier variable first, then the higher exponent. -/
def comparePowers : String × Nat → String × Nat → Ordering :=
  compareLex (compareOn Prod.fst) fun f g => compareOn Prod.snd g f

instance : Std.TransCmp comparePowers :=
  inferInstanceAs (Std.TransCmp (compareLex (compareOn Prod.fst) fun f g => compareOn Prod.snd g f))

theorem comparePowers_eq {f g : String × Nat} (h : comparePowers f g = .eq) : f = g := by
  obtain ⟨hname, hexponent⟩ := compareLex_eq_eq.1 h
  exact Prod.ext (Std.compare_eq_iff_eq.1 hname) (Std.compare_eq_iff_eq.1 hexponent).symm

/-- Lists of powers are compared lexicographically. -/
theorem compareFactors_eq_compareLex (fs gs : List (String × Nat)) :
    compareFactors fs gs = List.compareLex comparePowers fs gs := by
  fun_induction compareFactors fs gs with
  | case1 => rfl
  | case2 => rfl
  | case3 => rfl
  | case4 x m fs y n gs ih =>
      rw [List.compareLex_cons_cons, ← ih, ← Ordering.then_assoc]
      rfl

theorem eq_of_compareFactors_eq {fs gs : List (String × Nat)} (h : compareFactors fs gs = .eq) :
    fs = gs := by
  fun_induction compareFactors fs gs with
  | case1 => rfl
  | case2 => cases h
  | case3 => cases h
  | case4 x m fs y n gs ih =>
      rw [← Ordering.then_assoc, Ordering.then_eq_eq] at h
      rw [comparePowers_eq (f := (x, m)) (g := (y, n)) h.1, ih h.2]

/-! ## Monomials -/

theorem compare_def (a b : Monomial) :
    compare a b = (compare b.degree a.degree).then (compareFactors a.factors b.factors) := rfl

/-- The comparison is first by degree, then by the powers. -/
theorem compare_eq_compareLex : (compare : Monomial → Monomial → Ordering) =
    compareLex (fun a b => compareOn degree b a)
      (fun a b => List.compareLex comparePowers a.factors b.factors) := by
  funext a b
  rw [compare_def, compareFactors_eq_compareLex]
  rfl

instance : Std.TransCmp fun a b : Monomial => List.compareLex comparePowers a.factors b.factors where
  eq_swap := Std.OrientedCmp.eq_swap
  isLE_trans := Std.TransCmp.isLE_trans

instance : Std.TransOrd Monomial := by
  rw [Std.TransOrd, compare_eq_compareLex]
  infer_instance

instance : Std.LawfulEqOrd Monomial where
  eq_of_compare {a b} h := by
    rw [compare_def, Ordering.then_eq_eq] at h
    exact ext (eq_of_compareFactors_eq h.2)

end ExactAlgebra.Monomial
