import ExactAlgebra.Expansion
import ExactAlgebra.Proofs.Monomial.Order
import ExactAlgebra.Proofs.Outcome
import Mathlib.Algebra.Field.Rat

/-!
# Canonical form

Every operation on polynomials answers in canonical form. Sorting and gathering give strictly ascending
monomials; leaving out the terms with coefficient zero keeps them so.
-/

namespace ExactAlgebra

/-! ## Sorting and gathering -/

namespace Term

/-- The monomials of a list of terms are strictly ascending. -/
def Ascending (ts : List Term) : Prop :=
  ts.Pairwise fun a b => compare a.monomial b.monomial = .lt

theorem before_trans (a b c : Term) (hab : a.before b = true) (hbc : b.before c = true) :
    a.before c = true :=
  Std.TransCmp.isLE_trans hab hbc

theorem before_total (a b : Term) : (a.before b || b.before a) = true := by
  rw [before, before, Std.OrientedOrd.eq_swap (a := b.monomial)]
  cases compare a.monomial b.monomial <;> rfl

theorem lt_of_before_of_ne {a b : Term} (h : a.before b = true) (hne : a.monomial ≠ b.monomial) :
    compare a.monomial b.monomial = .lt := by
  rw [before] at h
  cases hc : compare a.monomial b.monomial with
  | lt => rfl
  | eq => exact absurd (Std.compare_eq_iff_eq.1 hc) hne
  | gt => rw [hc] at h; cases h

/-- Every monomial after gathering was one before. -/
theorem monomial_mem_gather {t u : Term} {ts : List Term} (h : u ∈ t.gather ts) :
    u.monomial = t.monomial ∨ u ∈ ts := by
  cases ts with
  | nil => simp_all [gather]
  | cons v ts =>
      rw [gather] at h
      split at h
      · rcases List.mem_cons.1 h with rfl | h
        · exact .inl rfl
        · exact .inr (List.mem_cons_of_mem _ h)
      · rcases List.mem_cons.1 h with rfl | h
        · exact .inl rfl
        · exact .inr h

theorem Ascending.gather {t : Term} {ts : List Term} (h : Ascending ts)
    (ht : ∀ u ∈ ts, t.before u = true) : Ascending (t.gather ts) := by
  cases ts with
  | nil => exact List.pairwise_singleton _ _
  | cons u ts =>
      obtain ⟨hu, hts⟩ := List.pairwise_cons.1 h
      rw [Term.gather]
      split
      · rename_i heq
        exact List.pairwise_cons.2 ⟨fun v hv => heq ▸ hu v hv, hts⟩
      · rename_i hne
        have hlt := lt_of_before_of_ne (ht u List.mem_cons_self) hne
        refine List.pairwise_cons.2 ⟨fun v hv => ?_, h⟩
        rcases List.mem_cons.1 hv with rfl | hv
        · exact hlt
        · exact Std.TransCmp.lt_trans hlt (hu v hv)

theorem before_of_mem_foldr_gather {t : Term} {ts : List Term} (h : ∀ u ∈ ts, t.before u = true) :
    ∀ u ∈ ts.foldr Term.gather [], t.before u = true := by
  induction ts with
  | nil => simp
  | cons v ts ih =>
      obtain ⟨hv, hts⟩ := List.forall_mem_cons.1 h
      intro u hu
      rcases monomial_mem_gather hu with he | hu
      · rwa [before, he]
      · exact ih hts u hu

theorem ascending_foldr_gather {ts : List Term} (h : ts.Pairwise fun a b => a.before b = true) :
    Ascending (ts.foldr Term.gather []) := by
  induction ts with
  | nil => exact .nil
  | cons t ts ih =>
      obtain ⟨ht, hts⟩ := List.pairwise_cons.1 h
      exact (ih hts).gather (before_of_mem_foldr_gather ht)

end Term

namespace Polynomial

theorem canonical_combine (ts : List Term) : (combine ts).Canonical := by
  constructor
  · intro t ht
    simpa using (List.mem_filter.1 ht).2
  · exact (Term.ascending_foldr_gather
      (List.pairwise_mergeSort Term.before_trans Term.before_total ts)).filter _

theorem Canonical.neg {p : Polynomial} (h : p.Canonical) : p.neg.Canonical := by
  constructor
  · intro t ht
    obtain ⟨u, hu, rfl⟩ := List.mem_map.1 ht
    exact neg_ne_zero.2 (h.1 u hu)
  · exact List.pairwise_map.2 h.2

/-! ## Products and powers -/

theorem canonical_mul {b : Budget} {p q r : Polynomial} (h : mul b p q = .ok r) : r.Canonical := by
  simp only [mul] at h
  split at h
  · cases h
  · split at h
    · cases h
    · split at h
      · cases h
      · obtain ⟨_, _, h⟩ := Outcome.bind_eq_ok.1 h
        cases h
        exact canonical_combine _

theorem canonical_mulRepeatedly {b : Budget} {p start r : Polynomial} {n : Nat}
    (hstart : start.Canonical) (h : mulRepeatedly b p start n = .ok r) : r.Canonical := by
  induction n generalizing start with
  | zero => cases h; exact hstart
  | succ n ih =>
      rw [mulRepeatedly] at h
      split at h
      · cases h
      · rename_i product hproduct
        exact ih (canonical_mul hproduct) h

theorem canonical_pow {b : Budget} {p r : Polynomial} {n : Nat} (h : pow b p n = .ok r) : r.Canonical :=
  canonical_mulRepeatedly (canonical_combine _) h

end Polynomial

end ExactAlgebra
