import ExactAlgebra.Proofs.Monomial.Exponents
import ExactAlgebra.Proofs.Monomial.Order
import Mathlib.Data.Finsupp.MonomialOrder.DegLex
import Mathlib.Data.String.Basic

/-!
# The order of monomials is graded lexicographic

One monomial comes before another one when its exponents are the larger ones in the graded lexicographic order. So
the order goes along with products.
-/

namespace ExactAlgebra.Monomial

theorem degree_eq_sum (m : Monomial) : m.degree = (m.factors.map Prod.snd).sum := by
  rw [degree, List.sum, List.foldr_map]

/-- Below the first key of an ascending tally there are no amounts. -/
theorem amount_of_lt {name x : String} {n : ℕ} {fs : Tally String ℕ} (h : Tally.Ascending ((x, n) :: fs))
    (hx : name < x) : Tally.amount ((x, n) :: fs) name = 0 := by
  refine Tally.amount_eq_zero (List.forall_mem_cons.2 ⟨hx.ne', fun f hf => ?_⟩)
  exact (hx.trans (compare_lt_iff_lt.1 (List.rel_of_pairwise_cons h hf))).ne'

/-- The first key of an ascending tally has one amount. -/
theorem amount_head {x : String} {n : ℕ} {fs : Tally String ℕ} (h : Tally.Ascending ((x, n) :: fs)) :
    Tally.amount ((x, n) :: fs) x = n :=
  Tally.amount_of_mem h List.mem_cons_self

/-- Of two lists of powers with the same degree, the one that comes first has the larger exponent at the first
variable where they differ. -/
theorem exists_of_compareFactors {fs gs : Tally String ℕ} (hfs : fs.Ascending) (hgs : gs.Ascending)
    (hpositive : ∀ f ∈ fs, 0 < f.2) (hpositive' : ∀ g ∈ gs, 0 < g.2)
    (hsum : (fs.map Prod.snd).sum = (gs.map Prod.snd).sum) (h : compareFactors fs gs = .lt) :
    ∃ name, (∀ x < name, Tally.amount fs x = Tally.amount gs x) ∧ Tally.amount gs name < Tally.amount fs name := by
  fun_induction compareFactors fs gs with
  | case1 => cases h
  | case2 g gs =>
      -- an extension has a larger degree
      have hg := hpositive' g List.mem_cons_self
      simp only [List.map_nil, List.sum_nil, List.map_cons, List.sum_cons] at hsum
      omega
  | case3 => cases h
  | case4 x m fs y n gs ih =>
      have hm : 0 < m := hpositive (x, m) List.mem_cons_self
      rcases Ordering.then_eq_lt.1 h with hxy | ⟨hxy, hrest⟩
      · have hxy : x < y := compare_lt_iff_lt.1 hxy
        refine ⟨x, fun z hz => ?_, ?_⟩
        · rw [amount_of_lt hfs hz, amount_of_lt hgs (hz.trans hxy)]
        · rwa [amount_head hfs, amount_of_lt hgs hxy]
      · obtain rfl : x = y := Std.compare_eq_iff_eq.1 hxy
        rcases Ordering.then_eq_lt.1 hrest with hnm | ⟨hnm, htail⟩
        · refine ⟨x, fun z hz => ?_, ?_⟩
          · rw [amount_of_lt hfs hz, amount_of_lt hgs hz]
          · rw [amount_head hfs, amount_head hgs]
            exact Nat.compare_eq_lt.1 hnm
        · obtain rfl : n = m := Std.compare_eq_iff_eq.1 hnm
          obtain ⟨-, hfs⟩ := List.pairwise_cons.1 hfs
          obtain ⟨-, hgs⟩ := List.pairwise_cons.1 hgs
          obtain ⟨name, hbelow, hname⟩ := ih hfs hgs (List.forall_mem_cons.1 hpositive).2
            (List.forall_mem_cons.1 hpositive').2 (by simpa using hsum) htail
          refine ⟨name, fun z hz => ?_, ?_⟩
          · rw [Tally.amount_cons, Tally.amount_cons, hbelow z hz]
          · rw [Tally.amount_cons, Tally.amount_cons]
            exact Nat.add_lt_add_left hname _

theorem toDegLex_lt_of_compare {a b : Monomial} (h : compare a b = .lt) :
    toDegLex b.exponents < toDegLex a.exponents := by
  rw [Finsupp.DegLex.lt_iff, ofDegLex_toDegLex, ofDegLex_toDegLex, ← degree_eq, ← degree_eq]
  rw [compare_def] at h
  rcases Ordering.then_eq_lt.1 h with hdegree | ⟨hdegree, h⟩
  · exact .inl (Nat.compare_eq_lt.1 hdegree)
  · have hdegree : b.degree = a.degree := Nat.compare_eq_eq.1 hdegree
    refine .inr ⟨hdegree, Finsupp.Lex.lt_iff.2 ?_⟩
    obtain ⟨name, hbelow, hname⟩ := exists_of_compareFactors a.ascending b.ascending a.positive b.positive
      (by rw [← degree_eq_sum, ← degree_eq_sum, hdegree]) h
    refine ⟨name, fun x hx => ?_, ?_⟩
    · exact ((exponents_apply b x).trans (hbelow x hx).symm).trans (exponents_apply a x).symm
    · simpa [exponents_apply] using hname

example : ([[("x", 2)], [("x", 1), ("y", 1)], [("y", 2)], [("x", 1)], [("y", 1)], []].map ofPowers).Pairwise
    (compare · · = .lt) := by decide

end ExactAlgebra.Monomial
