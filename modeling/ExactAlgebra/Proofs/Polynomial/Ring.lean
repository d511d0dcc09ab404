import ExactAlgebra.Proofs.Monomial.Exponents
import ExactAlgebra.Proofs.Polynomial.Canonical
import Mathlib.Algebra.CharZero.Infinite
import Mathlib.Algebra.MvPolynomial.CommRing
import Mathlib.Algebra.MvPolynomial.Funext

/-!
# Polynomials as elements of the polynomial ring

Each polynomial denotes an element of the polynomial ring over the rational numbers. The operations denote the
operations of the ring, and a canonical polynomial is determined by what it denotes and by its values.
-/

namespace ExactAlgebra

open MvPolynomial (C X)

namespace Term

/-- The ring element that a term denotes. -/
noncomputable def toRing (t : Term) : MvPolynomial String ℚ :=
  MvPolynomial.monomial t.monomial.exponents t.coefficient

/-- The ring element that a list of terms denotes. -/
noncomputable def sumToRing (ts : List Term) : MvPolynomial String ℚ := (ts.map toRing).sum

@[simp] theorem sumToRing_nil : sumToRing [] = 0 := rfl

@[simp] theorem sumToRing_cons (t : Term) (ts : List Term) :
    sumToRing (t :: ts) = t.toRing + sumToRing ts := List.sum_cons

@[simp] theorem sumToRing_append (ts us : List Term) :
    sumToRing (ts ++ us) = sumToRing ts + sumToRing us := by
  simp [sumToRing]

theorem sumToRing_perm {ts us : List Term} (h : ts.Perm us) : sumToRing ts = sumToRing us :=
  (h.map toRing).sum_eq

theorem sumToRing_gather (t : Term) (ts : List Term) :
    sumToRing (t.gather ts) = t.toRing + sumToRing ts := by
  cases ts with
  | nil => rfl
  | cons u ts =>
      rw [gather]
      split
      · rename_i heq
        rw [sumToRing_cons, sumToRing_cons, ← add_assoc]
        rw [toRing, toRing, toRing, heq, map_add]
      · rw [sumToRing_cons]

theorem sumToRing_foldr_gather (ts : List Term) :
    sumToRing (ts.foldr gather []) = sumToRing ts := by
  induction ts with
  | nil => rfl
  | cons t ts ih => rw [List.foldr_cons, sumToRing_gather, ih, sumToRing_cons]

theorem sumToRing_filter (ts : List Term) :
    sumToRing (ts.filter fun t => t.coefficient != 0) = sumToRing ts := by
  induction ts with
  | nil => rfl
  | cons t ts ih =>
      rw [List.filter_cons]
      split
      · rw [sumToRing_cons, ih, sumToRing_cons]
      · rename_i hzero
        have hzero : t.coefficient = 0 := by simpa using hzero
        rw [ih, sumToRing_cons, toRing, hzero, map_zero, zero_add]

theorem toRing_neg (t : Term) : t.neg.toRing = -t.toRing := map_neg _ _

theorem toRing_scale (k : ℚ) (t : Term) : (t.scale k).toRing = t.toRing * C k := by
  rw [toRing, toRing, mul_comm, MvPolynomial.C_mul_monomial, mul_comm]
  rfl

theorem toRing_mul {s t u : Term} (h : s.mul? t = some u) : u.toRing = s.toRing * t.toRing := by
  obtain ⟨m, hm, rfl⟩ := Option.map_eq_some_iff.1 h
  rw [toRing, Monomial.exponents_mul hm, toRing, toRing, MvPolynomial.monomial_mul]

end Term

namespace Polynomial

/-- The ring element that a polynomial denotes. -/
noncomputable def toRing (p : Polynomial) : MvPolynomial String ℚ := Term.sumToRing p.terms

/-! ## Sums -/

@[simp] theorem toRing_combine (ts : List Term) : (combine ts).toRing = Term.sumToRing ts := by
  rw [toRing, combine, Term.sumToRing_filter, Term.sumToRing_foldr_gather,
    Term.sumToRing_perm (List.mergeSort_perm ts _)]

@[simp] theorem toRing_zero : zero.toRing = 0 := rfl

@[simp] theorem toRing_constant (value : ℚ) : (constant value).toRing = C value := by
  rw [constant, toRing_combine, Term.sumToRing_cons, Term.sumToRing_nil, add_zero]
  rfl

@[simp] theorem toRing_one : one.toRing = 1 := toRing_constant 1

@[simp] theorem toRing_ofVariable (name : String) : (ofVariable name).toRing = X name := by
  rw [ofVariable, toRing_combine, Term.sumToRing_cons, Term.sumToRing_nil, add_zero, Term.toRing,
    Monomial.exponents_ofVariable]
  rfl

@[simp] theorem toRing_neg (p : Polynomial) : p.neg.toRing = -p.toRing := by
  rw [toRing, neg, toRing]
  induction p.terms with
  | nil => simp
  | cons t ts ih =>
      rw [List.map_cons, Term.sumToRing_cons, ih, Term.toRing_neg, Term.sumToRing_cons, neg_add]

@[simp] theorem toRing_add (p q : Polynomial) : (p.add q).toRing = p.toRing + q.toRing := by
  rw [add, toRing_combine, Term.sumToRing_append]
  rfl

@[simp] theorem toRing_sub (p q : Polynomial) : (p.sub q).toRing = p.toRing - q.toRing := by
  rw [sub, toRing_add, toRing_neg, sub_eq_add_neg]

@[simp] theorem toRing_scale (p : Polynomial) (k : ℚ) : (p.scale k).toRing = p.toRing * C k := by
  rw [scale, toRing_combine, toRing]
  induction p.terms with
  | nil => simp
  | cons t ts ih =>
      rw [List.map_cons, Term.sumToRing_cons, ih, Term.toRing_scale, Term.sumToRing_cons, add_mul]

/-! ## Products and powers -/

theorem map_of_mapM_eq_some {α β γ : Type} {f : α → Option β} {g : α → γ} {v : β → γ}
    (hf : ∀ x y, f x = some y → v y = g x) {xs : List α} {ys : List β}
    (h : xs.mapM f = some ys) : ys.map v = xs.map g := by
  induction xs generalizing ys with
  | nil => cases h; rfl
  | cons x xs ih =>
      simp only [List.mapM_cons, bind, Option.bind_eq_some_iff, pure, Option.some.injEq] at h
      obtain ⟨y, hy, ys, hys, rfl⟩ := h
      rw [List.map_cons, List.map_cons, hf x y hy, ih hys]

theorem toRing_termProduct {b : Budget} {s t u : Term} (h : termProduct? b s t = some u) :
    u.toRing = s.toRing * t.toRing :=
  Term.toRing_mul (Option.filter_eq_some_iff.1 h).1

theorem sumToRing_termProducts {b : Budget} {p q : Polynomial} {ts : List Term}
    (h : termProducts? b p q = some ts) : Term.sumToRing ts = p.toRing * q.toRing := by
  rw [Term.sumToRing, map_of_mapM_eq_some (fun pair _ => toRing_termProduct) h, toRing, toRing]
  induction p.terms with
  | nil => simp
  | cons s ss ih =>
      rw [List.flatMap_cons, List.map_append, List.sum_append, ih, Term.sumToRing_cons, add_mul,
        List.map_map]
      congr 1
      exact List.sum_map_mul_left q.terms Term.toRing s.toRing

theorem toRing_mul {b : Budget} {p q r : Polynomial} (h : mul b p q = .ok r) :
    r.toRing = p.toRing * q.toRing := by
  simp only [mul] at h
  split at h
  · cases h
  · split at h
    · cases h
    · rename_i products hproducts
      split at h
      · cases h
      · obtain ⟨_, _, h⟩ := Outcome.bind_eq_ok.1 h
        cases h
        rw [toRing_combine, sumToRing_termProducts hproducts]

theorem toRing_mulRepeatedly {b : Budget} {p start r : Polynomial} {n : ℕ}
    (h : mulRepeatedly b p start n = .ok r) : r.toRing = start.toRing * p.toRing ^ n := by
  induction n generalizing start with
  | zero => cases h; rw [pow_zero, mul_one]
  | succ n ih =>
      rw [mulRepeatedly] at h
      split at h
      · cases h
      · rename_i product hproduct
        rw [ih h, toRing_mul hproduct, pow_succ', mul_assoc]

theorem toRing_pow {b : Budget} {p r : Polynomial} {n : ℕ} (h : pow b p n = .ok r) :
    r.toRing = p.toRing ^ n := by
  rw [toRing_mulRepeatedly h, toRing_one, one_mul]

theorem toRing_of_asConstant {p : Polynomial} {c : ℚ} (h : p.asConstant? = some c) :
    p.toRing = C c := by
  obtain ⟨ts⟩ := p
  match ts with
  | [] =>
      cases h
      exact (map_zero C).symm
  | [t] =>
      simp only [asConstant?, Option.ite_none_right_eq_some, Option.some.injEq] at h
      obtain ⟨hconstant, rfl⟩ := h
      have hone : t.monomial = Monomial.one := Monomial.ext (List.isEmpty_iff.1 hconstant)
      rw [toRing, Term.sumToRing_cons, Term.sumToRing_nil, add_zero, Term.toRing, hone]
      rfl
  | _ :: _ :: _ => cases h

/-! ## Uniqueness of the canonical form -/

/-- The coefficients of a polynomial, listed under their monomials. -/
def coefficients (p : Polynomial) : Tally Monomial ℚ :=
  p.terms.map fun t => (t.monomial, t.coefficient)

theorem coeff_toRing (p : Polynomial) (m : Monomial) :
    MvPolynomial.coeff m.exponents p.toRing = p.coefficients.amount m := by
  rw [toRing, coefficients]
  induction p.terms with
  | nil => rfl
  | cons t ts ih =>
      rw [Term.sumToRing_cons, MvPolynomial.coeff_add, ih, Term.toRing, MvPolynomial.coeff_monomial,
        List.map_cons, Tally.amount_cons]
      simp only [Monomial.exponents_injective.eq_iff]

theorem Canonical.ascending {p : Polynomial} (h : p.Canonical) : p.coefficients.Ascending :=
  List.pairwise_map.2 h.2

theorem Canonical.coeff_of_mem {p : Polynomial} (h : p.Canonical) {t : Term} (ht : t ∈ p.terms) :
    MvPolynomial.coeff t.monomial.exponents p.toRing = t.coefficient := by
  rw [coeff_toRing]
  exact Tally.amount_of_mem h.ascending (List.mem_map_of_mem ht)

theorem Canonical.coefficients_ne_zero {p : Polynomial} (h : p.Canonical) :
    ∀ e ∈ p.coefficients, e.2 ≠ 0 := by
  intro e he
  obtain ⟨t, ht, rfl⟩ := List.mem_map.1 he
  exact h.1 t ht

theorem coefficients_injective : Function.Injective coefficients := by
  rintro ⟨ts⟩ ⟨us⟩ h
  have hinj : Function.Injective fun t : Term => (t.monomial, t.coefficient) := by
    rintro ⟨c, m⟩ ⟨d, n⟩ he
    cases he
    rfl
  exact congrArg mk (hinj.list_map h)

/-- Canonical polynomials that denote the same ring element are equal. -/
theorem Canonical.ext {p q : Polynomial} (hp : p.Canonical) (hq : q.Canonical)
    (h : p.toRing = q.toRing) : p = q := by
  refine coefficients_injective (hp.ascending.ext hq.ascending hp.coefficients_ne_zero
    hq.coefficients_ne_zero fun m => ?_)
  rw [← coeff_toRing, ← coeff_toRing, h]

/-! ## Constants -/

theorem Canonical.eq_constant {p : Polynomial} {v : ℚ} (hp : p.Canonical) (h : p.toRing = MvPolynomial.C v) :
    p = constant v :=
  hp.ext (canonical_combine _) (h.trans (toRing_constant v).symm)

theorem asConstant_constant (x : ℚ) : (constant x).asConstant? = some x := by
  have hterms : (constant x).terms = [Term.constant x].filter fun t => t.coefficient != 0 := by
    simp [constant, combine, Term.gather]
  unfold asConstant?
  rw [hterms]
  by_cases hx : x = 0
  · simp [Term.constant, hx]
  · simp [Term.constant, hx, Term.isConstant, Monomial.isConstant, Monomial.one]

theorem constant_injective : Function.Injective constant := by
  intro x y h
  have hvalue := congrArg asConstant? h
  rw [asConstant_constant, asConstant_constant] at hvalue
  exact Option.some.inj hvalue

/-- A polynomial in canonical form has the value of a constant just when it is that constant. -/
theorem Canonical.asConstant_eq_some_iff {p : Polynomial} {c : ℚ} (hp : p.Canonical) :
    p.asConstant? = some c ↔ p = constant c := by
  constructor
  · intro h
    exact hp.eq_constant (toRing_of_asConstant h)
  · rintro rfl
    exact asConstant_constant c

/-! ## Values -/

/-- The value at an assignment of numbers to the variables. -/
def eval (ρ : String → ℚ) (p : Polynomial) : ℚ :=
  (p.terms.map fun t => t.coefficient * t.monomial.eval ρ).sum

theorem eval_toRing (ρ : String → ℚ) (p : Polynomial) :
    MvPolynomial.eval ρ p.toRing = p.eval ρ := by
  rw [toRing, eval]
  induction p.terms with
  | nil => simp
  | cons t ts ih =>
      rw [Term.sumToRing_cons, map_add, ih, Term.toRing, MvPolynomial.eval_monomial, List.map_cons,
        List.sum_cons, Monomial.eval_eq_prod]

@[simp] theorem eval_constant (ρ : String → ℚ) (value : ℚ) : (constant value).eval ρ = value := by
  simp [← eval_toRing]

@[simp] theorem eval_ofVariable (ρ : String → ℚ) (name : String) :
    (ofVariable name).eval ρ = ρ name := by
  simp [← eval_toRing]

@[simp] theorem eval_neg (ρ : String → ℚ) (p : Polynomial) : p.neg.eval ρ = -p.eval ρ := by
  simp [← eval_toRing]

@[simp] theorem eval_add (ρ : String → ℚ) (p q : Polynomial) :
    (p.add q).eval ρ = p.eval ρ + q.eval ρ := by
  simp [← eval_toRing]

@[simp] theorem eval_sub (ρ : String → ℚ) (p q : Polynomial) :
    (p.sub q).eval ρ = p.eval ρ - q.eval ρ := by
  simp [← eval_toRing]

@[simp] theorem eval_scale (ρ : String → ℚ) (p : Polynomial) (k : ℚ) :
    (p.scale k).eval ρ = p.eval ρ * k := by
  simp [← eval_toRing]

theorem eval_mul {b : Budget} {p q r : Polynomial} (ρ : String → ℚ) (h : mul b p q = .ok r) :
    r.eval ρ = p.eval ρ * q.eval ρ := by
  simp [← eval_toRing, toRing_mul h]

theorem eval_pow {b : Budget} {p r : Polynomial} {n : ℕ} (ρ : String → ℚ) (h : pow b p n = .ok r) :
    r.eval ρ = p.eval ρ ^ n := by
  simp [← eval_toRing, toRing_pow h]

theorem eval_of_asConstant {p : Polynomial} {c : ℚ} (ρ : String → ℚ) (h : p.asConstant? = some c) :
    p.eval ρ = c := by
  simp [← eval_toRing, toRing_of_asConstant h]

/-- Canonical polynomials with the same values everywhere are equal. -/
theorem Canonical.ext_eval {p q : Polynomial} (hp : p.Canonical) (hq : q.Canonical)
    (h : ∀ ρ, p.eval ρ = q.eval ρ) : p = q :=
  hp.ext hq (MvPolynomial.funext fun ρ => by rw [eval_toRing, eval_toRing, h ρ])

end Polynomial

end ExactAlgebra
