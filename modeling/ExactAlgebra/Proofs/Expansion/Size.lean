import ExactAlgebra.Proofs.Expansion
import ExactAlgebra.Proofs.Limits.Operations

/-!
# The size of an expansion

The degree of every expansion is bounded, although only products and powers look at it. The number of terms and the
width of the coefficients are bounded where the root is a product or a power, in any parentheses and signs.
-/

namespace ExactAlgebra

theorem bitLength_le_iff {n bits : ℕ} : bitLength n ≤ bits ↔ n < 2 ^ bits := by
  unfold bitLength
  split
  · rename_i hzero
    simp [hzero]
  · rename_i hzero
    exact Nat.succ_le_iff.trans (Nat.log2_lt hzero)

theorem mem_of_mapM_eq_some {α β : Type} {f : α → Option β} {xs : List α} {ys : List β} {y : β}
    (h : xs.mapM f = some ys) (hy : y ∈ ys) : ∃ x ∈ xs, f x = some y := by
  induction xs generalizing ys with
  | nil => cases h; cases hy
  | cons x xs ih =>
      simp only [List.mapM_cons, bind, Option.bind_eq_some_iff, pure, Option.some.injEq] at h
      obtain ⟨z, hz, zs, hzs, rfl⟩ := h
      rcases List.mem_cons.1 hy with rfl | hy
      · exact ⟨x, List.mem_cons_self, hz⟩
      · obtain ⟨w, hw, hwy⟩ := ih hzs hy
        exact ⟨w, List.mem_cons_of_mem x hw, hwy⟩

theorem Term.exists_mem_of_mem_foldr_gather {ts : List Term} {u : Term} (hu : u ∈ ts.foldr Term.gather []) :
    ∃ t ∈ ts, u.monomial = t.monomial := by
  induction ts with
  | nil => cases hu
  | cons t ts ih =>
      rcases Term.monomial_mem_gather hu with heq | hu
      · exact ⟨t, List.mem_cons_self, heq⟩
      · obtain ⟨v, hv, heq⟩ := ih hu
        exact ⟨v, List.mem_cons_of_mem t hv, heq⟩

namespace Polynomial

/-- No term has a larger degree. -/
def DegreeWithin (degree : ℕ) (p : Polynomial) : Prop := ∀ t ∈ p.terms, t.monomial.degree ≤ degree

/-- Numerators and denominators of the coefficients have at most this many bits. -/
def CoefficientsWithin (bits : ℕ) (p : Polynomial) : Prop :=
  ∀ t ∈ p.terms, t.coefficient.num.natAbs < 2 ^ bits ∧ t.coefficient.den < 2 ^ bits

/-- Terms and coefficients are within the budget for a product. -/
structure SizeWithin (b : Budget) (p : Polynomial) : Prop where
  terms : p.terms.length ≤ b.maxTerms.toNat
  coefficients : p.CoefficientsWithin b.maxCoefficientBits.toNat

variable {b : Budget} {p q r : Polynomial} {d : ℕ}

/-! ## Coefficients -/

theorem coefficientWidth_le_iff {bits : ℕ} : p.coefficientWidth ≤ bits ↔ p.CoefficientsWithin bits := by
  unfold coefficientWidth CoefficientsWithin
  induction p.terms with
  | nil => simp
  | cons t ts ih =>
      rw [List.map_cons, List.foldr_cons, max_le_iff, ih, coefficientBits, max_le_iff, bitLength_le_iff,
        bitLength_le_iff, List.forall_mem_cons]

theorem CoefficientsWithin.neg {bits : ℕ} (h : p.CoefficientsWithin bits) : p.neg.CoefficientsWithin bits := by
  intro t ht
  obtain ⟨u, hu, rfl⟩ := List.mem_map.1 ht
  simpa [Term.neg] using h u hu

theorem SizeWithin.neg (h : p.SizeWithin b) : p.neg.SizeWithin b :=
  ⟨by simpa [Polynomial.neg] using h.terms, h.coefficients.neg⟩

theorem sizeWithin_mul (h : mul b p q = .ok r) : r.SizeWithin b := by
  obtain ⟨_, _, _, _, hterms, hwidth⟩ := mul_eq_ok_iff.1 h
  exact ⟨hterms, coefficientWidth_le_iff.1 hwidth⟩

/-- A power with a positive exponent ends in a product. -/
theorem mulRepeatedly_succ_eq_ok {n : ℕ} (h : mulRepeatedly b p q (n + 1) = .ok r) :
    ∃ s, mul b s p = .ok r := by
  induction n generalizing q with
  | zero =>
      rw [mulRepeatedly] at h
      split at h
      · cases h
      · rename_i product hproduct
        cases h
        exact ⟨q, hproduct⟩
  | succ n ih =>
      rw [mulRepeatedly] at h
      split at h
      · cases h
      · exact ih h

/-! ## Degrees -/

theorem DegreeWithin.mono {d' : ℕ} (h : p.DegreeWithin d) (hd : d ≤ d') : p.DegreeWithin d' :=
  fun t ht => (h t ht).trans hd

/-- The monomials of a sum are among those of the summands, though some may cancel. -/
theorem exists_mem_of_mem_combine {ts : List Term} {u : Term} (hu : u ∈ (combine ts).terms) :
    ∃ t ∈ ts, u.monomial = t.monomial := by
  obtain ⟨t, ht, heq⟩ := Term.exists_mem_of_mem_foldr_gather (List.mem_filter.1 hu).1
  exact ⟨t, (List.mergeSort_perm ts _).mem_iff.1 ht, heq⟩

theorem degreeWithin_combine {ts : List Term} (h : ∀ t ∈ ts, t.monomial.degree ≤ d) :
    (combine ts).DegreeWithin d := by
  intro u hu
  obtain ⟨t, ht, heq⟩ := exists_mem_of_mem_combine hu
  rw [heq]
  exact h t ht

theorem degreeWithin_constant (value : ℚ) : (constant value).DegreeWithin d :=
  degreeWithin_combine fun t ht => by
    rw [List.mem_singleton.1 ht]
    exact Nat.zero_le d

theorem degreeWithin_ofVariable (name : String) : (ofVariable name).DegreeWithin 1 :=
  degreeWithin_combine fun t ht => by
    rw [List.mem_singleton.1 ht]
    exact le_refl 1

theorem DegreeWithin.neg (h : p.DegreeWithin d) : p.neg.DegreeWithin d := by
  intro t ht
  obtain ⟨u, hu, rfl⟩ := List.mem_map.1 ht
  exact h u hu

theorem DegreeWithin.add (hp : p.DegreeWithin d) (hq : q.DegreeWithin d) : (p.add q).DegreeWithin d :=
  degreeWithin_combine fun t ht => (List.mem_append.1 ht).elim (hp t) (hq t)

theorem DegreeWithin.scale (h : p.DegreeWithin d) (k : ℚ) : (p.scale k).DegreeWithin d :=
  degreeWithin_combine fun t ht => by
    obtain ⟨u, hu, rfl⟩ := List.mem_map.1 ht
    exact h u hu

theorem degreeWithin_mul (h : mul b p q = .ok r) : r.DegreeWithin b.maxTotalDegree.toNat := by
  obtain ⟨_, products, hproducts, rfl, _⟩ := mul_eq_ok_iff.1 h
  refine degreeWithin_combine fun u hu => ?_
  obtain ⟨pair, _, hpair⟩ := mem_of_mapM_eq_some hproducts hu
  exact of_decide_eq_true (Option.filter_eq_some_iff.1 hpair).2

theorem degreeWithin_pow {n : ℕ} (h : pow b p n = .ok r) : r.DegreeWithin b.maxTotalDegree.toNat := by
  cases n with
  | zero =>
      cases h
      exact degreeWithin_constant 1
  | succ n =>
      obtain ⟨s, hs⟩ := mulRepeatedly_succ_eq_ok h
      exact degreeWithin_mul hs

variable {limits : Limits} {n : ℤ}

theorem degreeWithin_power (h : p.power limits n = .ok r) : r.DegreeWithin limits.maxTotalDegree.toNat := by
  rcases power_eq_ok h with ⟨_, hpow⟩ | ⟨_, value, _, _, _, rfl⟩
  · exact degreeWithin_pow hpow
  · exact degreeWithin_constant value

theorem sizeWithin_power (hn : 1 ≤ n) (h : p.power limits n = .ok r) : r.SizeWithin limits.toBudget := by
  rcases power_eq_ok h with ⟨_, hpow⟩ | ⟨_, _, hneg, _⟩
  · obtain ⟨k, hk⟩ : ∃ k, n.toNat = k + 1 := ⟨n.toNat - 1, by omega⟩
    rw [pow, hk] at hpow
    obtain ⟨s, hs⟩ := mulRepeatedly_succ_eq_ok hpow
    exact sizeWithin_mul hs
  · omega

theorem coefficientsWithin_power (hn : n < 0) (h : p.power limits n = .ok r) :
    r.CoefficientsWithin limits.maxCoefficientBits.toNat := by
  rw [power] at h
  split at h
  · cases h
  · rw [if_neg (not_le.2 hn)] at h
    split at h
    · cases h
    · split at h
      · obtain ⟨value, _, h⟩ := Outcome.bind_eq_ok.1 h
        obtain ⟨_, hcheck, h⟩ := Outcome.bind_eq_ok.1 h
        cases h
        exact coefficientWidth_le_iff.1 (checkCoefficients_eq_ok_iff.1 (Outcome.mapError_eq_ok.1 hcheck))
      · cases h

end Polynomial

namespace Expr

variable {limits : Limits} {e : Expr} {p : Polynomial}

/-! ## Every node -/

theorem degreeWithin_apply {op : Operator} {p q r : Polynomial} {d : ℕ} (hd : limits.maxTotalDegree.toNat ≤ d)
    (h : op.apply limits p q = .ok r) (hp : p.DegreeWithin d) (hq : q.DegreeWithin d) : r.DegreeWithin d := by
  cases op with
  | add => cases h; exact hp.add hq
  | sub => cases h; exact hp.add hq.neg
  | mul => exact (Polynomial.degreeWithin_mul (Outcome.mapError_eq_ok.1 h)).mono hd
  | div =>
      obtain ⟨c, _, _, rfl⟩ := Polynomial.divide_eq_ok h
      exact hp.scale c⁻¹

/-- A variable has degree one before any limit is looked at; no other node raises the degree above the limit. -/
theorem degreeWithin_of_expand (h : e.expand limits = .ok p) :
    p.DegreeWithin (max 1 limits.maxTotalDegree.toNat) := by
  induction e generalizing p with
  | num value => cases h; exact Polynomial.degreeWithin_constant value
  | var name => cases h; exact (Polynomial.degreeWithin_ofVariable name).mono (le_max_left _ _)
  | binary op a b iha ihb =>
      obtain ⟨p, hp, h⟩ := Outcome.bind_eq_ok.1 h
      obtain ⟨q, hq, h⟩ := Outcome.bind_eq_ok.1 h
      exact degreeWithin_apply (le_max_right _ _) h (iha hp) (ihb hq)
  | power a n iha =>
      obtain ⟨p, _, h⟩ := Outcome.bind_eq_ok.1 h
      exact (Polynomial.degreeWithin_power h).mono (le_max_right _ _)
  | negate a iha =>
      obtain ⟨p, hp, h⟩ := Outcome.bind_eq_ok.1 h
      cases h
      exact (iha hp).neg
  | group a iha => exact iha h
  | sqrt a iha =>
      obtain ⟨p, _, h⟩ := Outcome.bind_eq_ok.1 h
      obtain ⟨_, root, _, _, rfl⟩ := Polynomial.sqrt_eq_ok h
      exact Polynomial.degreeWithin_constant root

/-! ## The root -/

/-- The expression inside any number of parentheses and minus signs around it. -/
def unsigned : Expr → Expr
  | group inner => unsigned inner
  | negate inner => unsigned inner
  | e => e

/-- What a change of sign keeps is decided inside the parentheses and signs around an expression. -/
theorem forall_expand_of_unsigned {P : Polynomial → Prop} (hneg : ∀ q, P q → P q.neg)
    (hroot : ∀ q, e.unsigned.expand limits = .ok q → P q) (h : e.expand limits = .ok p) : P p := by
  induction e generalizing p with
  | negate a iha =>
      obtain ⟨q, hq, h⟩ := Outcome.bind_eq_ok.1 h
      cases h
      exact hneg q (iha hroot hq)
  | group a iha => exact iha hroot h
  | num | var | binary | power | sqrt => exact hroot p h

/-- What every power with the exponent has, an expression with such a power inside has as well. -/
theorem forall_expand_of_power {P : Polynomial → Prop} {a : Expr} {n : ℤ} (hneg : ∀ q, P q → P q.neg)
    (hpower : ∀ q r : Polynomial, q.power limits n = .ok r → P r) (hroot : e.unsigned = .power a n)
    (h : e.expand limits = .ok p) : P p := by
  refine forall_expand_of_unsigned hneg (fun r hr => ?_) h
  rw [hroot] at hr
  obtain ⟨q, _, hr⟩ := Outcome.bind_eq_ok.1 hr
  exact hpower q r hr

/-- Whatever an expression expands to, its terms are within the degree for products, or of degree one. Terms and
coefficients are within the limits if the root is a product or a power with a positive exponent, the coefficients also
if it is a power with a negative one. -/
theorem expand_within_limits (h : e.expand limits = .ok p) :
    p.DegreeWithin (max 1 limits.maxTotalDegree.toNat) ∧
      (∀ a b, e.unsigned = .binary .mul a b → p.SizeWithin limits.toBudget) ∧
      (∀ a n, e.unsigned = .power a n →
        (1 ≤ n → p.SizeWithin limits.toBudget) ∧
          (n < 0 → p.CoefficientsWithin limits.maxCoefficientBits.toNat)) := by
  refine ⟨degreeWithin_of_expand h, fun a b hroot => ?_, fun a n hroot => ⟨fun hn => ?_, fun hn => ?_⟩⟩
  · refine forall_expand_of_unsigned (fun _ => .neg) (fun r hr => ?_) h
    rw [hroot] at hr
    obtain ⟨p, _, hr⟩ := Outcome.bind_eq_ok.1 hr
    obtain ⟨q, _, hr⟩ := Outcome.bind_eq_ok.1 hr
    exact Polynomial.sizeWithin_mul (Outcome.mapError_eq_ok.1 hr)
  · exact forall_expand_of_power (fun _ => .neg) (fun _ _ => Polynomial.sizeWithin_power hn) hroot h
  · exact forall_expand_of_power (fun _ => .neg) (fun _ _ => Polynomial.coefficientsWithin_power hn) hroot h

/-- The limits are reached: three terms, degree two and coefficients of two bits. -/
theorem expand_within_limits_square :
    let limits : Limits := { maxTerms := 3, maxTotalDegree := 2, maxCoefficientBits := 2 }
    let e := negate (group (power (group (binary .add (var "x") (num 1))) 2))
    let p : Polynomial := ⟨[⟨-1, .ofPowers [("x", 2)]⟩, ⟨-2, .ofVariable "x"⟩, ⟨-1, .one⟩]⟩
    e.expand limits = .ok p ∧ p.DegreeWithin 2 ∧ p.SizeWithin limits.toBudget := by
  intro limits e p
  have h : e.expand limits = .ok p := by cbv
  obtain ⟨hdegree, _, hpower⟩ := expand_within_limits h
  exact ⟨h, hdegree, (hpower _ 2 rfl).1 (by decide)⟩

end Expr

end ExactAlgebra
