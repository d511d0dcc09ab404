import ExactAlgebra.Proofs.Normalization

/-!
# Reading written polynomials

The text of a polynomial is read back as the same polynomial, if the limits allow each of its terms.
-/

namespace ExactAlgebra

/-- The limits allow the term to be built from its factors. -/
structure Term.Fits (limits : Limits) (t : Term) : Prop where
  exponents : ∀ f ∈ t.monomial.factors, f.2 ≤ limits.maxPowerExponent.toNat
  degree : t.monomial.degree ≤ limits.maxTotalDegree.toNat
  bits : coefficientBits t.coefficient ≤ limits.maxCoefficientBits.toNat

theorem Term.fits_iff {limits : Limits} {t : Term} :
    ((∀ f ∈ t.monomial.factors, f.2 ≤ limits.maxPowerExponent.toNat) ∧
      t.monomial.degree ≤ limits.maxTotalDegree.toNat ∧
      coefficientBits t.coefficient ≤ limits.maxCoefficientBits.toNat) ↔ t.Fits limits :=
  ⟨fun ⟨h₁, h₂, h₃⟩ => ⟨h₁, h₂, h₃⟩, fun ⟨h₁, h₂, h₃⟩ => ⟨h₁, h₂, h₃⟩⟩

instance (limits : Limits) (t : Term) : Decidable (t.Fits limits) := decidable_of_iff _ Term.fits_iff

/-! ## Coefficients -/

theorem coefficientBits_neg (q : ℚ) : coefficientBits (-q) = coefficientBits q := by
  rw [coefficientBits, Rat.neg_num, Rat.neg_den, Int.natAbs_neg, coefficientBits]

theorem coefficientBits_abs (q : ℚ) : coefficientBits q.abs = coefficientBits q := by
  rw [Rat.abs]
  split
  · rfl
  · exact coefficientBits_neg q

theorem one_le_coefficientBits (q : ℚ) : 1 ≤ coefficientBits q := by
  rw [coefficientBits, bitLength, bitLength, if_neg q.den_nz]
  omega

theorem coefficientBits_one : coefficientBits 1 = 1 := by decide

/-! ## Products of single terms -/

namespace Polynomial

/-- The polynomial with a single term. -/
def single (c : ℚ) (m : Monomial) : Polynomial := ⟨[⟨c, m⟩]⟩

theorem combine_single {c : ℚ} {m : Monomial} (hc : c ≠ 0) : combine [⟨c, m⟩] = single c m := by
  simp [combine, single, Term.gather, hc]

variable {b : Budget}

theorem mul_single {c k : ℚ} {m n r : Monomial} (hterms : 1 ≤ b.maxTerms.toNat) (hc : c ≠ 0) (hk : k ≠ 0)
    (hr : r.exponents = m.exponents + n.exponents) (hdegree : r.degree ≤ b.maxTotalDegree.toNat)
    (hbits : coefficientBits (c * k) ≤ b.maxCoefficientBits.toNat) :
    mul b (single c m) (single k n) = .ok (single (c * k) r) := by
  have hproduct : termProduct? b ⟨c, m⟩ ⟨k, n⟩ = some ⟨c * k, r⟩ := by
    rw [termProduct?, Term.mul?, Monomial.mul?_eq_some_iff.2 hr]
    simp [Option.filter, hdegree]
  have hproducts : termProducts? b (single c m) (single k n) = some [⟨c * k, r⟩] := by
    simp [termProducts?, single, hproduct]
  have hcount : ¬ saturate (b.maxTerms.toNat * 4) < saturate (1 * 1) := by
    simp only [saturate]
    omega
  have hwidth : ¬ b.maxCoefficientBits.toNat < (single (c * k) r).coefficientWidth := by
    simpa [single, coefficientWidth] using hbits
  have hlength : ¬ b.maxTerms.toNat < (single (c * k) r).terms.length := not_lt.2 hterms
  rw [mul]
  simp only [hproducts, combine_single (mul_ne_zero hc hk), if_neg hlength, checkCoefficients, if_neg hwidth]
  exact if_neg hcount

/-- The monomials of powers of one variable, beside a monomial. -/
theorem mulRepeatedly_variable {name : String} {a r : Monomial} {n : ℕ} (hterms : 1 ≤ b.maxTerms.toNat)
    (hbits : 1 ≤ b.maxCoefficientBits.toNat) (hdegree : r.degree ≤ b.maxTotalDegree.toNat)
    (hr : r.exponents = a.exponents + Finsupp.single name n) :
    mulRepeatedly b (ofVariable name) (single 1 a) n = .ok (single 1 r) := by
  induction n generalizing a with
  | zero =>
      rw [Finsupp.single_zero, add_zero] at hr
      rw [mulRepeatedly, Monomial.exponents_injective hr]
  | succ n ih =>
      have hsplit : r.exponents = a.exponents + Finsupp.single name 1 + Finsupp.single name n := by
        rw [hr, add_assoc, ← Finsupp.single_add, add_comm 1 n]
      obtain ⟨m, hm, hmr⟩ := Monomial.exists_exponents_eq_of_add hsplit
      have hvariable : ofVariable name = single 1 (.ofVariable name) := combine_single one_ne_zero
      have hproduct : mul b (single 1 a) (ofVariable name) = .ok (single 1 m) := by
        rw [hvariable, mul_single hterms one_ne_zero one_ne_zero (r := m)]
        · rw [mul_one]
        · rw [hm, Monomial.exponents_ofVariable]
        · exact hmr.trans hdegree
        · rwa [mul_one, coefficientBits_one]
      rw [mulRepeatedly, hproduct]
      exact ih (by rw [hm, hsplit])

end Polynomial

/-! ## Terms -/

variable {limits : Limits}

theorem Monomial.expand_powerTree {f : String × ℕ} {m : Monomial} (hterms : 1 ≤ limits.maxTerms.toNat)
    (hbits : 1 ≤ limits.maxCoefficientBits.toNat) (hexponent : f.2 ≤ limits.maxPowerExponent.toNat)
    (hdegree : m.degree ≤ limits.maxTotalDegree.toNat) (hm : m.exponents = Finsupp.single f.1 f.2) :
    (powerTree f).expand limits = .ok (.single 1 m) := by
  unfold powerTree
  split
  · rename_i hone
    have hvariable : m = .ofVariable f.1 := by
      apply exponents_injective
      rw [hm, exponents_ofVariable, hone]
    rw [Expr.expand, hvariable]
    exact congrArg Except.ok (Polynomial.combine_single one_ne_zero)
  · have hpow : (Polynomial.ofVariable f.1).pow limits.toBudget f.2 = .ok (.single 1 m) := by
      have hstart : Polynomial.one = .single 1 .one := Polynomial.combine_single one_ne_zero
      rw [Polynomial.pow, hstart]
      exact Polynomial.mulRepeatedly_variable hterms hbits hdegree (by rw [hm, exponents_one, zero_add])
    have hpower : (Polynomial.ofVariable f.1).power limits f.2 = .ok (.single 1 m) := by
      rw [Polynomial.power, if_neg (by simpa using hexponent), if_pos (Int.natCast_nonneg _), Int.toNat_natCast,
        hpow]
      rfl
    rw [Expr.expand, Expr.expand, Outcome.ok_bind]
    exact hpower

theorem Monomial.expand_besides {e : Expr} {c : ℚ} {a m : Monomial} {fs : List (String × ℕ)} (hc : c ≠ 0)
    (hterms : 1 ≤ limits.maxTerms.toNat) (hbits : coefficientBits c ≤ limits.maxCoefficientBits.toNat)
    (hexponents : ∀ f ∈ fs, f.2 ≤ limits.maxPowerExponent.toNat)
    (hdegree : m.degree ≤ limits.maxTotalDegree.toNat) (he : e.expand limits = .ok (.single c a))
    (hm : m.exponents = a.exponents + (fs.map fun f => Finsupp.single f.1 f.2).sum) :
    (besides e fs).expand limits = .ok (.single c m) := by
  induction fs generalizing e a with
  | nil =>
      rw [List.map_nil, List.sum_nil, add_zero] at hm
      rw [exponents_injective hm]
      exact he
  | cons f fs ih =>
      obtain ⟨hf, hfs⟩ := List.forall_mem_cons.1 hexponents
      rw [List.map_cons, List.sum_cons] at hm
      obtain ⟨w, hw, hwm⟩ := exists_exponents_eq_of_add (hm.trans (add_left_comm _ _ _))
      obtain ⟨r, hr, hrm⟩ := exists_exponents_eq_of_add (hm.trans (add_assoc _ _ _).symm)
      have hpower := expand_powerTree hterms ((one_le_coefficientBits c).trans hbits) hf (hwm.trans hdegree) hw
      refine ih hfs (?_ : (Expr.binary .mul e (powerTree f)).expand limits = .ok (.single c r)) ?_
      · have hproduct : Polynomial.mul limits.toBudget (.single c a) (.single 1 w) = .ok (.single c r) := by
          rw [Polynomial.mul_single hterms hc one_ne_zero (r := r) (by rw [hr, hw]) (hrm.trans hdegree)
            (by rwa [mul_one]), mul_one]
        rw [Expr.expand, he, hpower, Outcome.ok_bind, Outcome.ok_bind, Operator.apply, hproduct]
        rfl
      · rw [hm, hr, add_assoc]

theorem Expr.expand_signed {e : Expr} {c : ℚ} {m : Monomial} (negative : Bool)
    (he : e.expand limits = .ok (.single c m)) :
    (e.signed negative).expand limits = .ok (.single ((if negative then -1 else 1) * c) m) := by
  cases negative with
  | false => simpa [signed] using he
  | true => simp [signed, expand, he, Polynomial.single, Polynomial.neg, Term.neg]

namespace Term

theorem expand_tree {t : Term} (negative : Bool) (hterms : 1 ≤ limits.maxTerms.toNat) (ht : t.Fits limits)
    (hc : t.coefficient ≠ 0) :
    (t.tree negative).expand limits =
      .ok (.single ((if negative then -1 else 1) * t.coefficient.abs) t.monomial) := by
  have habs : t.coefficient.abs ≠ 0 := by simpa [Rat.abs_eq_zero_iff] using hc
  have hsign : (if negative then -1 else 1 : ℚ) ≠ 0 := by split <;> simp
  have hbits : coefficientBits ((if negative then -1 else 1) * t.coefficient.abs) ≤
      limits.maxCoefficientBits.toNat := by
    have hbits := ht.bits
    rw [← coefficientBits_abs] at hbits
    cases negative with
    | false => simpa using hbits
    | true => simpa [coefficientBits_neg] using hbits
  unfold tree
  split
  · have hnumber : (Expr.num t.coefficient.abs).expand limits = .ok (.single t.coefficient.abs .one) :=
      congrArg Except.ok (Polynomial.combine_single habs)
    refine Monomial.expand_besides (mul_ne_zero hsign habs) hterms hbits ht.exponents ht.degree
      (Expr.expand_signed negative hnumber) ?_
    rw [Monomial.exponents_one, zero_add, Monomial.exponents]
  · rename_i hnumber
    simp only [hasNumber, isConstant, Monomial.isConstant, Bool.or_eq_true, not_or, bne_iff_ne, ne_eq,
      not_not] at hnumber
    split
    · rename_i hnil
      simp [hnil] at hnumber
    · rename_i f fs hcons
      have hexponents := ht.exponents
      rw [hcons] at hexponents
      obtain ⟨hf, hfs⟩ := List.forall_mem_cons.1 hexponents
      have hsum : t.monomial.exponents = Finsupp.single f.1 f.2 + (fs.map fun f => Finsupp.single f.1 f.2).sum := by
        rw [Monomial.exponents, hcons, List.map_cons, List.sum_cons]
      obtain ⟨w, hw, hwt⟩ := Monomial.exists_exponents_eq_of_add hsum
      have hpower := Monomial.expand_powerTree hterms ((one_le_coefficientBits _).trans ht.bits) hf
        (hwt.trans ht.degree) hw
      rw [hnumber.2] at hbits ⊢
      exact Monomial.expand_besides (mul_ne_zero hsign one_ne_zero) hterms hbits hfs ht.degree
        (Expr.expand_signed negative hpower) (by rw [hsum, hw])

end Term

/-! ## Sums -/

namespace Polynomial

theorem expand_summands {ts : List Term} {e : Expr} {p : Polynomial} (hterms : 1 ≤ limits.maxTerms.toNat)
    (hts : ∀ t ∈ ts, t.Fits limits ∧ t.coefficient ≠ 0) (he : e.expand limits = .ok p) :
    ∃ q, (ts.foldl Term.addTree e).expand limits = .ok q := by
  induction ts generalizing e p with
  | nil => exact ⟨p, he⟩
  | cons t ts ih =>
      obtain ⟨⟨hfits, hc⟩, hts⟩ := List.forall_mem_cons.1 hts
      have ht := Term.expand_tree false hterms hfits hc
      have hsum : ∃ q, (Term.addTree e t).expand limits = .ok q := by
        rw [Term.addTree, Expr.expand, he, ht]
        cases t.isNegative with
        | true => exact ⟨_, rfl⟩
        | false => exact ⟨_, rfl⟩
      obtain ⟨q, hq⟩ := hsum
      exact ih hts hq

/-- A canonical polynomial whose terms fit is what its expression expands to. -/
theorem expand_tree {p : Polynomial} (hp : p.Canonical) (hterms : 1 ≤ limits.maxTerms.toNat)
    (hfits : ∀ t ∈ p.terms, t.Fits limits) : p.tree.expand limits = .ok p := by
  have hexpand : ∃ q, p.tree.expand limits = .ok q := by
    obtain ⟨terms⟩ := p
    cases terms with
    | nil => exact ⟨_, rfl⟩
    | cons t ts =>
        have hts : ∀ u ∈ t :: ts, u.Fits limits ∧ u.coefficient ≠ 0 := fun u hu => ⟨hfits u hu, hp.1 u hu⟩
        obtain ⟨⟨ht, hc⟩, hts⟩ := List.forall_mem_cons.1 hts
        exact expand_summands hterms hts (Term.expand_tree t.isNegative hterms ht hc)
  obtain ⟨q, hq⟩ := hexpand
  have heq : q = p := (Expr.canonical_of_expand hq).ext_eval hp fun ρ =>
    (Expr.hasValue_of_expand hq).unique p.hasValue_tree
  rw [hq, heq]

/-! ## Texts -/

/-- A sum of terms in letters, written and read again, is the same polynomial. -/
theorem ofText_latex {ts : List Term} (hdepth : 3 ≤ limits.maxDepth.toNat) (hterms : 1 ≤ limits.maxTerms.toNat)
    (hletters : (combine ts).Lettered) (hfits : ∀ t ∈ (combine ts).terms, t.Fits limits) :
    ofText limits (combine ts).latex.toList = .ok (combine ts) := by
  have hparse : Latex.parse limits.maxDepth.toNat (combine ts).latex.toList = .ok (combine ts).tree :=
    (spells hletters).parse_eq_ok_iff.2 ⟨limits.maxDepth.toNat - 1, by omega, (derives hletters).mono (by omega)⟩
  rw [ofText, Expr.ofText, hparse]
  exact expand_tree (canonical_combine ts) hterms hfits

theorem ofText_latex_quadratic :
    let ts : List Term := [⟨3, .one⟩, ⟨-1 / 2, .ofPowers [("y", 1), ("x", 2)]⟩, ⟨1, .ofVariable "x"⟩]
    3 ≤ (64 : UInt64).toNat ∧ 1 ≤ (500 : UInt64).toNat ∧ (combine ts).Lettered ∧
      (∀ t ∈ (combine ts).terms, t.Fits {}) ∧ ofText {} (combine ts).latex.toList = .ok (combine ts) := by
  intro ts
  have hts : combine ts =
      ⟨[⟨-1 / 2, .ofPowers [("x", 2), ("y", 1)]⟩, ⟨1, .ofVariable "x"⟩, ⟨3, .one⟩]⟩ := by cbv
  have hletters : (combine ts).Lettered := by
    rw [hts]
    decide
  have hfits : ∀ t ∈ (combine ts).terms, t.Fits {} := by
    rw [hts]
    decide +kernel
  exact ⟨by decide, by decide, hletters, hfits, ofText_latex (by decide) (by decide) hletters hfits⟩

end Polynomial

end ExactAlgebra
