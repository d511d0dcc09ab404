import ExactAlgebra.Proofs.Latex.FractionText
import ExactAlgebra.Proofs.RoundTrip

/-!
# Reducing fractions

A text that is one literal fraction is reduced without being expanded. The answer is the one that expansion gives, since
a constant polynomial is written as its number, and both refuse a denominator that is zero.
-/

namespace ExactAlgebra

/-! ## Constants -/

theorem Markup.rational_of_nonneg {q : ℚ} (hq : 0 ≤ q) :
    rational q = if q.den = 1 then natural q.num.natAbs else fraction (natural q.num.natAbs) (natural q.den) := by
  have hnum : ¬ q.num < 0 := Int.not_lt.2 (Rat.num_nonneg.2 hq)
  simp only [rational, integer, if_neg hnum, if_neg (Rat.not_lt.2 hq), String.empty_append]

theorem Markup.rational_eq_sign_append (q : ℚ) :
    rational q = (if q < 0 then "-" else "") ++ rational q.abs := by
  by_cases hq : q < 0
  · rw [Rat.abs_of_nonpos hq.le, rational_of_nonneg (neg_nonneg.2 hq.le), Rat.neg_num, Rat.neg_den, Int.natAbs_neg,
      rational, integer, if_pos (Rat.num_neg.2 hq), if_pos hq]
    split <;> rfl
  · rw [Rat.abs_of_nonneg (not_lt.1 hq), if_neg hq, String.empty_append]

/-- A constant polynomial is written as its number. -/
theorem Polynomial.latex_constant (q : ℚ) : (constant q).latex = Markup.rational q := by
  by_cases hq : q = 0
  · subst hq
    have hzero : constant 0 = zero := by simp [constant, Term.constant, combine, zero, Term.gather]
    rw [hzero]
    rfl
  · rw [constant, Term.constant, combine_single hq, Markup.rational_eq_sign_append]
    simp [latex, single, Term.latex, Term.magnitudeLatex, Term.isConstant, Monomial.isConstant, Monomial.one,
      Monomial.latex]

namespace Transformation

variable {limits : Limits} {text : List Char} {n d : ℕ}

theorem expand_of_number {q : ℚ} (h : Latex.parse limits.maxDepth.toNat text = .ok (.num q)) :
    expand limits text = .ok (Markup.rational q) := by
  rw [expand, Polynomial.ofText, Expr.ofText, h, ← Polynomial.latex_constant]
  rfl

theorem expand_of_error {e : Latex.Error} (h : Latex.parse limits.maxDepth.toNat text = .error e) :
    expand limits text = .error (.ofLatex e) := by
  rw [expand, Polynomial.ofText, Expr.ofText, h]
  rfl

theorem reduce_of_isFraction (h : Latex.IsFraction text n d) :
    reduce limits text = if d = 0 then .error .invalidDenominator else .ok (Markup.rational (mkRat n d)) := by
  obtain ⟨fraction, hfraction, rfl, rfl⟩ := h.literalFraction?
  rw [reduce, hfraction]
  simp only [Rational.ofFraction, Int.natCast_eq_zero]
  split
  · rfl
  · rw [Rat.mkRat_eq_divInt]
    rfl

/-- Where fractions may nest at all, a literal fraction is reduced to what it expands to, or is refused for the same
reason. -/
theorem reduce_eq_expand (limits : Limits) (text : List Char) (hdepth : 2 ≤ limits.maxDepth.toNat) :
    reduce limits text = expand limits text := by
  cases hfraction : Latex.literalFraction? text with
  | none => rw [reduce, hfraction]
  | some fraction =>
      have htext := Latex.isFraction_of_literalFraction? hfraction
      rw [reduce_of_isFraction htext]
      by_cases hzero : fraction.denominator = 0
      · rw [hzero] at htext
        obtain ⟨position, hparse⟩ := htext.parse_zero hdepth
        rw [if_pos hzero, expand_of_error hparse]
        rfl
      · rw [if_neg hzero, expand_of_number (htext.parse_of_ne_zero hzero hdepth)]

theorem reduce_eq_expand_spaced :
    2 ≤ ({} : Limits).maxDepth.toNat ∧
      reduce {} "\\dfrac\x7b 012 \x7d \x7b\\,18\x7d".toList = .ok "\\frac\x7b2\x7d\x7b3\x7d" ∧
      expand {} "\\dfrac\x7b 012 \x7d \x7b\\,18\x7d".toList = .ok "\\frac\x7b2\x7d\x7b3\x7d" := by
  have h : reduce {} "\\dfrac\x7b 012 \x7d \x7b\\,18\x7d".toList = .ok "\\frac\x7b2\x7d\x7b3\x7d" := by cbv
  have hdepth : 2 ≤ ({} : Limits).maxDepth.toNat := by decide
  exact ⟨hdepth, h, (reduce_eq_expand _ _ hdepth).symm.trans h⟩

end Transformation

end ExactAlgebra
