import ExactAlgebra.Proofs.Polynomial.Names
import ExactAlgebra.Proofs.Polynomial.Tree
import ExactAlgebra.Transformation

/-!
# Normal forms

The text of a canonical polynomial determines the polynomial, because its tokens derive one expression, which has
the values of the polynomial. So texts have the same normal form just when they have the same values.
-/

namespace ExactAlgebra

variable {ρ : String → ℚ}

/-! ## Values of written polynomials -/

theorem Monomial.hasValue_powerTree (f : String × ℕ) : Expr.HasValue ρ (powerTree f) (ρ f.1 ^ f.2) := by
  unfold powerTree
  split
  · rename_i hone
    rw [hone, pow_one]
    exact .V_Var
  · rw [← zpow_natCast]
    exact .V_Power .V_Var fun hneg => absurd hneg (not_lt.2 (Int.natCast_nonneg _))

theorem Monomial.hasValue_besides {e : Expr} {v : ℚ} (fs : List (String × ℕ)) (h : Expr.HasValue ρ e v) :
    Expr.HasValue ρ (besides e fs) (v * (fs.map fun f => ρ f.1 ^ f.2).prod) := by
  induction fs generalizing e v with
  | nil => simpa [besides] using h
  | cons f fs ih =>
      rw [List.map_cons, List.prod_cons, ← mul_assoc]
      exact ih (.V_Mul h (hasValue_powerTree f))

theorem Expr.hasValue_signed {e : Expr} {v : ℚ} (negative : Bool) (h : Expr.HasValue ρ e v) :
    Expr.HasValue ρ (e.signed negative) ((if negative then -1 else 1) * v) := by
  cases negative with
  | false => simpa [signed] using h
  | true => simpa [signed] using Expr.HasValue.V_Negate h

namespace Term

theorem hasValue_tree (t : Term) (negative : Bool) :
    Expr.HasValue ρ (t.tree negative) ((if negative then -1 else 1) * t.coefficient.abs * t.monomial.eval ρ) := by
  unfold tree Monomial.eval
  split
  · exact Monomial.hasValue_besides _ (Expr.hasValue_signed negative .V_Num)
  · rename_i hnumber
    simp only [hasNumber, isConstant, Monomial.isConstant, Bool.or_eq_true, not_or, bne_iff_ne, ne_eq,
      not_not] at hnumber
    rw [hnumber.2, mul_one]
    split
    · rename_i hnil
      simp [hnil] at hnumber
    · rename_i f fs hcons
      rw [hcons, List.map_cons, List.prod_cons, ← mul_assoc]
      exact Monomial.hasValue_besides fs (Expr.hasValue_signed negative (Monomial.hasValue_powerTree f))

theorem signed_abs (t : Term) : (if t.isNegative then -1 else 1) * t.coefficient.abs = t.coefficient := by
  unfold isNegative
  by_cases h : t.coefficient < 0
  · simp [h, Rat.abs_of_nonpos h.le]
  · simp [h, Rat.abs_of_nonneg (not_lt.1 h)]

theorem hasValue_addTree {e : Expr} {v : ℚ} (t : Term) (h : Expr.HasValue ρ e v) :
    Expr.HasValue ρ (addTree e t) (v + t.coefficient * t.monomial.eval ρ) := by
  have ht := t.hasValue_tree (ρ := ρ) false
  rw [← t.signed_abs]
  unfold addTree
  cases t.isNegative with
  | true => simpa [sub_eq_add_neg] using Expr.HasValue.V_Sub h ht
  | false => simpa using Expr.HasValue.V_Add h ht

end Term

namespace Polynomial

theorem hasValue_summands {e : Expr} {v : ℚ} (ts : List Term) (h : Expr.HasValue ρ e v) :
    Expr.HasValue ρ (ts.foldl Term.addTree e) (v + Polynomial.eval ρ ⟨ts⟩) := by
  induction ts generalizing e v with
  | nil => simpa [eval] using h
  | cons t ts ih => simpa [eval, add_assoc] using ih (t.hasValue_addTree h)

/-- A written polynomial has the values of the polynomial. -/
theorem hasValue_tree (p : Polynomial) : Expr.HasValue ρ p.tree (p.eval ρ) := by
  obtain ⟨terms⟩ := p
  cases terms with
  | nil => exact .V_Num
  | cons t ts =>
      have ht := t.hasValue_tree (ρ := ρ) t.isNegative
      rw [t.signed_abs] at ht
      simpa [eval, tree] using hasValue_summands ts ht

/-! ## Texts of polynomials -/

theorem eval_of_latex_eq {p q : Polynomial} (hp : p.Lettered) (hq : q.Lettered) (h : p.latex = q.latex) :
    p.eval ρ = q.eval ρ := by
  have htokens : p.tokens = q.tokens := (spells hp).unique (h ▸ spells hq)
  have htree : p.tree = q.tree := (derives hp).unique (htokens ▸ derives hq)
  exact (htree ▸ p.hasValue_tree).unique q.hasValue_tree

/-- Different canonical polynomials in letters are written differently. -/
theorem Canonical.latex_inj {p q : Polynomial} (hp : p.Canonical) (hq : q.Canonical) (hpl : p.Lettered)
    (hql : q.Lettered) : p.latex = q.latex ↔ p = q :=
  ⟨fun h => hp.ext_eval hq fun _ => eval_of_latex_eq hpl hql h, congrArg latex⟩

end Polynomial

/-! ## Normal forms -/

namespace Transformation

variable {limits : Limits} {text : List Char}

theorem normalize_eq_ok {s : String} (h : normalize limits text = .ok s) :
    ∃ e p, Expr.ofText limits text = .ok e ∧ e.expand limits = .ok p ∧ s = p.latex := by
  obtain ⟨p, hp, h⟩ := Outcome.bind_eq_ok.1 h
  obtain ⟨e, he, hp⟩ := Outcome.bind_eq_ok.1 hp
  cases h
  exact ⟨e, p, he, hp, rfl⟩

theorem lettered_of_expand {e : Expr} {p : Polynomial} (he : Expr.ofText limits text = .ok e)
    (hp : e.expand limits = .ok p) : p.Lettered := fun t ht f hf =>
  Latex.isLetter_of_parse (Outcome.mapError_eq_ok.1 he) f.1 (Expr.mem_names_of_expand hp t ht f hf)

/-- Texts that can be normalized stand for expressions with a value everywhere, and they have the same normal form
just when these values agree. -/
theorem normalize_eq_iff {text text' : List Char} {s s' : String} (h : normalize limits text = .ok s)
    (h' : normalize limits text' = .ok s') :
    ∃ e e', Expr.ofText limits text = .ok e ∧ Expr.ofText limits text' = .ok e' ∧
      (∀ ρ, (∃ v, e.HasValue ρ v) ∧ ∃ v, e'.HasValue ρ v) ∧
      (s = s' ↔ ∀ ρ v, e.HasValue ρ v ↔ e'.HasValue ρ v) := by
  obtain ⟨e, p, he, hp, rfl⟩ := normalize_eq_ok h
  obtain ⟨e', p', he', hp', rfl⟩ := normalize_eq_ok h'
  have hvalue ρ : e.HasValue ρ (p.eval ρ) := Expr.hasValue_of_expand hp
  have hvalue' ρ : e'.HasValue ρ (p'.eval ρ) := Expr.hasValue_of_expand hp'
  refine ⟨e, e', he, he', fun ρ => ⟨⟨_, hvalue ρ⟩, _, hvalue' ρ⟩, ?_⟩
  rw [(Expr.canonical_of_expand hp).latex_inj (Expr.canonical_of_expand hp') (lettered_of_expand he hp)
    (lettered_of_expand he' hp')]
  refine ⟨?_, fun hagree => ?_⟩
  · rintro rfl ρ v
    rw [(hvalue ρ).iff_eq, (hvalue' ρ).iff_eq]
  · refine (Expr.canonical_of_expand hp).ext_eval (Expr.canonical_of_expand hp') fun ρ => ?_
    exact ((hagree ρ _).1 (hvalue ρ)).unique (hvalue' ρ)

theorem normalize_eq_iff_square :
    normalize {} "(x-y)(x-y)".toList = .ok "x^\x7b2\x7d-2xy+y^\x7b2\x7d" ∧
      normalize {} "(y-x)^2".toList = .ok "x^\x7b2\x7d-2xy+y^\x7b2\x7d" ∧
      ∃ e e', Expr.ofText {} "(x-y)(x-y)".toList = .ok e ∧ Expr.ofText {} "(y-x)^2".toList = .ok e' ∧
        ∀ ρ v, e.HasValue ρ v ↔ e'.HasValue ρ v := by
  have h : normalize {} "(x-y)(x-y)".toList = .ok "x^\x7b2\x7d-2xy+y^\x7b2\x7d" := by cbv
  have h' : normalize {} "(y-x)^2".toList = .ok "x^\x7b2\x7d-2xy+y^\x7b2\x7d" := by cbv
  obtain ⟨e, e', he, he', _, hiff⟩ := normalize_eq_iff h h'
  exact ⟨h, h', e, e', he, he', hiff.1 rfl⟩

end Transformation

end ExactAlgebra
