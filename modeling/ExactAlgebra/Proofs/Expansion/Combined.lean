import ExactAlgebra.Proofs.Availability
import ExactAlgebra.Proofs.Profile.Parentheses
import ExactAlgebra.Proofs.Profile.Report
import ExactAlgebra.Proofs.RoundTrip

/-!
# What combining leaves

Each term of a written polynomial is collected again as the same term, if the limits let it be expanded. So nothing is
left to combine, and as no parentheses are written there is nothing to multiply out either.
-/

namespace ExactAlgebra

variable {limits : Limits}

/-! ## Summands -/

namespace Expr

/-- The expression is no sum, apart from signs and parentheses around it. -/
def IsSummand : Expr → Prop
  | binary op _ _ => op ≠ .add ∧ op ≠ .sub
  | negate inner => inner.IsSummand
  | group inner => inner.IsSummand
  | _ => True

theorem summandTerms_eq_map (negated : Bool) (e : Expr) :
    e.summandTerms limits negated = (e.expand limits).map fun p => (p.signed negated).terms := by
  unfold summandTerms
  cases e.expand limits with
  | error err => rfl
  | ok p => cases negated <;> rfl

/-- The terms collected from a summand are those that it expands to. -/
theorem IsSummand.rawTermsSigned {e : Expr} (he : e.IsSummand) (negated : Bool) :
    e.rawTermsSigned limits negated = (e.expand limits).map fun p => (p.signed negated).terms := by
  induction e generalizing negated with
  | num | var | power | sqrt => exact summandTerms_eq_map negated _
  | binary op left right =>
      cases op with
      | add => exact absurd rfl he.1
      | sub => exact absurd rfl he.2
      | mul | div => exact summandTerms_eq_map negated _
  | negate inner ih =>
      rw [Expr.rawTermsSigned, ih he, expand]
      cases inner.expand limits with
      | error err => rfl
      | ok p => exact congrArg (Except.ok ∘ Polynomial.terms) (Polynomial.signed_neg negated p).symm
  | group inner ih => exact ih he negated

end Expr

theorem Monomial.isSummand_powerTree (f : String × ℕ) : (powerTree f).IsSummand := by
  unfold powerTree
  split <;> trivial

theorem Monomial.isSummand_besides {e : Expr} (he : e.IsSummand) (fs : List (String × ℕ)) :
    (besides e fs).IsSummand := by
  induction fs generalizing e with
  | nil => exact he
  | cons f fs ih => exact ih (e := .binary .mul e (powerTree f)) ⟨nofun, nofun⟩

theorem Expr.IsSummand.signed {e : Expr} (he : e.IsSummand) (negative : Bool) : (e.signed negative).IsSummand := by
  cases negative with
  | false => exact he
  | true => exact he

theorem Term.isSummand_tree (t : Term) (negative : Bool) : (t.tree negative).IsSummand := by
  unfold tree
  split
  · exact Monomial.isSummand_besides (Expr.IsSummand.signed (e := .num t.coefficient.abs) trivial negative) _
  · split
    · trivial
    · exact Monomial.isSummand_besides ((Monomial.isSummand_powerTree _).signed negative) _

/-! ## Terms -/

namespace Polynomial

theorem canonical_single {c : ℚ} {m : Monomial} (hc : c ≠ 0) : (single c m).Canonical :=
  combine_single hc ▸ canonical_combine _

theorem eval_single (ρ : String → ℚ) (c : ℚ) (m : Monomial) : (single c m).eval ρ = c * m.eval ρ := by
  simp [eval, single]

theorem signed_single (negated : Bool) (c : ℚ) (m : Monomial) :
    (single c m).signed negated = single ((if negated then -1 else 1) * c) m := by
  cases negated with
  | false => simp [signed]
  | true => simp [signed, single, neg, Term.neg]

end Polynomial

namespace Term

variable {t : Term} {negative negated : Bool}

/-- The expression of a term expands to the term, or to nothing. -/
theorem eq_single_of_expand_tree {p : Polynomial} (hc : t.coefficient ≠ 0)
    (h : (t.tree negative).expand limits = .ok p) :
    p = .single ((if negative then -1 else 1) * t.coefficient.abs) t.monomial := by
  have habs : t.coefficient.abs ≠ 0 := by simpa [Rat.abs_eq_zero_iff] using hc
  have hsign : (if negative then -1 else 1 : ℚ) ≠ 0 := by split <;> simp
  refine (Expr.canonical_of_expand h).ext_eval (Polynomial.canonical_single (mul_ne_zero hsign habs)) fun ρ => ?_
  rw [Polynomial.eval_single]
  exact (Expr.hasValue_of_expand h).unique (t.hasValue_tree negative)

/-- A term is collected as itself, where its sign stands in the expression or before it. -/
theorem rawTermsSigned_tree {ts : List Term} (hc : t.coefficient ≠ 0) (hsign : (negative ^^ negated) = t.isNegative)
    (h : (t.tree negative).rawTermsSigned limits negated = .ok ts) : ts = [t] := by
  rw [(t.isSummand_tree negative).rawTermsSigned] at h
  obtain ⟨p, hp, rfl⟩ := Outcome.map_eq_ok.1 h
  have hcoefficient : (if negated then -1 else 1) * ((if negative then -1 else 1) * t.coefficient.abs) =
      t.coefficient := by
    conv_rhs => rw [← t.signed_abs, ← hsign]
    cases negative <;> cases negated <;> simp
  rw [eq_single_of_expand_tree hc hp, Polynomial.signed_single, hcoefficient]
  rfl

end Term

/-! ## Sums -/

namespace Polynomial

theorem rawTerms_addTree {e : Expr} {t : Term} {ts : List Term} (hc : t.coefficient ≠ 0)
    (h : (Term.addTree e t).rawTerms limits = .ok ts) : ∃ us, e.rawTerms limits = .ok us ∧ ts = us ++ [t] := by
  have hsplit : (Term.addTree e t).rawTerms limits = do
      return (← e.rawTerms limits) ++ (← (t.tree false).rawTermsSigned limits t.isNegative) := by
    unfold Term.addTree
    cases t.isNegative <;> rfl
  rw [hsplit] at h
  obtain ⟨us, hus, h⟩ := Outcome.bind_eq_ok.1 h
  obtain ⟨vs, hvs, h⟩ := Outcome.bind_eq_ok.1 h
  cases h
  exact ⟨us, hus, by rw [Term.rawTermsSigned_tree hc (Bool.false_xor _) hvs]⟩

theorem rawTerms_summands {e : Expr} {ts us : List Term} (hts : ∀ t ∈ ts, t.coefficient ≠ 0)
    (h : (ts.foldl Term.addTree e).rawTerms limits = .ok us) : ∃ vs, e.rawTerms limits = .ok vs ∧ us = vs ++ ts := by
  induction ts generalizing e with
  | nil => exact ⟨us, h, (List.append_nil us).symm⟩
  | cons t ts ih =>
      obtain ⟨ht, hts⟩ := List.forall_mem_cons.1 hts
      obtain ⟨vs, hvs, rfl⟩ := ih hts h
      obtain ⟨ws, hws, rfl⟩ := rawTerms_addTree ht hvs
      exact ⟨ws, hws, by rw [List.append_assoc, List.singleton_append]⟩

/-- The terms collected from a written polynomial are its own, in their order. -/
theorem rawTerms_tree {p : Polynomial} {ts : List Term} (hp : ∀ t ∈ p.terms, t.coefficient ≠ 0)
    (h : p.tree.rawTerms limits = .ok ts) : ts = p.terms := by
  obtain ⟨terms⟩ := p
  cases terms with
  | nil =>
      have hzero : constant 0 = zero := by simp [constant, combine, Term.gather, Term.constant, zero]
      cases h
      exact congrArg terms hzero
  | cons t us =>
      obtain ⟨ht, hus⟩ := List.forall_mem_cons.1 hp
      obtain ⟨vs, hvs, rfl⟩ := rawTerms_summands hus h
      rw [Term.rawTermsSigned_tree ht (Bool.xor_false _) hvs]
      rfl

end Polynomial

/-! ## Texts -/

theorem Monomial.parentheses_besides (e : Expr) (fs : List (String × ℕ)) :
    (besides e fs).parentheses = e.parentheses := by
  induction fs generalizing e with
  | nil => rfl
  | cons f fs ih =>
      have hpower : (powerTree f).parentheses = [] := by
        unfold powerTree
        split <;> rfl
      exact (ih (.binary .mul e (powerTree f))).trans (by rw [Expr.parentheses, hpower, List.append_nil])

theorem Term.parentheses_tree (t : Term) (negative : Bool) : (t.tree negative).parentheses = [] := by
  unfold tree Monomial.powerTree
  split
  · rw [Monomial.parentheses_besides]
    cases negative <;> rfl
  · split
    · rfl
    · rw [Monomial.parentheses_besides]
      split <;> cases negative <;> rfl

namespace Polynomial

theorem parentheses_summands (e : Expr) (ts : List Term) :
    (ts.foldl Term.addTree e).parentheses = e.parentheses := by
  induction ts generalizing e with
  | nil => rfl
  | cons t ts ih =>
      exact (ih (Term.addTree e t)).trans
        (by rw [Term.addTree, Expr.parentheses, t.parentheses_tree, List.append_nil])

theorem parentheses_tree (p : Polynomial) : p.tree.parentheses = [] := by
  unfold tree
  split
  · rfl
  · rw [parentheses_summands, Term.parentheses_tree]

/-- The text of a polynomial is read as the expression that it was written from. -/
theorem eq_tree_of_ofText {p : Polynomial} {e : Expr} (hp : p.Lettered)
    (h : Expr.ofText limits p.latex.toList = .ok e) : e = p.tree := by
  obtain ⟨d, -, hderives⟩ := (spells hp).parse_eq_ok_iff.1 (Outcome.mapError_eq_ok.1 h)
  exact hderives.unique (derives hp)

theorem not_isAvailable_combine {p : Polynomial} (hp : p.Canonical) (hletters : p.Lettered) :
    ¬Operation.combine.isAvailable limits p.latex.toList := by
  intro h
  obtain ⟨e, he, hlike⟩ := treeSatisfies_iff.1 h
  rw [eq_tree_of_ofText hletters he, Profile.Report.likeTermsIn] at hlike
  split at hlike
  · rename_i terms hterms
    rw [rawTerms_tree hp.1 hterms, Profile.hasLikeTerms_iff] at hlike
    exact hlike hp.nodup_monomials
  · cases hlike

theorem not_isAvailable_expand {p : Polynomial} (hletters : p.Lettered) :
    ¬Operation.expand.isAvailable limits p.latex.toList := by
  intro h
  obtain ⟨hparentheses, hread⟩ := Bool.and_eq_true_iff.1 h
  obtain ⟨e, he, -⟩ := treeSatisfies_iff.1 hread
  have hfilter := Latex.filter_of_parse (Outcome.mapError_eq_ok.1 he)
  rw [eq_tree_of_ofText hletters he, parentheses_tree] at hfilter
  rw [Profile.Parentheses.pairs_of_filter_eq_nil hfilter] at hparentheses
  cases hparentheses

end Polynomial

namespace Transformation

variable {text : List Char} {s : String}

theorem combine_eq_ok (h : combine limits text = .ok s) :
    ∃ e p, Expr.ofText limits text = .ok e ∧ e.expand limits = .ok p ∧ s = p.latex := by
  obtain ⟨e, he, h⟩ := Outcome.bind_eq_ok.1 h
  obtain ⟨ts, hts, h⟩ := Outcome.bind_eq_ok.1 h
  cases h
  exact ⟨e, .combine ts, he, e.rawTerms_map_combine ▸ Outcome.map_eq_ok.2 ⟨ts, hts, rfl⟩, rfl⟩

/-- The answer of combining is offered neither for combining nor for multiplying out. Where it can be expanded, the terms
collected from it are those of the polynomial that it was written from, in the same order. -/
theorem combine_combined (h : combine limits text = .ok s) :
    isOperationAvailable limits "combine" s.toList = false ∧ isOperationAvailable limits "expand" s.toList = false ∧
      ∃ p, Polynomial.ofText limits text = .ok p ∧
        ∀ q, Polynomial.ofText limits s.toList = .ok q →
          ∃ e, Expr.ofText limits s.toList = .ok e ∧ e.rawTerms limits = .ok p.terms := by
  obtain ⟨e, p, he, hp, rfl⟩ := combine_eq_ok h
  have hcanonical := Expr.canonical_of_expand hp
  have hletters := lettered_of_expand he hp
  refine ⟨?_, ?_, p, ?_, fun q hq => ?_⟩
  · exact Bool.eq_false_iff.2 (Polynomial.not_isAvailable_combine hcanonical hletters)
  · exact Bool.eq_false_iff.2 (Polynomial.not_isAvailable_expand hletters)
  · rw [Polynomial.ofText, he]
    exact hp
  · obtain ⟨e', he', hq⟩ := Outcome.bind_eq_ok.1 hq
    obtain ⟨ts, hts, -⟩ := Outcome.map_eq_ok.1 (e'.rawTerms_map_combine.trans hq)
    obtain rfl := Polynomial.eq_tree_of_ofText hletters he'
    exact ⟨p.tree, he', Polynomial.rawTerms_tree hcanonical.1 hts ▸ hts⟩

theorem combine_combined_quotients :
    combine {} "3x-\\frac\x7bx\x7d\x7b2\x7d-(y-4)".toList = .ok "\\frac\x7b5\x7d\x7b2\x7dx-y+4" ∧
      isOperationAvailable {} "combine" "\\frac\x7b5\x7d\x7b2\x7dx-y+4".toList = false ∧
      isOperationAvailable {} "expand" "\\frac\x7b5\x7d\x7b2\x7dx-y+4".toList = false ∧
      ∃ e, Expr.ofText {} "\\frac\x7b5\x7d\x7b2\x7dx-y+4".toList = .ok e ∧
        e.rawTerms {} = .ok [⟨5 / 2, .ofVariable "x"⟩, ⟨-1, .ofVariable "y"⟩, ⟨4, .one⟩] := by
  have h : combine {} "3x-\\frac\x7bx\x7d\x7b2\x7d-(y-4)".toList = .ok "\\frac\x7b5\x7d\x7b2\x7dx-y+4" := by cbv
  obtain ⟨hcombine, hexpand, p, hp, hcollect⟩ := combine_combined h
  have hvalue : Polynomial.ofText {} "3x-\\frac\x7bx\x7d\x7b2\x7d-(y-4)".toList =
      .ok ⟨[⟨5 / 2, .ofVariable "x"⟩, ⟨-1, .ofVariable "y"⟩, ⟨4, .one⟩]⟩ := by cbv
  have hagain : Polynomial.ofText {} "\\frac\x7b5\x7d\x7b2\x7dx-y+4".toList =
      .ok ⟨[⟨5 / 2, .ofVariable "x"⟩, ⟨-1, .ofVariable "y"⟩, ⟨4, .one⟩]⟩ := by cbv
  cases hp.symm.trans hvalue
  exact ⟨h, hcombine, hexpand, hcollect _ hagain⟩

end Transformation

end ExactAlgebra
