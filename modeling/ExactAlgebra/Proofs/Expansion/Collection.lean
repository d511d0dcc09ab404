import ExactAlgebra.Proofs.Expansion
import ExactAlgebra.Transformation

/-!
# Collecting the terms of a sum

Like terms can be combined once, after the terms of the outermost sum are collected with their signs, or in the
expansion of every node. Both ways have the same outcome, and where they fail it is with the same error.
-/

namespace ExactAlgebra

/-! ## Combined terms -/

namespace Polynomial

variable {p q : Polynomial}

theorem Canonical.combine_terms (h : p.Canonical) : combine p.terms = p :=
  (canonical_combine _).ext h (toRing_combine _)

theorem combine_append (ts us : List Term) : combine (ts ++ us) = (combine ts).add (combine us) := by
  refine (canonical_combine _).ext (canonical_combine _) ?_
  rw [toRing_combine, Term.sumToRing_append, toRing_add, toRing_combine, toRing_combine]

theorem neg_neg (p : Polynomial) : p.neg.neg = p := by
  simp [neg, Term.neg, Function.comp_def]

/-- The polynomial or its negative. -/
def signed (negated : Bool) (p : Polynomial) : Polynomial := if negated then p.neg else p

theorem signed_neg (negated : Bool) (p : Polynomial) : p.neg.signed negated = p.signed (!negated) := by
  cases negated with
  | false => rfl
  | true => exact neg_neg p

theorem signed_add (negated : Bool) (p q : Polynomial) :
    (p.signed negated).add (q.signed negated) = (p.add q).signed negated := by
  cases negated with
  | false => rfl
  | true =>
      refine Canonical.ext (p := p.neg.add q.neg) (q := (p.add q).neg) (canonical_combine _)
        (canonical_combine _).neg ?_
      rw [toRing_add, toRing_neg, toRing_neg, toRing_neg, toRing_add, neg_add]

theorem signed_sub (negated : Bool) (p q : Polynomial) :
    (p.signed negated).add (q.signed (!negated)) = (p.sub q).signed negated := by
  rw [← signed_neg, signed_add]
  rfl

end Polynomial

/-! ## Collected terms -/

namespace Expr

variable {limits : Limits}

theorem summandTerms_map_combine (negated : Bool) (e : Expr) :
    (e.summandTerms limits negated).map Polynomial.combine = (e.expand limits).map (Polynomial.signed negated) := by
  unfold summandTerms
  cases he : e.expand limits with
  | error err => rfl
  | ok p =>
      have hp := canonical_of_expand he
      cases negated with
      | false => exact congrArg Except.ok hp.combine_terms
      | true => exact congrArg Except.ok hp.neg.combine_terms

/-- The terms of two summands side by side are combined to the sum, where each summand is combined to its part. -/
theorem map_combine_append {op : Operator} {x y : Except Error (List Term)} {a b : Except Error Polynomial}
    {negated negated' : Bool} {f : Polynomial → Polynomial → Polynomial}
    (hx : x.map Polynomial.combine = a.map (Polynomial.signed negated))
    (hy : y.map Polynomial.combine = b.map (Polynomial.signed negated'))
    (hop : ∀ p q, op.apply limits p q = .ok (f p q))
    (hf : ∀ p q, (p.signed negated).add (q.signed negated') = (f p q).signed negated) :
    (do return (← x) ++ (← y)).map Polynomial.combine =
      (do op.apply limits (← a) (← b)).map (Polynomial.signed negated) := by
  rcases Outcome.eq_or_of_map_eq hx with ⟨e, rfl, rfl⟩ | ⟨ts, p, rfl, rfl, hp⟩
  · rfl
  rcases Outcome.eq_or_of_map_eq hy with ⟨e, rfl, rfl⟩ | ⟨us, q, rfl, rfl, hq⟩
  · rfl
  simp only [Outcome.ok_bind, Outcome.pure_eq_ok, hop, Outcome.map_ok, Polynomial.combine_append, hp, hq, hf]

theorem rawTermsSigned_map_combine (negated : Bool) (e : Expr) :
    (e.rawTermsSigned limits negated).map Polynomial.combine =
      (e.expand limits).map (Polynomial.signed negated) := by
  induction e generalizing negated with
  | num value => exact summandTerms_map_combine negated _
  | var name => exact summandTerms_map_combine negated _
  | binary op left right ihl ihr =>
      cases op with
      | add => exact map_combine_append (ihl negated) (ihr negated) (fun _ _ => rfl) (Polynomial.signed_add negated)
      | sub =>
          exact map_combine_append (ihl negated) (ihr (!negated)) (fun _ _ => rfl) (Polynomial.signed_sub negated)
      | mul | div => exact summandTerms_map_combine negated _
  | power base n ih => exact summandTerms_map_combine negated _
  | negate inner ih =>
      -- a sign in front of a summand turns the sign with which its terms are collected
      refine (ih (!negated)).trans ?_
      rw [expand]
      cases inner.expand limits with
      | error err => rfl
      | ok p => exact congrArg Except.ok (Polynomial.signed_neg negated p).symm
  | group inner ih => exact ih negated
  | sqrt inner ih => exact summandTerms_map_combine negated _

theorem rawTerms_map_combine (e : Expr) : (e.rawTerms limits).map Polynomial.combine = e.expand limits := by
  refine (rawTermsSigned_map_combine false e).trans ?_
  cases e.expand limits <;> rfl

end Expr

/-- Collecting the terms fails just when the expansion does, with the same error, and otherwise the collected terms
are combined to the expansion. So combining the like terms of a text is multiplying it out. -/
theorem combine_eq_expand (limits : Limits) :
    (∀ (e : Expr) err, e.rawTerms limits = .error err ↔ e.expand limits = .error err) ∧
      (∀ (e : Expr) p, e.expand limits = .ok p ↔ ∃ ts, e.rawTerms limits = .ok ts ∧ Polynomial.combine ts = p) ∧
      ∀ text, Transformation.combine limits text = Transformation.expand limits text := by
  have hexpand (e : Expr) : e.expand limits = (e.rawTerms limits).map Polynomial.combine :=
    e.rawTerms_map_combine.symm
  refine ⟨fun e err => ?_, fun e p => ?_, fun text => ?_⟩
  · rw [hexpand]
    cases e.rawTerms limits <;> simp
  · rw [hexpand]
    exact Outcome.map_eq_ok
  · unfold Transformation.combine Transformation.expand Polynomial.ofText
    cases Expr.ofText limits text with
    | error err => rfl
    | ok e =>
        simp only [Outcome.ok_bind, hexpand]
        cases e.rawTerms limits <;> rfl

end ExactAlgebra
