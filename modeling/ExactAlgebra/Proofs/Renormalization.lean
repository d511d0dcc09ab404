import ExactAlgebra.Proofs.Expansion.Size
import ExactAlgebra.Proofs.RoundTrip

/-!
# Normalizing a normal form

A normal form is read as the polynomial that it was written from. So it is its own normal form, if the limits let it
be read: a power of a variable is read as a power, and a number beside letters as a factor of a product, although both
may have come about in other ways.
-/

namespace ExactAlgebra

variable {limits : Limits}

/-! ## Expressions that fail only by their size -/

namespace Expr

/-- Built by sums, products and powers, without quotients and roots. -/
def Whole : Expr → Prop
  | num _ => True
  | var _ => True
  | binary op left right => op ≠ .div ∧ left.Whole ∧ right.Whole
  | power base exponent => 0 ≤ exponent ∧ base.Whole
  | negate inner => inner.Whole
  | group inner => inner.Whole
  | sqrt _ => False

theorem isTooComplex_of_apply {op : Operator} {p q : Polynomial} {err : Error} (hop : op ≠ .div)
    (h : op.apply limits p q = .error err) : err.IsTooComplex := by
  cases op with
  | add => cases h
  | sub => cases h
  | mul =>
      obtain ⟨excess, _, rfl⟩ := Outcome.mapError_eq_error.1 h
      exact ⟨excess, rfl⟩
  | div => exact absurd rfl hop

theorem isTooComplex_of_power {p : Polynomial} {n : ℤ} {err : Error} (hn : 0 ≤ n)
    (h : p.power limits n = .error err) : err.IsTooComplex := by
  rw [Polynomial.power] at h
  split at h
  · cases h
    exact ⟨_, rfl⟩
  · obtain ⟨excess, _, rfl⟩ := Outcome.mapError_eq_error.1 h
    exact ⟨excess, rfl⟩

theorem Whole.isTooComplex {e : Expr} {err : Error} (he : e.Whole) (h : e.expand limits = .error err) :
    err.IsTooComplex := by
  induction e generalizing err with
  | num value => cases h
  | var name => cases h
  | binary op a b iha ihb =>
      obtain ⟨hop, ha, hb⟩ := he
      rcases Outcome.bind_eq_error.1 h with h | ⟨p, _, h⟩
      · exact iha ha h
      · rcases Outcome.bind_eq_error.1 h with h | ⟨q, _, h⟩
        · exact ihb hb h
        · exact isTooComplex_of_apply hop h
  | power a n iha =>
      obtain ⟨hn, ha⟩ := he
      rcases Outcome.bind_eq_error.1 h with h | ⟨p, _, h⟩
      · exact iha ha h
      · exact isTooComplex_of_power hn h
  | negate a iha =>
      rcases Outcome.bind_eq_error.1 h with h | ⟨p, _, h⟩
      · exact iha he h
      · cases h
  | group a iha => exact iha he h
  | sqrt a iha => cases he

end Expr

theorem Monomial.whole_powerTree (f : String × ℕ) : (powerTree f).Whole := by
  unfold powerTree
  split
  · trivial
  · exact ⟨Int.natCast_nonneg _, trivial⟩

theorem Monomial.whole_besides {e : Expr} (he : e.Whole) (fs : List (String × ℕ)) : (besides e fs).Whole := by
  induction fs generalizing e with
  | nil => exact he
  | cons f fs ih => exact ih (e := .binary .mul e (powerTree f)) ⟨nofun, he, whole_powerTree f⟩

theorem Expr.Whole.signed {e : Expr} (he : e.Whole) (negative : Bool) : (e.signed negative).Whole := by
  cases negative with
  | false => exact he
  | true => exact he

theorem Term.whole_tree (t : Term) (negative : Bool) : (t.tree negative).Whole := by
  unfold tree
  split
  · exact Monomial.whole_besides (Expr.Whole.signed (e := .num t.coefficient.abs) trivial negative) _
  · split
    · trivial
    · exact Monomial.whole_besides ((Monomial.whole_powerTree _).signed negative) _

theorem Polynomial.whole_summands {e : Expr} (he : e.Whole) (ts : List Term) : (ts.foldl Term.addTree e).Whole := by
  induction ts generalizing e with
  | nil => exact he
  | cons t ts ih =>
      refine ih (e := Term.addTree e t) ⟨?_, he, t.whole_tree false⟩
      split <;> nofun

theorem Polynomial.whole_tree (p : Polynomial) : p.tree.Whole := by
  unfold tree
  split
  · trivial
  · exact whole_summands (Term.whole_tree _ _) _

/-! ## Terms -/

/-- The limits allow the term to be read: its exponents, and its coefficient where that stands beside letters. -/
def Term.Readable (limits : Limits) (t : Term) : Prop :=
  (∀ f ∈ t.monomial.factors, f.2 ≤ limits.maxPowerExponent.toNat) ∧
    (t.isConstant ∨ coefficientBits t.coefficient ≤ limits.maxCoefficientBits.toNat)

instance (limits : Limits) (t : Term) : Decidable (t.Readable limits) := inferInstanceAs (Decidable (_ ∧ _))

theorem Polynomial.coefficientBits_of_mul_single {b : Budget} {c k : ℚ} {m n : Monomial} {r : Polynomial}
    (hc : c ≠ 0) (hk : k ≠ 0) (h : mul b (single c m) (single k n) = .ok r) :
    coefficientBits (c * k) ≤ b.maxCoefficientBits.toNat := by
  obtain ⟨_, products, hproducts, rfl, _, hwidth⟩ := mul_eq_ok_iff.1 h
  have hproducts : [((⟨c, m⟩ : Term), (⟨k, n⟩ : Term))].mapM (fun pair => termProduct? b pair.1 pair.2) =
      some products := hproducts
  simp only [List.mapM_cons, List.mapM_nil, bind, Option.bind_eq_some_iff, pure, Option.some.injEq] at hproducts
  obtain ⟨u, hu, _, rfl, rfl⟩ := hproducts
  obtain ⟨w, _, rfl⟩ := Option.map_eq_some_iff.1 (Option.filter_eq_some_iff.1 hu).1
  rw [combine_single (mul_ne_zero hc hk)] at hwidth
  simpa [coefficientWidth, single] using hwidth

/-- Limits that allow something to be done at all. -/
structure Limits.Positive (limits : Limits) : Prop where
  terms : 1 ≤ limits.maxTerms.toNat
  degree : 1 ≤ limits.maxTotalDegree.toNat
  bits : 1 ≤ limits.maxCoefficientBits.toNat
  exponent : 1 ≤ limits.maxPowerExponent.toNat

namespace Monomial

theorem exponent_le_of_expand (hlimits : limits.Positive) {f : String × ℕ} {p : Polynomial}
    (h : (powerTree f).expand limits = .ok p) : f.2 ≤ limits.maxPowerExponent.toNat := by
  unfold powerTree at h
  split at h
  · rename_i hone
    rw [hone]
    exact hlimits.exponent
  · obtain ⟨p, _, h⟩ := Outcome.bind_eq_ok.1 h
    rw [Polynomial.power] at h
    split at h
    · cases h
    · rename_i hexponent
      simpa using hexponent

theorem expand_of_besides {e : Expr} {fs : List (String × ℕ)} {p : Polynomial}
    (h : (besides e fs).expand limits = .ok p) : ∃ q, e.expand limits = .ok q := by
  induction fs generalizing e with
  | nil => exact ⟨p, h⟩
  | cons f fs ih =>
      obtain ⟨r, hr⟩ := ih h
      obtain ⟨q, hq, _⟩ := Outcome.bind_eq_ok.1 hr
      exact ⟨q, hq⟩

/-- Every power of a product is expanded. -/
theorem exponents_le_of_expand (hlimits : limits.Positive) {e : Expr} {fs : List (String × ℕ)}
    {p : Polynomial} (h : (besides e fs).expand limits = .ok p) : ∀ f ∈ fs, f.2 ≤ limits.maxPowerExponent.toNat := by
  induction fs generalizing e with
  | nil => nofun
  | cons f fs ih =>
      obtain ⟨q, hq⟩ := expand_of_besides (e := .binary .mul e (powerTree f)) h
      obtain ⟨_, _, hq⟩ := Outcome.bind_eq_ok.1 hq
      obtain ⟨r, hr, _⟩ := Outcome.bind_eq_ok.1 hq
      exact List.forall_mem_cons.2 ⟨exponent_le_of_expand hlimits hr, ih h⟩

/-- A product of a single term with powers needs the limits for exponents, and those for coefficients as soon as there
is a second factor. -/
theorem expand_besides_iff (hlimits : limits.Positive) {e : Expr} {c : ℚ} {a m : Monomial}
    {fs : List (String × ℕ)} (hc : c ≠ 0) (hdegree : m.degree ≤ limits.maxTotalDegree.toNat)
    (he : e.expand limits = .ok (.single c a))
    (hm : m.exponents = a.exponents + (fs.map fun f => Finsupp.single f.1 f.2).sum) :
    (∃ p, (besides e fs).expand limits = .ok p) ↔
      (∀ f ∈ fs, f.2 ≤ limits.maxPowerExponent.toNat) ∧
        (fs = [] ∨ coefficientBits c ≤ limits.maxCoefficientBits.toNat) := by
  constructor
  · rintro ⟨p, h⟩
    cases fs with
    | nil => exact ⟨nofun, .inl rfl⟩
    | cons f fs =>
        have hexponents : ∀ g ∈ f :: fs, g.2 ≤ limits.maxPowerExponent.toNat :=
          exponents_le_of_expand hlimits h
        rw [List.map_cons, List.sum_cons] at hm
        obtain ⟨w, hw, hwm⟩ := exists_exponents_eq_of_add (hm.trans (add_left_comm _ _ _))
        have hpower := expand_powerTree hlimits.terms hlimits.bits (hexponents f List.mem_cons_self)
          (hwm.trans hdegree) hw
        obtain ⟨q, hq⟩ := expand_of_besides (e := .binary .mul e (powerTree f)) h
        rw [Expr.expand, he, hpower] at hq
        have hbits := Polynomial.coefficientBits_of_mul_single hc one_ne_zero (Outcome.mapError_eq_ok.1 hq)
        rw [mul_one] at hbits
        exact ⟨hexponents, .inr hbits⟩
  · rintro ⟨hexponents, rfl | hbits⟩
    · exact ⟨_, he⟩
    · exact ⟨_, expand_besides hc hlimits.terms hbits hexponents hdegree he hm⟩

end Monomial

theorem Expr.expand_of_signed {e : Expr} {negative : Bool} {p : Polynomial}
    (h : (e.signed negative).expand limits = .ok p) : ∃ q, e.expand limits = .ok q := by
  cases negative with
  | false => exact ⟨p, h⟩
  | true =>
      obtain ⟨q, hq, _⟩ := Outcome.bind_eq_ok.1 h
      exact ⟨q, hq⟩

/-- A term expands, with a sign at its first factor or without, just when the limits allow it to be read. -/
theorem Term.expand_tree_iff (hlimits : limits.Positive) {t : Term} (negative : Bool)
    (hc : t.coefficient ≠ 0) (hdegree : t.monomial.degree ≤ limits.maxTotalDegree.toNat) :
    (∃ p, (t.tree negative).expand limits = .ok p) ↔ t.Readable limits := by
  have habs : t.coefficient.abs ≠ 0 := by simpa [Rat.abs_eq_zero_iff] using hc
  have hsign : (if negative then -1 else 1 : ℚ) ≠ 0 := by split <;> simp
  have hbits : coefficientBits ((if negative then -1 else 1) * t.coefficient.abs) = coefficientBits t.coefficient := by
    cases negative with
    | false => simp [coefficientBits_abs]
    | true => simp [coefficientBits_neg, coefficientBits_abs]
  unfold tree
  split
  · have hnumber : (Expr.num t.coefficient.abs).expand limits = .ok (.single t.coefficient.abs .one) :=
      congrArg Except.ok (Polynomial.combine_single habs)
    rw [Monomial.expand_besides_iff hlimits (mul_ne_zero hsign habs) hdegree (Expr.expand_signed negative hnumber)
      (by rw [Monomial.exponents_one, zero_add, Monomial.exponents]), hbits, Readable, isConstant,
      Monomial.isConstant, List.isEmpty_iff]
  · rename_i hnumber
    simp only [hasNumber, isConstant, Monomial.isConstant, Bool.or_eq_true, not_or, bne_iff_ne, ne_eq,
      not_not] at hnumber
    -- without a number in front the coefficient is one or minus one
    have hone : coefficientBits t.coefficient ≤ limits.maxCoefficientBits.toNat := by
      rw [← coefficientBits_abs, hnumber.2, coefficientBits_one]
      exact hlimits.bits
    split
    · rename_i hnil
      simp [hnil] at hnumber
    · rename_i f fs hcons
      have hsum : t.monomial.exponents = Finsupp.single f.1 f.2 + (fs.map fun f => Finsupp.single f.1 f.2).sum := by
        rw [Monomial.exponents, hcons, List.map_cons, List.sum_cons]
      obtain ⟨w, hw, hwt⟩ := Monomial.exists_exponents_eq_of_add hsum
      have hpower (hf : f.2 ≤ limits.maxPowerExponent.toNat) :=
        Expr.expand_signed negative
          (Monomial.expand_powerTree hlimits.terms hlimits.bits hf (hwt.trans hdegree) hw)
      rw [hnumber.2] at hbits
      rw [Readable, hcons, List.forall_mem_cons]
      constructor
      · rintro ⟨p, h⟩
        obtain ⟨q, hq⟩ := Monomial.expand_of_besides h
        obtain ⟨r, hr⟩ := Expr.expand_of_signed hq
        exact ⟨⟨Monomial.exponent_le_of_expand hlimits hr, Monomial.exponents_le_of_expand hlimits h⟩, .inr hone⟩
      · rintro ⟨⟨hf, hfs⟩, -⟩
        refine (Monomial.expand_besides_iff hlimits (mul_ne_zero hsign one_ne_zero) hdegree (hpower hf)
          (by rw [hsum, hw])).2 ⟨hfs, .inr (hbits.trans_le hone)⟩

/-! ## Sums -/

namespace Polynomial

theorem expand_summands_iff {ts : List Term} {e : Expr} :
    (∃ p, (ts.foldl Term.addTree e).expand limits = .ok p) ↔
      (∃ p, e.expand limits = .ok p) ∧ ∀ t ∈ ts, ∃ p, (t.tree false).expand limits = .ok p := by
  induction ts generalizing e with
  | nil => simp
  | cons t ts ih =>
      have hsum : (∃ p, (Term.addTree e t).expand limits = .ok p) ↔
          (∃ p, e.expand limits = .ok p) ∧ ∃ p, (t.tree false).expand limits = .ok p := by
        rw [Term.addTree]
        constructor
        · rintro ⟨p, h⟩
          obtain ⟨q, hq, h⟩ := Outcome.bind_eq_ok.1 h
          obtain ⟨r, hr, _⟩ := Outcome.bind_eq_ok.1 h
          exact ⟨⟨q, hq⟩, r, hr⟩
        · rintro ⟨⟨q, hq⟩, r, hr⟩
          rw [Expr.expand, hq, hr]
          cases t.isNegative with
          | true => exact ⟨_, rfl⟩
          | false => exact ⟨_, rfl⟩
      rw [List.foldl_cons, ih, hsum, List.forall_mem_cons, and_assoc]

/-- The expression of a canonical polynomial expands to the polynomial, or to nothing. -/
theorem eq_of_expand_tree {p q : Polynomial} (hp : p.Canonical) (h : p.tree.expand limits = .ok q) : q = p :=
  (Expr.canonical_of_expand h).ext_eval hp fun _ => (Expr.hasValue_of_expand h).unique p.hasValue_tree

theorem expand_tree_iff (hlimits : limits.Positive) {p : Polynomial} (hp : p.Canonical)
    (hdegree : p.DegreeWithin limits.maxTotalDegree.toNat) :
    p.tree.expand limits = .ok p ↔ ∀ t ∈ p.terms, t.Readable limits := by
  have hexpand : (∃ q, p.tree.expand limits = .ok q) ↔ ∀ t ∈ p.terms, t.Readable limits := by
    obtain ⟨terms⟩ := p
    cases terms with
    | nil => exact ⟨fun _ => nofun, fun _ => ⟨_, rfl⟩⟩
    | cons t ts =>
        obtain ⟨ht, hts⟩ := List.forall_mem_cons.1 hdegree
        obtain ⟨hc, hcs⟩ := List.forall_mem_cons.1 hp.1
        rw [tree, expand_summands_iff, Term.expand_tree_iff hlimits _ hc ht, List.forall_mem_cons]
        refine and_congr_right fun _ => forall₂_congr fun u hu => ?_
        exact Term.expand_tree_iff hlimits false (hcs u hu) (hts u hu)
  refine Iff.trans ⟨fun h => ⟨p, h⟩, ?_⟩ hexpand
  rintro ⟨q, hq⟩
  rw [hq, eq_of_expand_tree hp hq]

end Polynomial

/-! ## Texts -/

theorem Polynomial.ofText_latex_eq {p : Polynomial} (hdepth : 3 ≤ limits.maxDepth.toNat) (hp : p.Lettered) :
    ofText limits p.latex.toList = p.tree.expand limits := by
  have hparse : Latex.parse limits.maxDepth.toNat p.latex.toList = .ok p.tree :=
    (spells hp).parse_eq_ok_iff.2 ⟨limits.maxDepth.toNat - 1, by omega, (derives hp).mono (by omega)⟩
  rw [ofText, Expr.ofText, hparse]
  rfl

namespace Transformation

variable {text : List Char} {s : String}

theorem normalize_latex (hlimits : limits.Positive) (hdepth : 3 ≤ limits.maxDepth.toNat)
    (h : normalize limits text = .ok s) :
    ∃ p, Polynomial.ofText limits text = .ok p ∧
      (normalize limits s.toList = .ok s ↔ ∀ t ∈ p.terms, t.Readable limits) ∧
      (normalize limits s.toList = .ok s ∨ ∃ excess, normalize limits s.toList = .error (.tooComplex excess)) := by
  obtain ⟨e, p, he, hp, rfl⟩ := normalize_eq_ok h
  have hcanonical := Expr.canonical_of_expand hp
  have hdegree := Expr.degreeWithin_of_expand hp
  rw [max_eq_right hlimits.degree] at hdegree
  have hagain : normalize limits p.latex.toList = (p.tree.expand limits).map Polynomial.latex := by
    rw [← Polynomial.ofText_latex_eq hdepth (lettered_of_expand he hp)]
    rfl
  refine ⟨p, ?_, ?_⟩
  · rw [Polynomial.ofText, he]
    exact hp
  · rw [hagain, ← Polynomial.expand_tree_iff hlimits hcanonical hdegree]
    cases hq : p.tree.expand limits with
    | error err =>
        obtain ⟨excess, rfl⟩ := p.whole_tree.isTooComplex hq
        simp
    | ok q =>
        rw [Polynomial.eq_of_expand_tree hcanonical hq]
        simp

/-- With the usual limits a normal form is its own normal form just when no variable in it has an exponent above 32 and
no coefficient beside letters has more than 4096 bits. Otherwise it is too complex to be normalized. -/
theorem normalize_normalized (h : normalize {} text = .ok s) :
    ∃ p, Polynomial.ofText {} text = .ok p ∧
      (normalize {} s.toList = .ok s ↔ ∀ t ∈ p.terms,
        (∀ f ∈ t.monomial.factors, f.2 ≤ 32) ∧ (t.isConstant ∨ coefficientBits t.coefficient ≤ 4096)) ∧
      (normalize {} s.toList = .ok s ∨ ∃ excess, normalize {} s.toList = .error (.tooComplex excess)) :=
  normalize_latex ⟨by decide, by decide, by decide, by decide⟩ (by decide) h

theorem normalize_normalized_product :
    normalize {} "(2x+1)(x^3-1)".toList = .ok "2x^{4}+x^{3}-2x-1" ∧
      normalize {} "2x^{4}+x^{3}-2x-1".toList = .ok "2x^{4}+x^{3}-2x-1" := by
  have h : normalize {} "(2x+1)(x^3-1)".toList = .ok "2x^{4}+x^{3}-2x-1" := by cbv
  obtain ⟨p, hp, hiff, _⟩ := normalize_normalized h
  have hvalue : Polynomial.ofText {} "(2x+1)(x^3-1)".toList =
      .ok ⟨[⟨2, .ofPowers [("x", 4)]⟩, ⟨1, .ofPowers [("x", 3)]⟩, ⟨-2, .ofVariable "x"⟩, ⟨-1, .one⟩]⟩ := by cbv
  cases hp.symm.trans hvalue
  exact ⟨h, hiff.2 (by decide +kernel)⟩

/-- A product reaches an exponent that is not read as a power. -/
theorem normalize_power_unreadable :
    normalize {} "x^{32}x".toList = .ok "x^{33}" ∧
      normalize {} "x^{33}".toList = .error (.tooComplex (.exponent 33)) := by
  constructor
  · cbv
  · cbv

end Transformation

end ExactAlgebra
