import ExactAlgebra.Availability
import ExactAlgebra.Proofs.Expansion.Collection
import ExactAlgebra.Proofs.Expansion.Size
import Mathlib.Data.List.Dedup

/-!
# Errors and like terms in reports

Two of the collected terms have the same monomial just when combining them leaves fewer terms, because no collected
term is zero. The report on a text and the operations on it fail together.
-/

namespace ExactAlgebra

variable {limits : Limits} {text : List Char}

/-! ## Combining terms -/

namespace Term

variable {t : Term} {ts : List Term}

theorem gather_of_notMem (h : t.monomial ∉ ts.map monomial) : t.gather ts = t :: ts := by
  cases ts with
  | nil => rfl
  | cons u ts =>
      have hne : t.monomial ≠ u.monomial := fun heq => h (heq ▸ List.mem_cons_self)
      rw [gather, if_neg hne]

/-- Different monomials are not added. -/
theorem foldr_gather_of_nodup (h : (ts.map monomial).Nodup) : ts.foldr gather [] = ts := by
  induction ts with
  | nil => rfl
  | cons t ts ih =>
      obtain ⟨ht, hts⟩ := List.nodup_cons.1 h
      rw [List.foldr_cons, ih hts, gather_of_notMem ht]

end Term

namespace Polynomial

variable {ts : List Term}

theorem combine_perm_of_nodup (hzero : ∀ t ∈ ts, t.coefficient ≠ 0) (h : (ts.map Term.monomial).Nodup) :
    (combine ts).terms.Perm ts := by
  have hsorted : (ts.mergeSort Term.before).Perm ts := List.mergeSort_perm ts _
  have hnodup : ((ts.mergeSort Term.before).map Term.monomial).Nodup := (hsorted.map _).nodup_iff.2 h
  have hkept : (ts.mergeSort Term.before).filter (fun t => t.coefficient != 0) = ts.mergeSort Term.before :=
    List.filter_eq_self.2 fun t ht => bne_iff_ne.2 (hzero t (hsorted.mem_iff.1 ht))
  rw [combine, Term.foldr_gather_of_nodup hnodup, hkept]
  exact hsorted

theorem Canonical.nodup_monomials {p : Polynomial} (hp : p.Canonical) : (p.terms.map Term.monomial).Nodup :=
  List.pairwise_map.2 (hp.2.imp Tally.ne_of_lt)

theorem monomials_combine_subset (ts : List Term) : (combine ts).terms.map Term.monomial ⊆ ts.map Term.monomial := by
  intro m hm
  obtain ⟨t, ht, rfl⟩ := List.mem_map.1 hm
  obtain ⟨u, hu, hmonomial⟩ := exists_mem_of_mem_combine ht
  exact List.mem_map.2 ⟨u, hu, hmonomial.symm⟩

end Polynomial

namespace Profile

theorem hasLikeTerms_iff {ts : List Term} : hasLikeTerms ts ↔ ¬(ts.map Term.monomial).Nodup := by
  rw [hasLikeTerms, Bool.not_eq_true', decide_eq_false_iff_not]

/-- Among terms that are not zero there are like ones just when combining them leaves fewer terms. -/
theorem hasLikeTerms_iff_length_lt {ts : List Term} (hzero : ∀ t ∈ ts, t.coefficient ≠ 0) :
    hasLikeTerms ts ↔ (Polynomial.combine ts).terms.length < ts.length := by
  rw [hasLikeTerms_iff, not_iff_comm, not_lt]
  constructor
  · intro hle
    have hnodup := (Polynomial.canonical_combine ts).nodup_monomials
    have hsubperm := hnodup.subperm (Polynomial.monomials_combine_subset ts)
    -- no monomial was lost, so each one was there once
    have hperm := hsubperm.perm_of_length_le (by simpa using hle)
    exact hperm.nodup_iff.1 hnodup
  · intro hnodup
    exact (Polynomial.combine_perm_of_nodup hzero hnodup).length_eq.ge

end Profile

/-! ## Collected terms -/

namespace Expr

theorem summandTerms_ne_zero {e : Expr} {negated : Bool} {ts : List Term}
    (h : e.summandTerms limits negated = .ok ts) : ∀ t ∈ ts, t.coefficient ≠ 0 := by
  obtain ⟨p, hp, h⟩ := Outcome.bind_eq_ok.1 h
  have hcanonical := canonical_of_expand hp
  cases negated with
  | false =>
      cases h
      exact hcanonical.1
  | true =>
      cases h
      exact hcanonical.neg.1

/-- No collected term is zero. -/
theorem rawTermsSigned_ne_zero {e : Expr} {negated : Bool} {ts : List Term}
    (h : e.rawTermsSigned limits negated = .ok ts) : ∀ t ∈ ts, t.coefficient ≠ 0 := by
  induction e generalizing negated ts with
  | num | var | power | sqrt => exact summandTerms_ne_zero h
  | negate inner ih | group inner ih => exact ih h
  | binary op left right ihl ihr =>
      cases op with
      | mul | div => exact summandTerms_ne_zero h
      | add | sub =>
          obtain ⟨us, hus, h⟩ := Outcome.bind_eq_ok.1 h
          obtain ⟨vs, hvs, h⟩ := Outcome.bind_eq_ok.1 h
          cases h
          exact List.forall_mem_append.2 ⟨ihl hus, ihr hvs⟩

end Expr

/-! ## Reports -/

namespace Profile

theorem classify_ne_unknown (text : List Char) (e : Expr) (p : Polynomial) : classify text e p ≠ .unknown := by
  unfold classify
  split
  · split <;> nofun
  · split <;> nofun

namespace Report

variable {e : Expr} {p : Polynomial} {err : Error}

theorem likeTermsIn_of_error (he : e.expand limits = .error err) : likeTermsIn limits e = false := by
  have hraw : e.rawTerms limits = .error err := Outcome.map_eq_error.1 (e.rawTerms_map_combine.trans he)
  rw [likeTermsIn, hraw]

theorem ofText_of_expanded (h : Expr.ofText limits text = .ok e) (he : e.expand limits = .ok p) :
    ofText limits text =
      { textual limits text with
        kind := classify text e p, likeTerms := likeTermsIn limits e, vars := .ofNames p.names } := by
  simp only [ofText, h, he]

/-- A text is not read, or its expression is not expanded, or it has a polynomial. -/
theorem ofText_cases (limits : Limits) (text : List Char) :
    (∃ err, Expr.ofText limits text = .error err ∧
        ofText limits text = { textual limits text with error := some err }) ∨
      (∃ e err, Expr.ofText limits text = .ok e ∧ e.expand limits = .error err ∧ ofText limits text =
        { textual limits text with likeTerms := false, vars := .ofNames e.names, error := some err }) ∨
      ∃ e p, Expr.ofText limits text = .ok e ∧ e.expand limits = .ok p ∧ ofText limits text =
        { textual limits text with
          kind := classify text e p, likeTerms := likeTermsIn limits e, vars := .ofNames p.names } := by
  cases h : Expr.ofText limits text with
  | error err => exact .inl ⟨err, rfl, by rw [ofText, h]⟩
  | ok e =>
      cases he : e.expand limits with
      | error err => exact .inr (.inl ⟨e, err, rfl, he, by simp only [ofText, h, he, likeTermsIn_of_error he]⟩)
      | ok p => exact .inr (.inr ⟨e, p, rfl, he, ofText_of_expanded h he⟩)

theorem error_eq_some_iff :
    (ofText limits text).error = some err ↔ Transformation.normalize limits text = .error err := by
  rw [Transformation.normalize, Transformation.expand, Polynomial.ofText]
  obtain ⟨err', h, hreport⟩ | ⟨e, err', h, he, hreport⟩ | ⟨e, p, h, he, hreport⟩ := ofText_cases limits text
  · simp [hreport, h]
  · simp [hreport, h, he]
  · simp [hreport, h, he, textual]

theorem isSome_error_iff : (ofText limits text).error.isSome ↔ (ofText limits text).kind = .unknown := by
  obtain ⟨err, -, hreport⟩ | ⟨e, err, -, -, hreport⟩ | ⟨e, p, -, -, hreport⟩ := ofText_cases limits text
  · simp [hreport, textual]
  · simp [hreport, textual]
  · simp [hreport, textual, classify_ne_unknown]

theorem likeTerms_eq_isAvailable :
    (ofText limits text).likeTerms = Operation.combine.isAvailable limits text := by
  unfold Operation.isAvailable treeSatisfies
  obtain ⟨err, h, hreport⟩ | ⟨e, err, h, he, hreport⟩ | ⟨e, p, h, -, hreport⟩ := ofText_cases limits text
  · simp [hreport, h, textual]
  · simp [hreport, h, likeTermsIn_of_error he]
  · simp [hreport, h]

theorem likeTerms_of_error (h : (ofText limits text).error.isSome) : (ofText limits text).likeTerms = false := by
  obtain ⟨err, -, hreport⟩ | ⟨e, err, -, -, hreport⟩ | ⟨e, p, -, -, hreport⟩ := ofText_cases limits text
  · simp [hreport, textual]
  · simp [hreport]
  · simp [hreport, textual] at h

theorem exists_expand_of_error_eq_none (h : (ofText limits text).error = none) :
    ∃ e p, Expr.ofText limits text = .ok e ∧ e.expand limits = .ok p := by
  obtain ⟨err, -, hreport⟩ | ⟨e, err, -, -, hreport⟩ | ⟨e, p, hread, he, -⟩ := ofText_cases limits text
  · simp [hreport] at h
  · simp [hreport] at h
  · exact ⟨e, p, hread, he⟩

/-- A report has the error with which normalizing fails, and its kind is unknown just when it has one. Like terms are
reported where combining them is available; in a text without an error they are there just when the expansion has fewer
terms than were collected. -/
theorem error_and_likeTerms (limits : Limits) (text : List Char) :
    ((ofText limits text).error.isSome ↔ (ofText limits text).kind = .unknown) ∧
      (∀ err, (ofText limits text).error = some err ↔ Transformation.normalize limits text = .error err) ∧
      (∀ message, (ofText limits text).error.map Error.message = some message ↔
        ∃ err, Transformation.normalize limits text = .error err ∧ err.message = message) ∧
      (ofText limits text).likeTerms = isOperationAvailable limits "combine" text ∧
      ((ofText limits text).error.isSome → (ofText limits text).likeTerms = false) ∧
      ((ofText limits text).error = none → ∃ e ts p, Expr.ofText limits text = .ok e ∧
        e.rawTerms limits = .ok ts ∧ e.expand limits = .ok p ∧
        ((ofText limits text).likeTerms ↔ p.terms.length < ts.length)) := by
  refine ⟨isSome_error_iff, fun err => error_eq_some_iff, fun message => ?_, ?_, likeTerms_of_error, fun h => ?_⟩
  · simp only [Option.map_eq_some_iff, error_eq_some_iff]
  · rw [likeTerms_eq_isAvailable, isOperationAvailable, show Operation.ofName? "combine" = some .combine from rfl]
  · obtain ⟨e, p, hread, hexpand⟩ := exists_expand_of_error_eq_none h
    obtain ⟨ts, hts, hcombine⟩ := Outcome.map_eq_ok.1 (e.rawTerms_map_combine.trans hexpand)
    refine ⟨e, ts, p, hread, hts, hexpand, ?_⟩
    rw [ofText_of_expanded hread hexpand, ← hcombine, ← hasLikeTerms_iff_length_lt (Expr.rawTermsSigned_ne_zero hts)]
    simp only [likeTermsIn, hts]

theorem error_and_likeTerms_sum :
    (ofText {} "3x-(x-y)".toList).error = none ∧ (ofText {} "3x-(x-y)".toList).likeTerms ∧
      ∃ e ts p, Expr.ofText {} "3x-(x-y)".toList = .ok e ∧ e.rawTerms {} = .ok ts ∧ e.expand {} = .ok p ∧
        p.terms.length < ts.length := by
  have hread : Expr.ofText {} "3x-(x-y)".toList = .ok (.binary .sub (.binary .mul (.num 3) (.var "x"))
      (.group (.binary .sub (.var "x") (.var "y")))) := by cbv
  have hexpand : (Expr.binary .sub (.binary .mul (.num 3) (.var "x"))
      (.group (.binary .sub (.var "x") (.var "y")))).expand {} =
      .ok ⟨[⟨2, .ofVariable "x"⟩, ⟨1, .ofVariable "y"⟩]⟩ := by cbv
  have herror : (ofText {} "3x-(x-y)".toList).error = none := by rw [ofText_of_expanded hread hexpand]; rfl
  have hlike : (ofText {} "3x-(x-y)".toList).likeTerms := by
    rw [ofText_of_expanded hread hexpand]
    change likeTermsIn {} _ = true
    cbv
  obtain ⟨-, -, -, -, -, hterms⟩ := error_and_likeTerms {} "3x-(x-y)".toList
  obtain ⟨e, ts, p, he, hts, hp, hiff⟩ := hterms herror
  exact ⟨herror, hlike, e, ts, p, he, hts, hp, hiff.1 hlike⟩

end Report

end Profile

end ExactAlgebra
