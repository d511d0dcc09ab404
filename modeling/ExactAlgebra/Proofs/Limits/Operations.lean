import ExactAlgebra.Proofs.Limits.Parsing
import ExactAlgebra.Proofs.Polynomial.Canonical
import ExactAlgebra.Transformation
import Mathlib

/-!
# Operations within smaller limits

Limits bound the work and nothing else: an operation has the same outcome within larger limits, text or error,
unless one of the smaller limits is exceeded.
-/

namespace ExactAlgebra

open Outcome (AgreesUnless)

/-- No limit on polynomials is above the corresponding one of the other budget. -/
structure Budget.Within (b b' : Budget) : Prop where
  maxTerms : b.maxTerms ≤ b'.maxTerms
  maxTotalDegree : b.maxTotalDegree ≤ b'.maxTotalDegree
  maxCoefficientBits : b.maxCoefficientBits ≤ b'.maxCoefficientBits

/-- No limit is above the corresponding one of the others. -/
structure Limits.Within (limits limits' : Limits) : Prop extends
    limits.toBudget.Within limits'.toBudget where
  maxDepth : limits.maxDepth ≤ limits'.maxDepth
  maxPowerExponent : limits.maxPowerExponent ≤ limits'.maxPowerExponent
  maxFactorInput : limits.maxFactorInput ≤ limits'.maxFactorInput

/-! ## Products and powers -/

namespace Polynomial

variable {b b' : Budget} {p q r : Polynomial}

theorem checkCoefficients_eq_ok_iff {u : Unit} :
    checkCoefficients b p = .ok u ↔ p.coefficientWidth ≤ b.maxCoefficientBits.toNat := by
  unfold checkCoefficients
  split
  · rename_i hwide
    simp [Nat.not_le.2 hwide]
  · rename_i hwide
    simp [Nat.not_lt.1 hwide]

/-- A product is formed just when its parts are within the budget. -/
theorem mul_eq_ok_iff : mul b p q = .ok r ↔
    saturate (p.terms.length * q.terms.length) ≤ saturate (b.maxTerms.toNat * 4) ∧
      ∃ products, termProducts? b p q = some products ∧ r = combine products ∧
        r.terms.length ≤ b.maxTerms.toNat ∧ r.coefficientWidth ≤ b.maxCoefficientBits.toNat := by
  rw [← Nat.not_lt]
  constructor
  · intro h
    simp only [mul] at h
    split at h
    · cases h
    · rename_i hcount
      split at h
      · cases h
      · rename_i products hproducts
        split at h
        · cases h
        · rename_i hterms
          obtain ⟨_, hwidth, h⟩ := Outcome.bind_eq_ok.1 h
          cases h
          exact ⟨hcount, products, hproducts, rfl, Nat.not_lt.1 hterms, checkCoefficients_eq_ok_iff.1 hwidth⟩
  · rintro ⟨hcount, products, hproducts, rfl, hterms, hwidth⟩
    have hcheck : checkCoefficients b (combine products) = .ok () := checkCoefficients_eq_ok_iff.2 hwidth
    simp [mul, hcount, hproducts, Nat.not_lt.2 hterms, hcheck]

theorem mapM_eq_some_of_imp {α β : Type} {f g : α → Option β} (hfg : ∀ x y, f x = some y → g x = some y)
    {xs : List α} {ys : List β} (h : xs.mapM f = some ys) : xs.mapM g = some ys := by
  induction xs generalizing ys with
  | nil => exact h
  | cons x xs ih =>
      simp only [List.mapM_cons, bind, Option.bind_eq_some_iff, pure, Option.some.injEq] at h ⊢
      obtain ⟨y, hy, ys, hys, rfl⟩ := h
      exact ⟨y, hfg x y hy, ys, ih hys, rfl⟩

variable (hb : b.Within b')
include hb

theorem termProducts?_of_within {ts : List Term} (h : termProducts? b p q = some ts) :
    termProducts? b' p q = some ts := by
  have hdegree := UInt32.le_iff_toNat_le.1 hb.maxTotalDegree
  refine mapM_eq_some_of_imp (fun pair u hu => ?_) h
  obtain ⟨hproduct, hu⟩ := Option.filter_eq_some_iff.1 hu
  exact Option.filter_eq_some_iff.2 ⟨hproduct, decide_eq_true ((of_decide_eq_true hu).trans hdegree)⟩

theorem mul_of_within (h : mul b p q = .ok r) : mul b' p q = .ok r := by
  have hterms := UInt64.le_iff_toNat_le.1 hb.maxTerms
  have hbits := UInt64.le_iff_toNat_le.1 hb.maxCoefficientBits
  obtain ⟨hcount, products, hproducts, rfl, hlength, hwidth⟩ := mul_eq_ok_iff.1 h
  refine mul_eq_ok_iff.2 ⟨?_, products, termProducts?_of_within hb hproducts, rfl, hlength.trans hterms,
    hwidth.trans hbits⟩
  simp only [saturate] at hcount ⊢
  omega

theorem mulRepeatedly_of_within {n : Nat} (h : mulRepeatedly b p q n = .ok r) :
    mulRepeatedly b' p q n = .ok r := by
  induction n generalizing q with
  | zero => exact h
  | succ n ih =>
      rw [mulRepeatedly] at h ⊢
      split at h
      · cases h
      · rename_i product hproduct
        rw [mul_of_within hb hproduct]
        exact ih h

end Polynomial

/-! ## Expansion -/

/-- What fails only by exceeding a budget agrees, when its answers are kept. -/
theorem agrees_of_ok {α : Type} {x y : Except Excess α} (h : ∀ a, x = .ok a → y = .ok a) :
    Agrees (x.mapError Error.tooComplex) (y.mapError Error.tooComplex) :=
  AgreesUnless.mapError (AgreesUnless.of_ok (fun _ => trivial) h) fun excess (_ : True) => ⟨excess, rfl⟩

variable {limits limits' : Limits} (h : limits.Within limits')
include h

theorem Polynomial.power_agrees (p : Polynomial) (n : Int) : Agrees (p.power limits n) (p.power limits' n) := by
  have hexponent := UInt32.le_iff_toNat_le.1 h.maxPowerExponent
  have hbits := UInt64.le_iff_toNat_le.1 h.maxCoefficientBits
  rw [power]
  split
  · exact agrees_tooComplex _
  · rename_i hn
    rw [power, if_neg (c := limits'.maxPowerExponent.toNat < n.natAbs) (by omega)]
    split
    · exact agrees_of_ok fun r => mulRepeatedly_of_within h.toWithin
    · split
      · exact .refl _
      · split
        · refine (AgreesUnless.refl _).bind fun value => ?_
          refine AgreesUnless.bind (agrees_of_ok fun _ hvalue => ?_) fun _ => .refl _
          exact checkCoefficients_eq_ok_iff.2 ((checkCoefficients_eq_ok_iff.1 hvalue).trans hbits)
        · exact .refl _

theorem Operator.apply_agrees (op : Operator) (p q : Polynomial) :
    Agrees (op.apply limits p q) (op.apply limits' p q) := by
  cases op with
  | add | sub | div => exact .refl _
  | mul => exact agrees_of_ok fun r => Polynomial.mul_of_within h.toWithin

namespace Expr

theorem expand_agrees (e : Expr) : Agrees (e.expand limits) (e.expand limits') := by
  induction e with
  | num value => exact .refl _
  | var name => exact .refl _
  | binary op left right ihl ihr => exact ihl.bind fun p => ihr.bind fun q => op.apply_agrees h p q
  | power base n ih => exact ih.bind fun p => p.power_agrees h n
  | negate inner ih => exact ih.bind fun p => .refl _
  | group inner ih => exact ih
  | sqrt inner ih => exact ih.bind fun p => .refl _

theorem summandTerms_agrees (negated : Bool) (e : Expr) :
    Agrees (e.summandTerms limits negated) (e.summandTerms limits' negated) :=
  (e.expand_agrees h).bind fun _ => .refl _

theorem rawTermsSigned_agrees (negated : Bool) (e : Expr) :
    Agrees (e.rawTermsSigned limits negated) (e.rawTermsSigned limits' negated) := by
  induction e generalizing negated with
  | num value => exact summandTerms_agrees h negated _
  | var name => exact summandTerms_agrees h negated _
  | binary op left right ihl ihr =>
      cases op with
      | add => exact (ihl negated).bind fun _ => (ihr negated).bind fun _ => .refl _
      | sub => exact (ihl negated).bind fun _ => (ihr (!negated)).bind fun _ => .refl _
      | mul | div => exact summandTerms_agrees h negated _
  | power base n ih => exact summandTerms_agrees h negated _
  | negate inner ih => exact ih (!negated)
  | group inner ih => exact ih negated
  | sqrt inner ih => exact summandTerms_agrees h negated _

end Expr

/-! ## Indices -/

namespace Indices

theorem integerExponent_agrees (treatment : Treatment) (k : Rat) :
    Agrees (integerExponent limits treatment k) (integerExponent limits' treatment k) := by
  have hexponent := UInt32.le_iff_toNat_le.1 h.maxPowerExponent
  unfold integerExponent
  split
  · exact .refl _
  · split
    · rename_i hk
      simp only [Bool.and_eq_true, decide_eq_true_eq] at hk
      rw [if_pos (by simp [hk.1]; omega)]
      exact .refl _
    · exact agrees_tooComplex _

theorem numberPower_agrees (treatment : Treatment) (value k : Rat) :
    Agrees (numberPower limits treatment value k) (numberPower limits' treatment value k) := by
  unfold numberPower
  split
  · exact .refl _
  · split
    · exact .refl _
    · exact (integerExponent_agrees h treatment k).bind fun exponent => .refl _

theorem chain_agrees (treatment : Treatment) (k : Rat) (e : Expr) :
    Agrees (chain limits treatment k e) (chain limits' treatment k e) := by
  induction e generalizing k with
  | num value => exact numberPower_agrees h treatment value k
  | var name => exact .refl _
  | binary op left right ihl ihr =>
      cases op with
      | add | sub => exact .refl _
      | mul => exact (ihl k).bind fun a => (ihr k).bind fun b => .refl _
      | div => exact (ihl k).bind fun a => (ihr (-k)).bind fun b => .refl _
  | power base n ih => exact ih (k * n)
  | negate inner ih =>
      exact (integerExponent_agrees h treatment k).bind fun exponent => (ih k).bind fun c => .refl _
  | group inner ih => exact ih k
  | sqrt inner ih =>
      cases treatment with
      | kept => exact ih (k / 2)
      | folded => exact .refl _

end Indices

/-! ## Operations -/

theorem Expr.ofText_agrees (text : List Char) : Agrees (ofText limits text) (ofText limits' text) :=
  AgreesUnless.mapError (Latex.parse_agrees (UInt64.le_iff_toNat_le.1 h.maxDepth) text) fun e he => by
    obtain ⟨limit, rfl⟩ := he
    exact ⟨_, rfl⟩

theorem Polynomial.ofText_agrees (text : List Char) : Agrees (ofText limits text) (ofText limits' text) :=
  (Expr.ofText_agrees h text).bind fun e => e.expand_agrees h

namespace Transformation

theorem combine_agrees (text : List Char) : Agrees (combine limits text) (combine limits' text) :=
  (Expr.ofText_agrees h text).bind fun e => (e.rawTermsSigned_agrees h false).bind fun _ => .refl _

theorem expand_agrees (text : List Char) : Agrees (expand limits text) (expand limits' text) :=
  (Polynomial.ofText_agrees h text).bind fun _ => .refl _

theorem reduce_agrees (text : List Char) : Agrees (reduce limits text) (reduce limits' text) := by
  unfold reduce
  split
  · exact .refl _
  · exact expand_agrees h text

theorem primeFactorize_agrees (text : List Char) :
    Agrees (primeFactorize limits text) (primeFactorize limits' text) := by
  have hfactor := UInt64.le_iff_toNat_le.1 h.maxFactorInput
  refine (Polynomial.ofText_agrees h text).bind fun p => ?_
  simp only
  split
  · exact .refl _
  · split
    · exact .refl _
    · split
      · exact agrees_tooComplex _
      · rename_i hc
        rw [if_neg (by omega)]
        exact .refl _

theorem simplifyIndices_agrees (text : List Char) :
    Agrees (simplifyIndices limits text) (simplifyIndices limits' text) :=
  (Expr.ofText_agrees h text).bind fun e => (Indices.chain_agrees h .folded 1 e).bind fun _ => .refl _

theorem simplifyOneTerm_agrees (text : List Char) :
    Agrees (simplifyOneTerm limits text) (simplifyOneTerm limits' text) :=
  (Expr.ofText_agrees h text).bind fun e => (Indices.chain_agrees h .kept 1 e).bind fun _ => .refl _

theorem numberCalculate_agrees (text : List Char) :
    Agrees (numberCalculate limits text) (numberCalculate limits' text) :=
  (Arithmetic.evaluate_agrees h.maxDepth text).map _

end Transformation

theorem Operation.apply_agrees (op : Operation) (text : List Char) :
    Agrees (op.apply limits text) (op.apply limits' text) := by
  cases op with
  | combine => exact Transformation.combine_agrees h text
  | reduce => exact Transformation.reduce_agrees h text
  | expand => exact Transformation.expand_agrees h text
  | primeFactorize => exact Transformation.primeFactorize_agrees h text
  | simplifyIndices => exact Transformation.simplifyIndices_agrees h text
  | normalize => exact Transformation.expand_agrees h text
  | decimalFraction => exact .refl _
  | simplifyOneTerm => exact Transformation.simplifyOneTerm_agrees h text
  | numberCalculate => exact Transformation.numberCalculate_agrees h text

/-- Within larger limits an operation has the same outcome, unless one of the smaller limits is exceeded; so an answer
stays the answer. -/
theorem applyOperation_of_within (name : String) (text : List Char) :
    (applyOperation limits name text = applyOperation limits' name text ∨
        ∃ excess, applyOperation limits name text = .error (.tooComplex excess)) ∧
      ∀ answer, applyOperation limits name text = .ok answer → applyOperation limits' name text = .ok answer := by
  have hagrees : Agrees (applyOperation limits name text) (applyOperation limits' name text) := by
    unfold applyOperation
    split
    · exact Operation.apply_agrees h _ text
    · exact .refl _
  refine ⟨?_, fun answer => hagrees.ok⟩
  rcases hagrees with hequal | ⟨e, ⟨excess, rfl⟩, he⟩
  · exact .inl hequal
  · exact .inr ⟨excess, he⟩

omit h in
theorem applyOperation_of_within_square :
    let small : Limits := { maxPowerExponent := 2 }
    small.Within {} ∧ applyOperation small "expand" "(x+1)^2".toList = .ok "x^\x7b2\x7d+2x+1" ∧
      applyOperation {} "expand" "(x+1)^2".toList = .ok "x^\x7b2\x7d+2x+1" ∧
      applyOperation small "expand" "(x+1)^3".toList = .error (.tooComplex (.exponent 3)) := by
  intro small
  have hwithin : small.Within {} := ⟨⟨by decide, by decide, by decide⟩, by decide, by decide, by decide⟩
  have hsquare : applyOperation small "expand" "(x+1)^2".toList = .ok "x^\x7b2\x7d+2x+1" := by cbv
  exact ⟨hwithin, hsquare, (applyOperation_of_within hwithin "expand" _).2 _ hsquare, by cbv⟩

end ExactAlgebra
