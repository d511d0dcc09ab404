import ExactAlgebra.Proofs.Indices.Collect
import ExactAlgebra.Profile.Shape

/-!
# Coefficients of chains

The numbers and minus signs of an expression that are no bases are multiplied into the coefficient of its chain, each
raised to a whole exponent. An expression without sums has a chain when all these powers can be formed. Otherwise the
first that cannot be formed says why there is none.
-/

namespace ExactAlgebra.Indices

/-- Whether an expression may have roots in it. -/
def Treatment.allowsRoots : Treatment → Bool
  | folded => false
  | kept => true

/-- The numbers that the coefficient is made of, from left to right, each with the exponent that it is raised to. A
minus sign is the number -1. -/
def scalars (treatment : Treatment) (k : ℚ) : Expr → List (ℚ × ℚ)
  | .num q => if q = 1 ∨ treatment = .kept ∧ isIntegerBase q then [] else [(q, k)]
  | .var _ => []
  | .group e => scalars treatment k e
  | .binary .div l r => scalars treatment k l ++ scalars treatment (-k) r
  | .binary _ l r => scalars treatment k l ++ scalars treatment k r
  | .power e n => scalars treatment (k * n) e
  | .negate e => (-1, k) :: scalars treatment k e
  | .sqrt e => scalars treatment (k / 2) e

/-- A number raised to an exponent that has to be whole. -/
def scalarPower (limits : Limits) (treatment : Treatment) (p : ℚ × ℚ) : Except Error ℚ := do
  let exponent ← integerExponent limits treatment p.2
  (Rational.power p.1 exponent).mapError .ofRational

/-- The product of numbers raised to exponents. -/
def scalarProduct (limits : Limits) (treatment : Treatment) (ps : List (ℚ × ℚ)) : Except Error ℚ :=
  (ps.mapM (scalarPower limits treatment)).map List.prod

/-- The exponent is whole and within the limits, and not negative over zero. -/
structure Raisable (limits : Limits) (p : ℚ × ℚ) : Prop where
  whole : p.2.den = 1
  word : isWord32 p.2.num
  bound : p.2.num.natAbs ≤ limits.maxPowerExponent.toNat
  defined : p.2 < 0 → p.1 ≠ 0

variable {limits : Limits} {treatment : Treatment} {k : ℚ} {e : Expr} {p : ℚ × ℚ} {ps qs : List (ℚ × ℚ)} {err : Error}

/-! ## Powers -/

/-- The three ways in which a power cannot be formed. -/
theorem scalarPower_eq_error (h : scalarPower limits treatment p = .error err) :
    p.2.den ≠ 1 ∧ err = treatment.notApplicable ∨
      p.2.den = 1 ∧ (err = .tooComplex .chainExponent ∨ err = .divisionByZero) := by
  rcases Outcome.bind_eq_error.1 h with h | ⟨n, hn, h⟩
  · unfold integerExponent at h
    split at h
    · rename_i hden
      cases h
      exact .inl ⟨hden, rfl⟩
    · rename_i hden
      split at h
      · cases h
      · cases h
        exact .inr ⟨not_not.1 hden, .inl rfl⟩
  · obtain ⟨e', he', rfl⟩ := Outcome.mapError_eq_error.1 h
    obtain ⟨_, _, rfl⟩ := Rational.power_eq_error he'
    refine .inr ⟨?_, .inr rfl⟩
    rw [integerExponent_eq_ok hn]
    exact Rat.den_intCast n

theorem scalarPower_notApplicable_iff :
    scalarPower limits treatment p = .error treatment.notApplicable ↔ p.2.den ≠ 1 := by
  constructor
  · intro h
    rcases scalarPower_eq_error h with ⟨hden, -⟩ | ⟨-, h | h⟩
    · exact hden
    · cases h
    · cases h
  · intro hden
    rw [scalarPower, integerExponent, if_pos hden]
    rfl

theorem exists_scalarPower_iff : (∃ v, scalarPower limits treatment p = .ok v) ↔ Raisable limits p := by
  constructor
  · rintro ⟨v, h⟩
    obtain ⟨n, hn, h⟩ := Outcome.bind_eq_ok.1 h
    have hexponent := integerExponent_eq_ok hn
    have hdefined := (Rational.power_eq_ok (Outcome.mapError_eq_ok.1 h)).1
    unfold integerExponent at hn
    split at hn
    · cases hn
    · rename_i hden
      split at hn
      · rename_i hbounds
        rw [Bool.and_eq_true, decide_eq_true_eq] at hbounds
        refine ⟨not_not.1 hden, hbounds.1, hbounds.2, fun hneg => hdefined ?_⟩
        rw [hexponent] at hneg
        exact Int.cast_lt_zero.1 hneg
      · cases hn
  · intro h
    have hexponent : integerExponent limits treatment p.2 = .ok p.2.num := by
      rw [integerExponent, if_neg (not_not.2 h.whole), if_pos]
      simp [h.word, h.bound]
    rw [scalarPower, hexponent, Outcome.ok_bind]
    cases hpower : Rational.power p.1 p.2.num with
    | ok v => exact ⟨v, rfl⟩
    | error e' =>
        obtain ⟨hneg, hzero, -⟩ := Rational.power_eq_error hpower
        exact absurd hzero (h.defined (Rat.num_neg.1 hneg))

theorem scalarPower_neg_one (k : ℚ) :
    scalarPower limits treatment (-1, k) =
      (integerExponent limits treatment k).map fun n => if n % 2 = 0 then 1 else -1 := by
  rw [scalarPower]
  cases integerExponent limits treatment k with
  | error e' => rfl
  | ok n =>
      rw [Outcome.ok_bind, Outcome.map_ok]
      cases hpower : Rational.power (-1) n with
      | error e' =>
          obtain ⟨-, hzero, -⟩ := Rational.power_eq_error hpower
          norm_num at hzero
      | ok v =>
          obtain ⟨-, rfl⟩ := Rational.power_eq_ok hpower
          rw [Outcome.mapError_ok]
          split
          · rename_i heven
            rw [(Int.even_iff.2 heven).neg_one_zpow]
          · rename_i hodd
            rw [(Int.odd_iff.2 (Int.emod_two_ne_zero.1 hodd)).neg_one_zpow]

/-! ## Products -/

@[simp] theorem scalarProduct_nil : scalarProduct limits treatment [] = .ok 1 := rfl

theorem scalarProduct_cons :
    scalarProduct limits treatment (p :: ps) = do
      let a ← scalarPower limits treatment p
      let b ← scalarProduct limits treatment ps
      return a * b := by
  rw [scalarProduct, scalarProduct, List.mapM_cons]
  cases scalarPower limits treatment p <;> cases ps.mapM (scalarPower limits treatment) <;> rfl

theorem scalarProduct_append :
    scalarProduct limits treatment (ps ++ qs) = do
      let a ← scalarProduct limits treatment ps
      let b ← scalarProduct limits treatment qs
      return a * b := by
  simp only [scalarProduct, List.mapM_append]
  cases ps.mapM (scalarPower limits treatment) <;> cases qs.mapM (scalarPower limits treatment) <;> simp

theorem exists_scalarProduct_iff :
    (∃ v, scalarProduct limits treatment ps = .ok v) ↔ ∀ p ∈ ps, Raisable limits p := by
  induction ps with
  | nil => exact iff_of_true ⟨1, rfl⟩ nofun
  | cons p ps ih =>
      rw [List.forall_mem_cons, ← ih, ← exists_scalarPower_iff, scalarProduct_cons]
      constructor
      · rintro ⟨_, h⟩
        obtain ⟨a, ha, h⟩ := Outcome.bind_eq_ok.1 h
        obtain ⟨b, hb, -⟩ := Outcome.bind_eq_ok.1 h
        exact ⟨⟨a, ha⟩, b, hb⟩
      · rintro ⟨⟨a, ha⟩, b, hb⟩
        rw [ha, hb]
        exact ⟨a * b, rfl⟩

theorem scalarProduct_eq_error_iff :
    scalarProduct limits treatment ps = .error err ↔ ∃ before p after, ps = before ++ p :: after ∧
      (∀ q ∈ before, Raisable limits q) ∧ scalarPower limits treatment p = .error err := by
  simp only [scalarProduct, Outcome.map_eq_error, Outcome.mapM_eq_error, exists_scalarPower_iff]

/-! ## Chains -/

theorem numberPower_map_coefficient (q k : ℚ) :
    (numberPower limits treatment q k).map Chain.coefficient =
      scalarProduct limits treatment (scalars treatment k (.num q)) := by
  unfold numberPower scalars
  by_cases hone : q = 1
  · simp [hone, Chain.ofNumber]
  · by_cases hbase : treatment = .kept ∧ isIntegerBase q
    · simp [hone, hbase, Chain.ofPower]
    · have hbase' : ¬ (treatment = .kept && isIntegerBase q) := by simpa using hbase
      rw [if_neg hone, if_neg hbase', if_neg (by simp [hone, hbase]), scalarProduct_cons, scalarPower]
      cases integerExponent limits treatment k with
      | error e' => rfl
      | ok n =>
          simp only [Outcome.ok_bind]
          cases (Rational.power q n).mapError Error.ofRational <;> simp [Chain.ofNumber]

theorem map_coefficient_mul {x y : Except Error Chain} {a b : Except Error ℚ} (hx : x.map Chain.coefficient = a)
    (hy : y.map Chain.coefficient = b) :
    (do return (← x).mul (← y)).map Chain.coefficient = (do return (← a) * (← b)) := by
  subst hx hy
  cases x <;> cases y <;> rfl

/-- The coefficient of the chain of an expression without sums is the product of its numbers, and where there is none,
there is no chain for the same reason. -/
theorem chain_map_coefficient (h : e.any (Profile.breaksChain treatment.allowsRoots) = false) :
    (chain limits treatment k e).map Chain.coefficient = scalarProduct limits treatment (scalars treatment k e) := by
  fun_induction chain limits treatment k e with
  | case1 k q => exact numberPower_map_coefficient q k
  | case2 k name => rfl
  | case3 k e ih => exact ih (Bool.or_eq_false_iff.1 h).2
  | case4 k l r ihl ihr | case5 k l r ihl ihr =>
      obtain ⟨hl, hr⟩ := Bool.or_eq_false_iff.1 (Bool.or_eq_false_iff.1 h).2
      exact (map_coefficient_mul (ihl hl) (ihr hr)).trans scalarProduct_append.symm
  | case6 k e n ih => exact ih (Bool.or_eq_false_iff.1 h).2
  | case7 k e ih =>
      rw [scalars, scalarProduct_cons, scalarPower_neg_one, ← ih (Bool.or_eq_false_iff.1 h).2]
      cases integerExponent limits treatment k with
      | error e' => rfl
      | ok n =>
          cases chain limits treatment k e with
          | error e' => rfl
          | ok c =>
              simp only [Outcome.ok_bind, Outcome.map_ok, Outcome.pure_eq_ok]
              split <;> simp [Chain.mul, Chain.ofNumber]
  | case8 k e ht ih =>
      subst ht
      exact ih (Bool.or_eq_false_iff.1 h).2
  | case9 k e ht =>
      subst ht
      cases h
  | case10 | case11 => cases h

theorem exists_chain_iff (h : e.any (Profile.breaksChain treatment.allowsRoots) = false) :
    (∃ c, chain limits treatment k e = .ok c) ↔ ∀ p ∈ scalars treatment k e, Raisable limits p := by
  rw [← exists_scalarProduct_iff, ← chain_map_coefficient h, Outcome.exists_map_eq_ok]

theorem chain_eq_error_iff (h : e.any (Profile.breaksChain treatment.allowsRoots) = false) :
    chain limits treatment k e = .error err ↔ ∃ before p after, scalars treatment k e = before ++ p :: after ∧
      (∀ q ∈ before, Raisable limits q) ∧ scalarPower limits treatment p = .error err := by
  rw [← scalarProduct_eq_error_iff, ← chain_map_coefficient h, Outcome.map_eq_error]

/-- Without roots all exponents stay whole. -/
theorem whole_of_mem_scalars (h : e.any (Profile.breaksChain false) = false) (hk : k.den = 1) :
    ∀ p ∈ scalars treatment k e, p.2.den = 1 := by
  have hneg {k : ℚ} (hk : k.den = 1) : (-k).den = 1 := by rwa [Rat.neg_den]
  have hmul {k : ℚ} (n : ℤ) (hk : k.den = 1) : (k * n).den = 1 := by
    obtain hk := (Rat.den_eq_one_iff k).1 hk
    rw [← hk, ← Int.cast_mul]
    exact Rat.den_intCast _
  fun_induction scalars treatment k e with
  | case1 => nofun
  | case2 => exact List.forall_mem_singleton.2 hk
  | case3 => nofun
  | case4 k e ih => exact ih (Bool.or_eq_false_iff.1 h).2 hk
  | case5 k l r ihl ihr =>
      obtain ⟨hl, hr⟩ := Bool.or_eq_false_iff.1 (Bool.or_eq_false_iff.1 h).2
      exact List.forall_mem_append.2 ⟨ihl hl hk, ihr hr (hneg hk)⟩
  | case6 k op l r _ ihl ihr =>
      obtain ⟨hl, hr⟩ := Bool.or_eq_false_iff.1 (Bool.or_eq_false_iff.1 h).2
      exact List.forall_mem_append.2 ⟨ihl hl hk, ihr hr hk⟩
  | case7 k e n ih => exact ih (Bool.or_eq_false_iff.1 h).2 (hmul n hk)
  | case8 k e ih => exact List.forall_mem_cons.2 ⟨hk, ih (Bool.or_eq_false_iff.1 h).2 hk⟩
  | case9 => cases h

end ExactAlgebra.Indices
