import ExactAlgebra.Proofs.Indices.Laws
import ExactAlgebra.Proofs.Indices.Tree

/-!
# Values of written chains

What a chain is written as has the value of the chain, wherever it has a value, and it has one when all exponents
are integers and no base is zero.
-/

namespace ExactAlgebra.Indices

variable {K : Type} [Field K] {L : Laws K} {ρ : String → ℚ} {p : Base × ℚ} {ps : List (Base × ℚ)} {e : Expr}

/-! ## Factors over and under the bar -/

theorem readPowers_above_below (c : Chain) :
    readPowers L ρ c.above * (readPowers L ρ c.below)⁻¹ = readPowers L ρ c.powers := by
  unfold Chain.above Chain.below
  -- what is neither above nor below the bar has exponent zero
  induction c.powers with
  | nil => simp
  | cons p ps ih =>
      rw [readPowers_cons, ← ih]
      rcases lt_trichotomy p.2 0 with hneg | hzero | hpos
      · rw [List.filter_cons_of_neg (by simpa using hneg.le), List.filter_cons_of_pos (by simpa using hneg),
          List.map_cons, readPowers_cons, L.raise_neg, mul_inv, inv_inv]
        ring
      · rw [List.filter_cons_of_neg (by simp [hzero]), List.filter_cons_of_neg (by simp [hzero]), hzero,
          L.raise_zero, one_mul]
      · rw [List.filter_cons_of_pos (by simpa using hpos), List.filter_cons_of_neg (by simpa using hpos.le),
          readPowers_cons, mul_assoc]

theorem readPowers_numerator (c : Chain) :
    readPowers L ρ c.numerator = L.raise c.coefficient.num.natAbs 1 * readPowers L ρ c.above := by
  unfold Chain.numerator
  split
  · exact readPowers_cons ..
  · rename_i h
    rw [not_or, not_not] at h
    rw [h.1, Nat.cast_one, L.raise_one_left L.admits_one, one_mul]

theorem readPowers_denominator (c : Chain) :
    readPowers L ρ c.denominator = L.raise c.coefficient.den 1 * readPowers L ρ c.below := by
  unfold Chain.denominator
  split
  · exact readPowers_cons ..
  · rename_i h
    rw [not_not.1 h, Nat.cast_one, L.raise_one_left L.admits_one, one_mul]

theorem raise_abs (q : ℚ) : L.raise |q| 1 = L.raise q.num.natAbs 1 * (L.raise q.den 1)⁻¹ := by
  rw [Rat.abs_def, Rat.divInt_eq_div, Int.cast_natCast, Int.cast_natCast, L.raise_div _ _ L.admits_one, L.raise_neg]

theorem readPowers_fraction (c : Chain) :
    readPowers L ρ c.numerator * (readPowers L ρ c.denominator)⁻¹ =
      L.raise |c.coefficient| 1 * readPowers L ρ c.powers := by
  rw [readPowers_numerator, readPowers_denominator, raise_abs, ← readPowers_above_below, mul_inv]
  ring

/-! ## Values -/

theorem Base.hasValue_tree (b : Base) : b.tree.HasValue ρ (b.value ρ) := by
  cases b with
  | integer n => exact .V_Num
  | letter name => exact .V_Var

theorem eq_half {k : ℚ} (h : k.num = 1 ∧ k.den = 2) : k * 2 = 1 := by
  rw [← Rat.num_div_den k, h.1, h.2]
  norm_num

/-- The value of a written power is the power. -/
theorem raise_of_hasValue_power (hread : Readable p.2) (hk : L.Admits p.2) {r : ℚ}
    (h : (powerTree p).HasValue ρ r) : L.raise r 1 = L.raise (p.1.value ρ) p.2 := by
  unfold powerTree at h
  split at h
  · rename_i hone
    rw [h.unique p.1.hasValue_tree, hone]
  · split at h
    · rename_i hroot
      cases h with
      | V_Sqrt hb _ hr =>
          rw [p.1.hasValue_tree.unique hb, ← hr, L.raise_square _ hk, eq_half hroot]
    · rename_i hroot
      have hden := (hread.resolve_left hroot).1
      cases h with
      | V_Power hb _ =>
          rw [hb.unique p.1.hasValue_tree, ← L.raise_intCast, (Rat.den_eq_one_iff _).1 hden]

theorem raise_of_hasValue_timesPowers (hps : ∀ p ∈ ps, Readable p.2 ∧ L.Admits p.2) {w : ℚ}
    (h : (timesPowers e ps).HasValue ρ w) :
    ∃ v, e.HasValue ρ v ∧ L.raise w 1 = L.raise v 1 * readPowers L ρ ps := by
  induction ps generalizing e with
  | nil => exact ⟨w, h, (mul_one _).symm⟩
  | cons p ps ih =>
      have ⟨⟨hread, hk⟩, hps⟩ := List.forall_mem_cons.1 hps
      obtain ⟨v, hv, hw⟩ := ih hps h
      cases hv with
      | V_Mul he hp =>
          refine ⟨_, he, ?_⟩
          rw [hw, L.raise_mul, raise_of_hasValue_power hread hk hp, readPowers_cons, mul_assoc]

theorem raise_of_hasValue_product (hps : ∀ p ∈ ps, Readable p.2 ∧ L.Admits p.2) {w : ℚ}
    (h : (productTree false ps).HasValue ρ w) : L.raise w 1 = readPowers L ρ ps := by
  cases ps with
  | nil =>
      cases h
      exact L.raise_one_left L.admits_one
  | cons p ps =>
      have ⟨⟨hread, hk⟩, hps⟩ := List.forall_mem_cons.1 hps
      obtain ⟨v, hv, hw⟩ := raise_of_hasValue_timesPowers hps h
      rw [hw, raise_of_hasValue_power hread hk hv, readPowers_cons]

namespace Chain

variable {c : Chain}

theorem admits_numerator (hc : c.Supported L ρ) : ∀ p ∈ c.numerator, L.Admits p.2 :=
  forall_numerator L.admits_one fun p hp _ => (hc p hp).2

theorem admits_denominator (hc : c.Supported L ρ) : ∀ p ∈ c.denominator, L.Admits p.2 :=
  forall_denominator L.admits_one fun p hp _ => L.admits_neg _ (hc p hp).2

theorem raise_of_hasValue_magnitude (hne : c.coefficient ≠ 0) (hread : c.Readable) (hc : c.Supported L ρ) {w : ℚ}
    (h : c.magnitudeTree.HasValue ρ w) : L.raise w 1 = L.raise |c.coefficient| 1 * readPowers L ρ c.powers := by
  have hnumerator : ∀ p ∈ c.numerator, Indices.Readable p.2 ∧ L.Admits p.2 :=
    fun p hp => ⟨(hread hne).1 p hp, admits_numerator hc p hp⟩
  have hdenominator : ∀ p ∈ c.denominator, Indices.Readable p.2 ∧ L.Admits p.2 :=
    fun p hp => ⟨(hread hne).2 p hp, admits_denominator hc p hp⟩
  rw [← readPowers_fraction]
  unfold magnitudeTree at h
  split at h
  · rename_i hempty
    rw [List.isEmpty_iff.1 hempty, readPowers_nil, inv_one, mul_one, raise_of_hasValue_product hnumerator h]
  · cases h with
    | V_Div ha hb _ =>
        rw [L.raise_div _ _ L.admits_one, L.raise_neg, raise_of_hasValue_product hnumerator ha,
          raise_of_hasValue_product hdenominator hb]

/-- The value of a written chain is the value of the chain. -/
theorem raise_of_hasValue (hread : c.Readable) (hc : c.Supported L ρ) {w : ℚ} (h : c.tree.HasValue ρ w) :
    L.raise w 1 = c.read L ρ := by
  unfold tree at h
  split at h
  · rename_i hzero
    cases h
    rw [read, hzero, (L.raise_one_eq_zero 0).2 rfl, zero_mul]
  · rename_i hne
    have hmagnitude := raise_of_hasValue_magnitude hne hread hc ((Expr.hasValue_signed_iff _).1 h)
    by_cases hneg : c.coefficient < 0
    · rw [decide_eq_true hneg, if_pos rfl, abs_of_neg hneg, neg_eq_neg_one_mul, L.raise_mul,
        neg_eq_neg_one_mul c.coefficient, L.raise_mul, mul_assoc] at hmagnitude
      exact mul_left_cancel₀ (mt (L.raise_one_eq_zero (-1)).1 (by norm_num)) hmagnitude
    · rw [decide_eq_false hneg, if_neg Bool.false_ne_true, abs_of_nonneg (not_lt.1 hneg)] at hmagnitude
      exact hmagnitude

end Chain

/-- Where an expression and its written chain have values, these have the same powers. -/
theorem Collects.raise_eq {treatment : Treatment} {c : Chain} (h : Collects treatment 1 e c)
    (hroots : L.AdmitsRoots treatment) (hread : c.Readable) (hρ : ∀ name ∈ e.names, ρ name ≠ 0) {v w : ℚ}
    (hv : e.HasValue ρ v) (hw : c.tree.HasValue ρ w) :
    L.raise w 1 = L.raise v 1 := by
  rw [c.raise_of_hasValue hread (h.supported hroots L.admits_one hρ) hw, h.read hroots L.admits_one hρ hv]

/-! ## Integer exponents -/

theorem exists_hasValue_power (hint : p.2.den = 1) (hpos : 0 < p.2) : ∃ r, (powerTree p).HasValue ρ r := by
  unfold powerTree
  split
  · exact ⟨_, p.1.hasValue_tree⟩
  · split
    · omega
    · exact ⟨_, .V_Power p.1.hasValue_tree fun hneg => absurd (Rat.num_pos.2 hpos) hneg.le.not_gt⟩

theorem exists_hasValue_timesPowers (hps : ∀ p ∈ ps, p.2.den = 1 ∧ 0 < p.2) (he : ∃ v, e.HasValue ρ v) :
    ∃ w, (timesPowers e ps).HasValue ρ w := by
  induction ps generalizing e with
  | nil => exact he
  | cons p ps ih =>
      have ⟨⟨hint, hpos⟩, hps⟩ := List.forall_mem_cons.1 hps
      obtain ⟨r, hr⟩ := exists_hasValue_power (ρ := ρ) hint hpos
      obtain ⟨v, hv⟩ := he
      exact ih hps ⟨_, .V_Mul hv hr⟩

theorem exists_hasValue_product (hps : ∀ p ∈ ps, p.2.den = 1 ∧ 0 < p.2) :
    ∃ w, (productTree false ps).HasValue ρ w := by
  cases ps with
  | nil => exact ⟨1, .V_Num⟩
  | cons p ps =>
      have ⟨⟨hint, hpos⟩, hps⟩ := List.forall_mem_cons.1 hps
      exact exists_hasValue_timesPowers hps (exists_hasValue_power hint hpos)

theorem readPowers_integral_ne_zero (hps : ∀ p ∈ ps, p.1.value ρ ≠ 0) : readPowers .integral ρ ps ≠ 0 := by
  refine List.prod_ne_zero fun hzero => ?_
  obtain ⟨p, hp, hpower⟩ := List.mem_map.1 hzero
  exact zpow_ne_zero _ (hps p hp) hpower

namespace Chain

variable {c : Chain}

theorem value_denominator_ne_zero (hc : c.Supported L ρ) : ∀ p ∈ c.denominator, p.1.value ρ ≠ 0 :=
  forall_denominator (Nat.cast_ne_zero.2 c.coefficient.den_nz) fun p hp _ => (hc p hp).1

theorem exponent_of_integral (hletters : c.Lettered) (hne : c.coefficient ≠ 0) (hc : c.Supported .integral ρ) :
    (∀ p ∈ c.numerator, p.2.den = 1 ∧ 0 < p.2) ∧ ∀ p ∈ c.denominator, p.2.den = 1 ∧ 0 < p.2 := by
  have hden {k : ℚ} (hk : Laws.integral.Admits k) : k.den = 1 := by
    obtain ⟨n, rfl⟩ := hk
    exact Rat.den_intCast n
  exact ⟨fun p hp => ⟨hden (admits_numerator hc p hp), (written_numerator hletters hne p hp).2⟩,
    fun p hp => ⟨hden (admits_denominator hc p hp), (written_denominator hletters p hp).2⟩⟩

/-- A chain with integer exponents has a value where no base is zero. -/
theorem exists_hasValue (hletters : c.Lettered) (hread : c.Readable) (hc : c.Supported .integral ρ) :
    ∃ w, c.tree.HasValue ρ w := by
  unfold tree
  split
  · exact ⟨0, .V_Num⟩
  · rename_i hne
    obtain ⟨hnumerator, hdenominator⟩ := exponent_of_integral hletters hne hc
    have hmagnitude : ∃ m, c.magnitudeTree.HasValue ρ m := by
      unfold magnitudeTree
      split
      · exact exists_hasValue_product hnumerator
      · obtain ⟨a, ha⟩ := exists_hasValue_product (ρ := ρ) hnumerator
        obtain ⟨b, hb⟩ := exists_hasValue_product (ρ := ρ) hdenominator
        have hb' := raise_of_hasValue_product
          (fun p hp => ⟨(hread hne).2 p hp, admits_denominator hc p hp⟩) hb
        refine ⟨_, .V_Div ha hb fun hzero => ?_⟩
        rw [hzero, (Laws.integral.raise_one_eq_zero 0).2 rfl] at hb'
        exact readPowers_integral_ne_zero (value_denominator_ne_zero hc) hb'.symm
    obtain ⟨m, hm⟩ := hmagnitude
    refine ⟨if decide (c.coefficient < 0) then -m else m, (Expr.hasValue_signed_iff _).2 ?_⟩
    split
    · rwa [neg_neg]
    · exact hm

end Chain

end ExactAlgebra.Indices
