import ExactAlgebra.Proofs.Indices.Signs
import ExactAlgebra.Proofs.Indices.Value
import ExactAlgebra.Proofs.Latex.Carets
import ExactAlgebra.Transformation

/-!
# Single terms

What the simplification to a single term makes of an expression has the same magnitude. Its sign is right when no
sign comes out of a root; where one does, the answer is the negative of the expression.
-/

namespace ExactAlgebra

namespace Indices

open Latex

variable {ρ : String → ℚ} {p : Base × ℚ} {ps : List (Base × ℚ)} {e : Expr} {us : List Token} {c : Chain}

/-! ## Exponents of texts that are read again -/

theorem readable_of_caretsRead (h : CaretsRead (powerTokens p ++ us)) : Readable p.2 := by
  unfold powerTokens at h
  split at h
  · rename_i hone
    rw [hone]
    exact .inr (by decide)
  · split at h
    · rename_i hroot
      exact .inl hroot
    · rw [List.append_assoc] at h
      obtain ⟨vs, n, rest, hliteral, hvs⟩ := h.of_append.1 rfl
      unfold numberTokens at hvs
      split at hvs
      · rename_i hden
        cases hliteral with
        | X_Bare => cases hvs
        | X_Braced _ hmax =>
            cases hvs
            exact .inr ⟨hden, by simpa using hmax⟩
        | X_Negative => cases hvs
      · cases hliteral <;> cases hvs

theorem infix_productTokens (hp : p ∈ ps) : powerTokens p <:+: productTokens ps := by
  have hlater (q : Base × ℚ) : powerTokens q <:+: laterTokens q := by
    unfold laterTokens
    split
    · exact (List.suffix_cons ..).isInfix
    · exact List.infix_refl _
  cases ps with
  | nil => cases hp
  | cons q ps =>
      rcases List.mem_cons.1 hp with rfl | hp
      · exact (List.prefix_append ..).isInfix
      · exact ((hlater p).trans (List.infix_of_mem_flatten (List.mem_map_of_mem hp))).trans
          (List.suffix_append ..).isInfix

namespace Chain

/-- Every factor stands in the tokens of the chain. -/
theorem infix_tokens (hne : c.coefficient ≠ 0) (hp : p ∈ c.numerator ∨ p ∈ c.denominator) :
    powerTokens p <:+: c.tokens := by
  unfold tokens
  rw [if_neg hne]
  refine List.IsInfix.trans ?_ (List.suffix_append ..).isInfix
  split
  · rename_i hempty
    rw [List.isEmpty_iff.1 hempty, or_iff_left List.not_mem_nil] at hp
    exact infix_productTokens hp
  · rcases hp with hp | hp
    · exact (infix_productTokens hp).trans ⟨[.frac, .openBrace], _, rfl⟩
    · refine (infix_productTokens hp).trans
        ⟨.frac :: .openBrace :: (productTokens c.numerator ++ [.closeBrace, .openBrace]), [.closeBrace], ?_⟩
      simp

theorem readable_of_derives {d : ℕ} (h : Derives d .sum c.tokens [] e) : c.Readable := by
  have hcarets : CaretsRead c.tokens := by simpa using h.caretsRead trivial
  have hread (hne : c.coefficient ≠ 0) (p) (hp : p ∈ c.numerator ∨ p ∈ c.denominator) : Indices.Readable p.2 := by
    obtain ⟨front, back, htokens⟩ := infix_tokens hne hp
    rw [← htokens, List.append_assoc] at hcarets
    exact readable_of_caretsRead hcarets.of_append
  exact fun hne => ⟨fun p hp => hread hne p (.inl hp), fun p hp => hread hne p (.inr hp)⟩

/-- The expression that a text of a chain is parsed to has the values of the tree of the chain. -/
theorem hasValue_of_parse {limit : ℕ} (hc : c.Lettered) (h : parse limit c.latex.toList = .ok e) :
    c.Readable ∧ ∀ ρ v, e.HasValue ρ v ↔ c.tree.HasValue ρ v := by
  obtain ⟨d, -, hderives⟩ := (spells hc).parse_eq_ok_iff.1 h
  have hread := readable_of_derives hderives
  obtain ⟨e', hderives', he'⟩ := derives hc hread
  rw [hderives.unique hderives']
  exact ⟨hread, he'⟩

end Chain

/-! ## Signs of written chains -/

theorem nonneg_of_hasValue_power (hp : 0 ≤ p.1.value ρ) {r : ℚ} (h : (powerTree p).HasValue ρ r) : 0 ≤ r := by
  unfold powerTree at h
  split at h
  · rwa [h.unique p.1.hasValue_tree]
  · split at h
    · cases h with
      | V_Sqrt _ hr _ => exact hr
    · cases h with
      | V_Power hb _ =>
          rw [hb.unique p.1.hasValue_tree]
          exact zpow_nonneg hp _

theorem nonneg_of_hasValue_timesPowers (hps : ∀ p ∈ ps, 0 ≤ p.1.value ρ) (he : ∀ v, e.HasValue ρ v → 0 ≤ v) {w : ℚ}
    (h : (timesPowers e ps).HasValue ρ w) : 0 ≤ w := by
  induction ps generalizing e with
  | nil => exact he w h
  | cons p ps ih =>
      have ⟨hp, hps⟩ := List.forall_mem_cons.1 hps
      refine ih hps (fun v hv => ?_) h
      cases hv with
      | V_Mul ha hb => exact mul_nonneg (he _ ha) (nonneg_of_hasValue_power hp hb)

theorem nonneg_of_hasValue_product (hps : ∀ p ∈ ps, 0 ≤ p.1.value ρ) {w : ℚ}
    (h : (productTree false ps).HasValue ρ w) : 0 ≤ w := by
  cases ps with
  | nil =>
      cases h
      exact zero_le_one
  | cons p ps =>
      have ⟨hp, hps⟩ := List.forall_mem_cons.1 hps
      exact nonneg_of_hasValue_timesPowers hps (fun v hv => nonneg_of_hasValue_power hp hv) h

namespace Chain

theorem nonneg_of_hasValue_magnitude (hc : ∀ p ∈ c.powers, 0 ≤ p.1.value ρ) {w : ℚ}
    (h : c.magnitudeTree.HasValue ρ w) : 0 ≤ w := by
  have hnumerator : ∀ p ∈ c.numerator, 0 ≤ p.1.value ρ := forall_numerator (Nat.cast_nonneg _) fun p hp _ => hc p hp
  have hdenominator : ∀ p ∈ c.denominator, 0 ≤ p.1.value ρ :=
    forall_denominator (Nat.cast_nonneg _) fun p hp _ => hc p hp
  unfold magnitudeTree at h
  split at h
  · exact nonneg_of_hasValue_product hnumerator h
  · cases h with
    | V_Div ha hb _ =>
        exact div_nonneg (nonneg_of_hasValue_product hnumerator ha) (nonneg_of_hasValue_product hdenominator hb)

/-- A written chain has the sign of its coefficient. -/
theorem eq_sign_mul_abs (hc : ∀ p ∈ c.powers, 0 ≤ p.1.value ρ) {s w : ℚ} (hs : s * s = 1)
    (hcoefficient : c.coefficient = s * |c.coefficient|) (h : c.tree.HasValue ρ w) : w = s * |w| := by
  unfold tree at h
  split at h
  · cases h
    simp
  · rename_i hne
    have hmagnitude := nonneg_of_hasValue_magnitude hc ((Expr.hasValue_signed_iff _).1 h)
    rcases mul_self_eq_one_iff.1 hs with rfl | rfl
    · have hpos : ¬ c.coefficient < 0 := by
        rw [hcoefficient, one_mul]
        exact (abs_nonneg _).not_gt
      rw [decide_eq_false hpos, if_neg Bool.false_ne_true] at hmagnitude
      rw [one_mul, abs_of_nonneg hmagnitude]
    · have hneg : c.coefficient < 0 := by
        rw [hcoefficient, neg_one_mul]
        exact neg_neg_of_pos (abs_pos.2 hne)
      rw [decide_eq_true hneg, if_pos rfl] at hmagnitude
      rw [neg_one_mul, abs_of_nonpos (neg_nonneg.1 hmagnitude), neg_neg]

end Chain

theorem Base.Among.value_pos {names : List String} {b : Base} (hρ : ∀ name ∈ names, 0 < ρ name)
    (h : b.Among names) : 0 < b.value ρ := by
  cases b with
  | integer n => exact Nat.cast_pos.2 (Nat.zero_lt_of_lt h)
  | letter name => exact hρ name h

end Indices

/-! ## Simplification -/

namespace Transformation

open Indices

variable {limits limits' : Limits} {text : List Char} {s : String} {e e' : Expr}

theorem simplifyOneTerm_eq_ok (h : simplifyOneTerm limits text = .ok s) :
    ∃ e c, Expr.ofText limits text = .ok e ∧ Collects .kept 1 e c ∧ s = c.latex := by
  obtain ⟨e, he, h⟩ := Outcome.bind_eq_ok.1 h
  obtain ⟨c, hc, h⟩ := Outcome.bind_eq_ok.1 h
  split at h
  · cases h
  · cases h
    exact ⟨e, c, he, chain_sound hc, rfl⟩

/-- Where all variables are positive and both values are defined, the single term has the value of the expression
times the sign that comes out of the roots. So it has the value of the expression just when that sign is a plus or
the value is zero. -/
theorem simplifyOneTerm_eq_iff (h : simplifyOneTerm limits text = .ok s) (he : Expr.ofText limits text = .ok e)
    (he' : Expr.ofText limits' s.toList = .ok e') {ρ : String → ℚ} (hρ : ∀ name ∈ e.names, 0 < ρ name) {v w : ℚ}
    (hv : e.HasValue ρ v) (hw : e'.HasValue ρ w) :
    w = rootSign 1 e * v ∧ (w = v ↔ rootSign 1 e = 1 ∨ v = 0) := by
  obtain ⟨e₀, c, he₀, hcollects, rfl⟩ := simplifyOneTerm_eq_ok h
  cases he.symm.trans he₀
  have hletters := hcollects.lettered (Latex.isLetter_of_parse (Outcome.mapError_eq_ok.1 he))
  obtain ⟨hread, hvalue⟩ := Chain.hasValue_of_parse hletters (Outcome.mapError_eq_ok.1 he')
  rw [hvalue] at hw
  -- only magnitudes obey the laws of indices for roots, so the signs are compared by themselves
  have habs : |w| = |v| := by
    have hraise := hcollects.raise_eq Laws.magnitude_admitsRoots hread
      (fun name hname => (hρ name hname).ne') hv hw
    simp only [Laws.magnitude, Rat.cast_one, Real.rpow_one] at hraise
    exact_mod_cast hraise
  have hwsign : w = collectedSign 1 e * |v| := by
    rw [← habs]
    exact Chain.eq_sign_mul_abs (fun p hp => ((hcollects.among p hp).value_pos hρ).le)
      (collectedSign_mul_self 1 e) hcollects.coefficient_eq hw
  have hvsign : v = collectedSign 1 e * rootSign 1 e * |v| := by
    have hzpow := hcollects.zpow_eq hρ Int.cast_one.symm hv
    rwa [zpow_one] at hzpow
  have heq : w = rootSign 1 e * v := by
    calc w = collectedSign 1 e * |v| := hwsign
      _ = rootSign 1 e * rootSign 1 e * (collectedSign 1 e * |v|) := by rw [rootSign_mul_self, one_mul]
      _ = rootSign 1 e * (collectedSign 1 e * rootSign 1 e * |v|) := by ring
      _ = rootSign 1 e * v := by rw [← hvsign]
  exact ⟨heq, by rw [heq, mul_left_eq_self₀]⟩

theorem simplifyOneTerm_eq_iff_cube :
    let e : Expr := .binary .div (.sqrt (.power (.var "x") 3)) (.var "x")
    let e' : Expr := .sqrt (.var "x")
    let ρ : String → ℚ := fun _ => 4
    simplifyOneTerm {} "\\sqrt\x7bx^\x7b3\x7d\x7d\\div x".toList = .ok "\\sqrt\x7bx\x7d" ∧
      Expr.ofText {} "\\sqrt\x7bx^\x7b3\x7d\x7d\\div x".toList = .ok e ∧
      Expr.ofText {} "\\sqrt\x7bx\x7d".toList = .ok e' ∧ (∀ name ∈ e.names, 0 < ρ name) ∧
      e.HasValue ρ (8 / 4) ∧ e'.HasValue ρ 2 ∧
      ((2 : ℚ) = rootSign 1 e * (8 / 4) ∧ ((2 : ℚ) = 8 / 4 ↔ rootSign 1 e = 1 ∨ (8 : ℚ) / 4 = 0)) := by
  intro e e' ρ
  have h : simplifyOneTerm {} "\\sqrt\x7bx^\x7b3\x7d\x7d\\div x".toList = .ok "\\sqrt\x7bx\x7d" := by cbv
  have he : Expr.ofText {} "\\sqrt\x7bx^\x7b3\x7d\x7d\\div x".toList = .ok e := by cbv
  have he' : Expr.ofText {} "\\sqrt\x7bx\x7d".toList = .ok e' := by cbv
  have hρ : ∀ name ∈ e.names, 0 < ρ name := fun _ _ => four_pos
  have hcube : (Expr.power (.var "x") 3).HasValue ρ (ρ "x" ^ (3 : ℤ)) := .V_Power .V_Var fun hneg => absurd hneg (by decide)
  have hv : e.HasValue ρ (8 / 4) :=
    .V_Div (.V_Sqrt hcube (by norm_num) (by norm_num [ρ])) .V_Var four_ne_zero
  have hw : e'.HasValue ρ 2 := .V_Sqrt .V_Var two_pos.le (by norm_num [ρ])
  exact ⟨h, he, he', hρ, hv, hw, simplifyOneTerm_eq_iff h he he' hρ hv hw⟩

/-- The root of a negative number squared is answered with a minus sign. -/
theorem simplifyOneTerm_root_of_square :
    ∃ e e' v w, simplifyOneTerm {} "\\sqrt\x7b(-2)^\x7b2\x7d\x7d".toList = .ok "-2" ∧
      Expr.ofText {} "\\sqrt\x7b(-2)^\x7b2\x7d\x7d".toList = .ok e ∧ Expr.ofText {} "-2".toList = .ok e' ∧
      (∀ ρ, e.HasValue ρ v ∧ e'.HasValue ρ w) ∧ w ≠ v := by
  refine ⟨.sqrt (.power (.group (.negate (.num 2))) 2), .negate (.num 2), 2, -2, by cbv, by cbv, by cbv,
    fun ρ => ⟨?_, .V_Negate .V_Num⟩, by norm_num⟩
  have hsquare : (Expr.power (.group (.negate (.num 2))) 2).HasValue ρ ((-2) ^ (2 : ℤ)) :=
    .V_Power (.V_Group (.V_Negate .V_Num)) fun hneg => absurd hneg (by decide)
  exact .V_Sqrt hsquare two_pos.le (by norm_num)

end Transformation

end ExactAlgebra
