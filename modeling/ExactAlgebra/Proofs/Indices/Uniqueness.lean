import ExactAlgebra.Proofs.Indices.Simplification

/-!
# One text for equal values

The text of a chain depends on its coefficient and on the powers whose exponent is not zero. Both are determined by the
values of the chain: the coefficient is the value where all variables are one, and an exponent shows where one variable
is two. So expressions with the same values have the same simplified indices.
-/

namespace ExactAlgebra

namespace Indices

/-! ## What the text shows -/

namespace Chain

variable {c d : Chain}

/-- The powers whose exponent is not zero. -/
def present (c : Chain) : List (Base × ℚ) := c.powers.filter fun p => p.2 ≠ 0

theorem ne_zero_of_mem_present : ∀ p ∈ c.present, p.2 ≠ 0 := fun _ hp => of_decide_eq_true (List.mem_filter.1 hp).2

theorem above_eq_filter_present (c : Chain) : c.above = c.present.filter fun p => 0 < p.2 := by
  rw [above, present, List.filter_filter]
  refine List.filter_congr fun p _ => ?_
  by_cases hpos : 0 < p.2 <;> simp [hpos, ne_of_gt]

theorem below_eq_filter_present (c : Chain) :
    c.below = (c.present.filter fun p => p.2 < 0).map fun p => (p.1, -p.2) := by
  rw [below, present, List.filter_filter]
  refine congrArg (List.map _) (List.filter_congr fun p _ => ?_)
  by_cases hneg : p.2 < 0 <;> simp [hneg, ne_of_lt]

theorem latex_eq_of_present_eq (hcoefficient : c.coefficient = d.coefficient) (hpresent : c.present = d.present) :
    c.latex = d.latex := by
  have hnumerator : c.numeratorFactors = d.numeratorFactors := by
    simp only [numeratorFactors_eq, numerator, above_eq_filter_present, hcoefficient, hpresent]
  have hdenominator : c.denominatorFactors = d.denominatorFactors := by
    simp only [denominatorFactors_eq, denominator, below_eq_filter_present, hcoefficient, hpresent]
  simp only [latex, hcoefficient, hnumerator, hdenominator]

end Chain

/-! ## What the values show -/

/-- The assignment of two to one variable and of one to all others. -/
def marking (marked : String) : String → ℚ := fun name => if name = marked then 2 else 1

theorem marking_ne_zero (marked name : String) : marking marked name ≠ 0 := by
  unfold marking
  split <;> norm_num

variable {ps : List (Base × ℚ)}

theorem admits_amount (hps : ∀ p ∈ ps, Laws.integral.Admits p.2) (b : Base) :
    Laws.integral.Admits (Tally.amount ps b) := by
  induction ps with
  | nil => exact ⟨0, Int.cast_zero.symm⟩
  | cons p ps ih =>
      have ⟨hp, hps⟩ := List.forall_mem_cons.1 hps
      rw [Tally.amount_cons]
      split
      · exact Laws.integral.admits_add _ _ hp (ih hps)
      · rw [zero_add]
        exact ih hps

/-- With two for one variable and one for the others, powers of variables are a power of two. -/
theorem readPowers_marking {marked : String} (hletters : ∀ p ∈ ps, ∃ name, p.1 = .letter name)
    (hadmits : ∀ p ∈ ps, Laws.integral.Admits p.2) :
    readPowers .integral (marking marked) ps = Laws.integral.raise 2 (Tally.amount ps (.letter marked)) := by
  induction ps with
  | nil => exact (Laws.integral.raise_zero 2).symm
  | cons p ps ih =>
      have ⟨⟨name, hname⟩, hletters⟩ := List.forall_mem_cons.1 hletters
      have ⟨hp, hps⟩ := List.forall_mem_cons.1 hadmits
      rw [readPowers_cons, ih hletters hps, Tally.amount_cons, hname, Base.value, marking]
      by_cases hmarked : name = marked
      · rw [if_pos hmarked, if_pos (congrArg Base.letter hmarked),
          Laws.integral.raise_add _ _ _ two_ne_zero hp (admits_amount hps _)]
      · rw [if_neg hmarked, if_neg (mt Base.letter.inj hmarked), Laws.integral.raise_one_left hp, one_mul, zero_add]

theorem raise_two_injective {k l : ℚ} (hk : Laws.integral.Admits k) (hl : Laws.integral.Admits l)
    (h : Laws.integral.raise 2 k = Laws.integral.raise 2 l) : k = l := by
  obtain ⟨m, rfl⟩ := hk
  obtain ⟨n, rfl⟩ := hl
  have hpower : (2 : ℚ) ^ m = 2 ^ n := by simpa [Laws.integral] using h
  rw [zpow_right_injective₀ two_pos (by norm_num) hpower]

theorem Collects.integral {e : Expr} {c : Chain} (h : Collects .folded 1 e c) :
    ∀ p ∈ c.powers, Laws.integral.Admits p.2 :=
  h.admits Laws.integral_admitsRoots Laws.integral.admits_one

/-- The coefficient is the value where all variables are one. -/
theorem Collects.read_one {e : Expr} {c : Chain} (h : Collects .folded 1 e c) :
    c.read .integral (fun _ => 1) = c.coefficient := by
  have hone : ∀ x ∈ c.powers.map fun p => Laws.integral.raise (p.1.value fun _ => 1) p.2, x = 1 := by
    intro x hx
    obtain ⟨p, hp, rfl⟩ := List.mem_map.1 hx
    obtain ⟨name, hname⟩ := h.letters p hp
    rw [hname, Base.value]
    exact Laws.integral.raise_one_left (h.integral p hp)
  rw [Chain.read, readPowers, List.prod_eq_one hone, mul_one]
  exact zpow_one _

/-- The value where one variable is two shows its exponent. -/
theorem Collects.read_marking {e : Expr} {c : Chain} (h : Collects .folded 1 e c) (marked : String) :
    c.read .integral (marking marked) =
      c.coefficient * Laws.integral.raise 2 (Tally.amount c.powers (.letter marked)) := by
  rw [Chain.read, readPowers_marking h.letters h.integral]
  exact congrArg (· * _) (zpow_one _)

theorem Collects.amount_integer {e : Expr} {c : Chain} (h : Collects .folded 1 e c) (n : ℕ) :
    Tally.amount c.powers (.integer n) = 0 := by
  refine Tally.amount_eq_zero fun p hp hinteger => ?_
  obtain ⟨name, hname⟩ := h.letters p hp
  rw [hinteger] at hname
  cases hname

/-- Chains with the same values where no variable is zero have the same text. -/
theorem Collects.latex_eq {e e' : Expr} {c c' : Chain} (h : Collects .folded 1 e c) (h' : Collects .folded 1 e' c')
    (hread : ∀ ρ, (∀ name, ρ name ≠ 0) → c.read .integral ρ = c'.read .integral ρ) : c.latex = c'.latex := by
  have hcoefficient : c.coefficient = c'.coefficient := by
    rw [← h.read_one, ← h'.read_one, hread _ fun _ => one_ne_zero]
  by_cases hzero : c.coefficient = 0
  · rw [Chain.latex, Chain.latex, if_pos hzero, if_pos (hcoefficient ▸ hzero)]
  have hamount (b : Base) : Tally.amount c.powers b = Tally.amount c'.powers b := by
    cases b with
    | integer n => rw [h.amount_integer, h'.amount_integer]
    | letter name =>
        have hvalue := hread (marking name) (marking_ne_zero name)
        rw [h.read_marking, h'.read_marking, ← hcoefficient] at hvalue
        exact raise_two_injective (admits_amount h.integral _) (admits_amount h'.integral _)
          (mul_left_cancel₀ hzero hvalue)
  have hpresent : c.present = c'.present := by
    refine Tally.Ascending.ext (h.ascending.filter _) (h'.ascending.filter _) Chain.ne_zero_of_mem_present
      Chain.ne_zero_of_mem_present fun b => ?_
    rw [Chain.present, Chain.present, Tally.amount_filter_ne_zero, Tally.amount_filter_ne_zero, hamount]
  exact Chain.latex_eq_of_present_eq hcoefficient hpresent

end Indices

namespace Transformation

open Indices

variable {limits : Limits} {text text' : List Char} {s s' : String} {e e' : Expr}

/-- Expressions that have the same value wherever no variable is zero are simplified to the same text. -/
theorem simplifyIndices_eq_of_values_eq (h : simplifyIndices limits text = .ok s)
    (h' : simplifyIndices limits text' = .ok s') (he : Expr.ofText limits text = .ok e)
    (he' : Expr.ofText limits text' = .ok e')
    (hvalues : ∀ ρ, (∀ name, ρ name ≠ 0) → ∃ v, e.HasValue ρ v ∧ e'.HasValue ρ v) : s = s' := by
  obtain ⟨_, c, hparse, hcollects, rfl⟩ := simplifyIndices_eq_ok h
  obtain ⟨_, c', hparse', hcollects', rfl⟩ := simplifyIndices_eq_ok h'
  obtain rfl := Except.ok.inj (he.symm.trans hparse)
  obtain rfl := Except.ok.inj (he'.symm.trans hparse')
  refine hcollects.latex_eq hcollects' fun ρ hρ => ?_
  obtain ⟨v, hv, hv'⟩ := hvalues ρ hρ
  have hread := hcollects.read Laws.integral_admitsRoots Laws.integral.admits_one (fun name _ => hρ name) hv
  have hread' := hcollects'.read Laws.integral_admitsRoots Laws.integral.admits_one (fun name _ => hρ name) hv'
  exact hread.symm.trans hread'

theorem simplifyIndices_eq_of_values_eq_quotients :
    ∃ s s' e e', simplifyIndices {} "6x^\x7b2\x7dy\\div(4xy)".toList = .ok s ∧
      simplifyIndices {} "-(-3)x\\div2".toList = .ok s' ∧
      Expr.ofText {} "6x^\x7b2\x7dy\\div(4xy)".toList = .ok e ∧ Expr.ofText {} "-(-3)x\\div2".toList = .ok e' ∧
      (∀ ρ, (∀ name, ρ name ≠ 0) → ∃ v, e.HasValue ρ v ∧ e'.HasValue ρ v) ∧ s = s' := by
  have h : simplifyIndices {} "6x^\x7b2\x7dy\\div(4xy)".toList = .ok "\\frac\x7b3x\x7d\x7b2\x7d" := by cbv
  have h' : simplifyIndices {} "-(-3)x\\div2".toList = .ok "\\frac\x7b3x\x7d\x7b2\x7d" := by cbv
  have he : Expr.ofText {} "6x^\x7b2\x7dy\\div(4xy)".toList =
      .ok (.binary .div (.binary .mul (.binary .mul (.num 6) (.power (.var "x") 2)) (.var "y"))
        (.group (.binary .mul (.binary .mul (.num 4) (.var "x")) (.var "y")))) := by cbv
  have he' : Expr.ofText {} "-(-3)x\\div2".toList =
      .ok (.binary .div (.binary .mul (.negate (.group (.negate (.num 3)))) (.var "x")) (.num 2)) := by cbv
  refine ⟨_, _, _, _, h, h', he, he', ?values, simplifyIndices_eq_of_values_eq h h' he he' ?values⟩
  intro ρ hρ
  have hx := hρ "x"
  have hy := hρ "y"
  have hdivisor : 4 * ρ "x" * ρ "y" ≠ 0 := mul_ne_zero (mul_ne_zero four_ne_zero hx) hy
  have hpower : (2 : ℤ) < 0 → ρ "x" ≠ 0 := fun _ => hx
  refine ⟨_, .V_Div (.V_Mul (.V_Mul .V_Num (.V_Power .V_Var hpower)) .V_Var)
    (.V_Group (.V_Mul (.V_Mul .V_Num .V_Var) .V_Var)) hdivisor, ?_⟩
  have hvalue : 6 * ρ "x" ^ (2 : ℤ) * ρ "y" / (4 * ρ "x" * ρ "y") = - -3 * ρ "x" / 2 := by
    field_simp
    norm_num
  rw [hvalue]
  exact .V_Div (.V_Mul (.V_Negate (.V_Group (.V_Negate .V_Num))) .V_Var) .V_Num two_ne_zero

end Transformation

end ExactAlgebra
