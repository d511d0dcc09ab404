import ExactAlgebra.Proofs.Polynomial.Ring
import Mathlib

/-!
# Runs of polynomial operations

A run performs operations one after the other and keeps each result in a register of its own. The same steps can
be taken in the polynomial ring, where nothing exceeds a budget. Every polynomial of a run is canonical and denotes
the ring element in its register, so polynomials of any two runs are equal just when these elements are.
-/

namespace ExactAlgebra.Polynomial

/-- An operation on polynomials; its operands are the numbers of registers. -/
inductive Step where
  | combine (terms : List Term)
  | constant (value : ℚ)
  | ofVariable (name : String)
  | zero
  | one
  | neg (operand : ℕ)
  | add (left right : ℕ)
  | sub (left right : ℕ)
  | scale (operand : ℕ) (factor : ℚ)
  | mul (budget : Budget) (left right : ℕ)
  | pow (budget : Budget) (base exponent : ℕ)

/-- The results of the steps so far; a step without a result leaves its register empty. -/
abbrev Registers (α : Type) : Type := List (Option α)

def Registers.get? {α : Type} (rs : Registers α) (i : ℕ) : Option α := rs[i]?.join

namespace Step

/-- The polynomial that a step gives. There is none from an empty register, or when a product exceeds its budget. -/
def polynomial? (rs : Registers Polynomial) : Step → Option Polynomial
  | combine terms => some (Polynomial.combine terms)
  | constant value => some (Polynomial.constant value)
  | ofVariable name => some (Polynomial.ofVariable name)
  | zero => some Polynomial.zero
  | one => some Polynomial.one
  | neg i => do return (← rs.get? i).neg
  | add i j => do return (← rs.get? i).add (← rs.get? j)
  | sub i j => do return (← rs.get? i).sub (← rs.get? j)
  | scale i k => do return (← rs.get? i).scale k
  | mul b i j => do (Polynomial.mul b (← rs.get? i) (← rs.get? j)).toOption
  | pow b i n => do (Polynomial.pow b (← rs.get? i) n).toOption

/-- The ring element that a step stands for. There is none from an empty register. -/
noncomputable def element? (as : Registers (MvPolynomial String ℚ)) : Step → Option (MvPolynomial String ℚ)
  | combine terms => some (terms.map fun t => MvPolynomial.monomial t.monomial.exponents t.coefficient).sum
  | constant value => some (MvPolynomial.C value)
  | ofVariable name => some (MvPolynomial.X name)
  | zero => some 0
  | one => some 1
  | neg i => do return -(← as.get? i)
  | add i j => do return (← as.get? i) + (← as.get? j)
  | sub i j => do return (← as.get? i) - (← as.get? j)
  | scale i k => do return MvPolynomial.C k * (← as.get? i)
  | mul _ i j => do return (← as.get? i) * (← as.get? j)
  | pow _ i n => do return (← as.get? i) ^ n

end Step

/-- The polynomials that a run of steps gives. -/
def run (steps : List Step) : Registers Polynomial :=
  steps.foldl (fun rs s => rs ++ [s.polynomial? rs]) []

/-- The elements that the same steps give in the polynomial ring. -/
noncomputable def ringRun (steps : List Step) : Registers (MvPolynomial String ℚ) :=
  steps.foldl (fun as s => as ++ [s.element? as]) []

/-! ## One step -/

/-- A polynomial is canonical and denotes the given element. -/
def Denotes (p : Polynomial) (a : Option (MvPolynomial String ℚ)) : Prop := p.Canonical ∧ a = some p.toRing

/-- Every polynomial in a register denotes the ring element in the register of the same number. -/
def Match (rs : Registers Polynomial) (as : Registers (MvPolynomial String ℚ)) : Prop :=
  rs.length = as.length ∧ ∀ i p, rs.get? i = some p → Denotes p (as.get? i)

variable {rs : Registers Polynomial} {as : Registers (MvPolynomial String ℚ)}

/-- A step that gives a polynomial stands for the ring element that the polynomial denotes. -/
theorem Match.denotes_step (h : Match rs as) {s : Step} {p : Polynomial} (hp : s.polynomial? rs = some p) :
    Denotes p (s.element? as) := by
  cases s with
  | combine terms =>
      cases hp
      exact ⟨canonical_combine _, congrArg some (toRing_combine terms).symm⟩
  | constant value =>
      cases hp
      exact ⟨canonical_combine _, congrArg some (toRing_constant value).symm⟩
  | ofVariable name =>
      cases hp
      exact ⟨canonical_combine _, congrArg some (toRing_ofVariable name).symm⟩
  | zero =>
      cases hp
      exact ⟨⟨nofun, .nil⟩, congrArg some toRing_zero.symm⟩
  | one =>
      cases hp
      exact ⟨canonical_combine _, congrArg some toRing_one.symm⟩
  | neg i =>
      obtain ⟨q, hq, hp⟩ := Option.bind_eq_some_iff.1 hp
      cases hp
      obtain ⟨hcanonical, ha⟩ := h.2 i q hq
      exact ⟨hcanonical.neg, by simp [Step.element?, ha]⟩
  | add i j =>
      obtain ⟨q, hq, hp⟩ := Option.bind_eq_some_iff.1 hp
      obtain ⟨r, hr, hp⟩ := Option.bind_eq_some_iff.1 hp
      cases hp
      exact ⟨canonical_combine _, by simp [Step.element?, (h.2 i q hq).2, (h.2 j r hr).2]⟩
  | sub i j =>
      obtain ⟨q, hq, hp⟩ := Option.bind_eq_some_iff.1 hp
      obtain ⟨r, hr, hp⟩ := Option.bind_eq_some_iff.1 hp
      cases hp
      exact ⟨canonical_combine _, by simp [Step.element?, (h.2 i q hq).2, (h.2 j r hr).2]⟩
  | scale i k =>
      obtain ⟨q, hq, hp⟩ := Option.bind_eq_some_iff.1 hp
      cases hp
      exact ⟨canonical_combine _, by simp [Step.element?, (h.2 i q hq).2, mul_comm]⟩
  | mul b i j =>
      obtain ⟨q, hq, hp⟩ := Option.bind_eq_some_iff.1 hp
      obtain ⟨r, hr, hp⟩ := Option.bind_eq_some_iff.1 hp
      have hproduct := Outcome.toOption_eq_some.1 hp
      exact ⟨canonical_mul hproduct,
        by simp [Step.element?, (h.2 i q hq).2, (h.2 j r hr).2, toRing_mul hproduct]⟩
  | pow b i n =>
      obtain ⟨q, hq, hp⟩ := Option.bind_eq_some_iff.1 hp
      have hpower := Outcome.toOption_eq_some.1 hp
      exact ⟨canonical_pow hpower, by simp [Step.element?, (h.2 i q hq).2, toRing_pow hpower]⟩

theorem Registers.get?_append {α : Type} {rs : Registers α} {x : Option α} {i : ℕ} :
    Registers.get? (rs ++ [x]) i = if i = rs.length then x else rs.get? i := by
  unfold Registers.get?
  split
  · rename_i hi
    rw [hi, List.getElem?_concat_length]
    rfl
  · rename_i hi
    rcases Nat.lt_or_gt_of_ne hi with hlt | hgt
    · rw [List.getElem?_append_left hlt]
    · rw [List.getElem?_eq_none (by simp; omega), List.getElem?_eq_none (by omega)]

/-- A step keeps the registers matched. -/
theorem Match.step (h : Match rs as) (s : Step) : Match (rs ++ [s.polynomial? rs]) (as ++ [s.element? as]) := by
  refine ⟨by simp [h.1], fun i p hp => ?_⟩
  rw [Registers.get?_append] at hp ⊢
  rw [← h.1]
  split at hp
  · rename_i hi
    rw [if_pos hi]
    exact h.denotes_step hp
  · rename_i hi
    rw [if_neg hi]
    exact h.2 i p hp

/-! ## Runs -/

theorem match_run (steps : List Step) : Match (run steps) (ringRun steps) := by
  suffices h : ∀ rs as, Match rs as → Match (steps.foldl (fun rs s => rs ++ [s.polynomial? rs]) rs)
      (steps.foldl (fun as s => as ++ [s.element? as]) as) from
    h [] [] ⟨rfl, fun i p hp => by simp [Registers.get?] at hp⟩
  induction steps with
  | nil => exact fun _ _ h => h
  | cons s steps ih => exact fun rs as h => ih _ _ (h.step s)

/-- Every polynomial of a run is canonical and denotes the element that the run gives in the polynomial ring, and
polynomials of two runs are equal just when their elements are. -/
theorem run_denotes (steps steps' : List Step) :
    (∀ i p, (run steps).get? i = some p → p.Canonical ∧ (ringRun steps).get? i = some p.toRing) ∧
      ∀ i j p q, (run steps).get? i = some p → (run steps').get? j = some q →
        (p = q ↔ (ringRun steps).get? i = (ringRun steps').get? j) := by
  refine ⟨(match_run steps).2, fun i j p q hp hq => ?_⟩
  obtain ⟨hpcanonical, hpring⟩ := (match_run steps).2 i p hp
  obtain ⟨hqcanonical, hqring⟩ := (match_run steps').2 j q hq
  rw [hpring, hqring, Option.some_inj]
  exact ⟨congrArg toRing, hpcanonical.ext hqcanonical⟩

theorem run_denotes_square :
    let factored : List Step := [.ofVariable "x", .one, .add 0 1, .mul ⟨0, 0, 0⟩ 2 2, .pow {} 2 2]
    let expanded : List Step := [.combine [⟨2, .ofVariable "x"⟩, ⟨1, .one⟩, ⟨1, .ofPowers [("x", 2)]⟩]]
    ∃ p, (run factored).get? 4 = some p ∧ (run expanded).get? 0 = some p ∧ (run factored).get? 3 = none ∧
      p.Canonical ∧ (ringRun factored).get? 4 = (ringRun expanded).get? 0 := by
  intro factored expanded
  have hfactored : (run factored).get? 4 =
      some ⟨[⟨1, .ofPowers [("x", 2)]⟩, ⟨2, .ofVariable "x"⟩, ⟨1, .one⟩]⟩ := by cbv
  have hexpanded : (run expanded).get? 0 =
      some ⟨[⟨1, .ofPowers [("x", 2)]⟩, ⟨2, .ofVariable "x"⟩, ⟨1, .one⟩]⟩ := by cbv
  obtain ⟨hdenotes, hequal⟩ := run_denotes factored expanded
  exact ⟨_, hfactored, hexpanded, by cbv, (hdenotes 4 _ hfactored).1, (hequal 4 0 _ _ hfactored hexpanded).1 rfl⟩

end ExactAlgebra.Polynomial
