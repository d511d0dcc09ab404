import ExactAlgebra.Proofs.Reduction
import ExactAlgebra.Worked.Catalogue

/-!
# Solutions from a catalogue

Archetypes are registered after the built-in one, so a literal fraction is always solved by fraction reduction, and any
other text by the first registered archetype that accepts it.
-/

namespace ExactAlgebra.Worked

open Transformation

variable {limits : Limits} {text : List Char} {n d : ℕ}

/-! ## Fractions in lowest terms -/

/-- The written form of the fraction `a/b`, which is a whole number where `b` is one. -/
def fractionLatex (a b : ℕ) : String :=
  if b = 1 then Markup.natural a else Markup.fraction (Markup.natural a) (Markup.natural b)

/-- The solution takes `n/d` to the fraction `a/b` in lowest terms, in one step or in four of which the second finds
the greatest common divisor. -/
structure Reduces (solution : Solution) (n d a b : ℕ) : Prop where
  numerator : n = n.gcd d * a
  denominator : d = n.gcd d * b
  coprime : a.Coprime b
  answer : solution.finalAnswer = some (fractionLatex a b)
  steps : solution.steps.length = if n.gcd d = 1 then 1 else 4
  divisor : n.gcd d ≠ 1 → ∃ step, solution.steps[1]? = some step ∧ step.result = some (Markup.natural (n.gcd d))

/-- Numerator and denominator of a quotient are what is left after division by the greatest common divisor. -/
theorem exists_lowestTerms (n : ℕ) (hd : d ≠ 0) :
    ∃ a b, n = n.gcd d * a ∧ d = n.gcd d * b ∧ a.Coprime b ∧ Markup.rational (mkRat n d) = fractionLatex a b := by
  have hgcd : 0 < n.gcd d := Nat.gcd_pos_of_pos_right n (Nat.pos_of_ne_zero hd)
  obtain ⟨a, ha⟩ := n.gcd_dvd_left d
  obtain ⟨b, hb⟩ := n.gcd_dvd_right d
  have hcoprime : a.Coprime b := by
    have hcancel := Nat.coprime_div_gcd_div_gcd hgcd
    rwa [Nat.div_eq_of_eq_mul_right hgcd ha, Nat.div_eq_of_eq_mul_right hgcd hb] at hcancel
  have hb0 : b ≠ 0 := by
    rintro rfl
    exact hd hb
  have hquotient : mkRat n d = ⟨a, b, hb0, hcoprime⟩ :=
    calc mkRat n d
      _ = mkRat ((n.gcd d * a : ℕ) : ℤ) (n.gcd d * b) := by rw [← ha, ← hb]
      _ = mkRat a b := by rw [Nat.cast_mul, Rat.mkRat_mul_left hgcd.ne']
      _ = ⟨a, b, hb0, hcoprime⟩ := (Rat.mk_eq_mkRat (a : ℤ) b hb0 hcoprime).symm
  refine ⟨a, b, ha, hb, hcoprime, ?_⟩
  rw [Markup.rational_of_nonneg (Rat.mkRat_nonneg (Int.natCast_nonneg n) d), hquotient]
  rfl

theorem reductionSteps_getLast (n d : ℕ) :
    (reductionSteps n d).getLast?.bind Step.result = some (Markup.rational (mkRat n d)) := by
  unfold reductionSteps
  split <;> rfl

theorem reduceFraction_of_isFraction (h : Latex.IsFraction text n d) :
    reduceFraction text =
      if d = 0 then .error .invalidDenominator
      else .ok ⟨"fraction-reduction", reductionSteps n d, some (Markup.rational (mkRat n d))⟩ := by
  obtain ⟨fraction, hfraction, rfl, rfl⟩ := h.literalFraction?
  rw [reduceFraction, hfraction]
  simp only [reductionSteps_getLast]

/-- The built-in explanation of a fraction leads to what the fraction is reduced to. -/
theorem exists_reduces (limits : Limits) (h : Latex.IsFraction text n d) (hd : d ≠ 0) :
    ∃ solution a b, reduceFraction text = .ok solution ∧ Reduces solution n d a b ∧
      reduce limits text = .ok (fractionLatex a b) := by
  obtain ⟨a, b, hn, hden, hcoprime, hlatex⟩ := exists_lowestTerms n hd
  refine ⟨⟨"fraction-reduction", reductionSteps n d, some (Markup.rational (mkRat n d))⟩, a, b, ?_,
    ⟨hn, hden, hcoprime, congrArg some hlatex, ?_, fun hne => ?_⟩, ?_⟩
  · rw [reduceFraction_of_isFraction h, if_neg hd]
  · unfold reductionSteps
    split <;> rfl
  · simp only [reductionSteps, if_neg hne]
    exact ⟨_, rfl, rfl⟩
  · rw [reduce_of_isFraction h, if_neg hd, hlatex]

/-! ## Precedence -/

/-- The archetype accepts the text, and none that is listed before it does. -/
def FirstToAccept (text : List Char) (archetypes : List Archetype) (a : Archetype) : Prop :=
  ∃ before after, archetypes = before ++ a :: after ∧ (∀ b ∈ before, b.accepts text = false) ∧ a.accepts text

namespace Catalogue

/-- The catalogue with archetypes registered one after the other. -/
def registerAll (c : Catalogue) (archetypes : List Archetype) : Catalogue := archetypes.foldl register c

theorem archetypes_registerAll (c : Catalogue) (archetypes : List Archetype) :
    (c.registerAll archetypes).archetypes = c.archetypes ++ archetypes := by
  induction archetypes generalizing c with
  | nil => exact (List.append_nil _).symm
  | cons a archetypes ih =>
      rw [registerAll, List.foldl_cons, ← registerAll, ih, register, List.append_assoc, List.singleton_append]

theorem recognize?_eq_some_iff {c : Catalogue} {a : Archetype} :
    c.recognize? text = some a ↔ FirstToAccept text c.archetypes a := by
  rw [recognize?, List.find?_eq_some_iff_append]
  simp only [Bool.not_eq_true']
  constructor
  · rintro ⟨haccepts, before, after, hsplit, hbefore⟩
    exact ⟨before, after, hsplit, hbefore, haccepts⟩
  · rintro ⟨before, after, hsplit, hbefore, haccepts⟩
    exact ⟨haccepts, before, after, hsplit, hbefore⟩

theorem recognize?_eq_none_iff {c : Catalogue} :
    c.recognize? text = none ↔ ∀ a ∈ c.archetypes, a.accepts text = false := by
  simp [recognize?]

theorem solve_of_firstToAccept {c : Catalogue} {a : Archetype} (h : FirstToAccept text c.archetypes a) :
    c.solve limits text = a.solve limits text := by
  rw [solve, recognize?_eq_some_iff.2 h]

/-- A text is not recognized when no archetype accepts it, or when the first one that does says so itself. -/
theorem solve_eq_unrecognized_iff {c : Catalogue} :
    c.solve limits text = .error .unrecognizedProblem ↔
      (∀ a ∈ c.archetypes, a.accepts text = false) ∨
        ∃ a, FirstToAccept text c.archetypes a ∧ a.solve limits text = .error .unrecognizedProblem := by
  simp only [← recognize?_eq_none_iff, ← recognize?_eq_some_iff, solve]
  cases c.recognize? text with
  | none => simp
  | some a => simp

end Catalogue

/-! ## The built-in archetype -/

theorem accepts_fractionReduction_iff :
    fractionReduction.accepts text = false ↔ ∀ n d, ¬ Latex.IsFraction text n d := by
  rw [← Latex.literalFraction?_eq_none_iff, fractionReduction, Option.isSome_eq_false_iff, Option.isNone_iff_eq_none]

theorem firstToAccept_fractionReduction (archetypes : List Archetype) (h : Latex.IsFraction text n d) :
    FirstToAccept text (fractionReduction :: archetypes) fractionReduction := by
  refine ⟨[], archetypes, rfl, nofun, ?_⟩
  by_contra hrefuses
  exact accepts_fractionReduction_iff.1 (Bool.not_eq_true _ ▸ hrefuses) n d h

theorem firstToAccept_cons_iff {archetypes : List Archetype} {a b : Archetype} (hb : b.accepts text = false) :
    FirstToAccept text (b :: archetypes) a ↔ FirstToAccept text archetypes a := by
  constructor
  · rintro ⟨before, after, hsplit, hbefore, ha⟩
    cases before with
    | nil =>
        cases hsplit
        rw [hb] at ha
        cases ha
    | cons _ before =>
        cases hsplit
        exact ⟨before, after, rfl, (List.forall_mem_cons.1 hbefore).2, ha⟩
  · rintro ⟨before, after, rfl, hbefore, ha⟩
    exact ⟨b :: before, after, rfl, List.forall_mem_cons.2 ⟨hb, hbefore⟩, ha⟩

namespace Catalogue

/-- Whatever else is registered, a literal fraction is solved by fraction reduction: it is refused just for a zero under
the bar, and else the final answer is what the fraction is reduced to, with the greatest common divisor on the way. Any
other text is solved by the first registered archetype that accepts it. It is not recognized just when there is none, or
that archetype gives this answer itself. -/
theorem solve_registered (registered : List Archetype) (limits : Limits) (text : List Char) :
    (∀ n d, Latex.IsFraction text n d →
      (builtIn.registerAll registered).solve limits text = fractionReduction.solve limits text ∧
        ((builtIn.registerAll registered).solve limits text = .error .invalidDenominator ↔ d = 0) ∧
        (d ≠ 0 → ∃ solution a b, (builtIn.registerAll registered).solve limits text = .ok solution ∧
          Reduces solution n d a b ∧ reduce limits text = .ok (fractionLatex a b))) ∧
      ((∀ n d, ¬ Latex.IsFraction text n d) →
        (∀ a, FirstToAccept text registered a →
          (builtIn.registerAll registered).solve limits text = a.solve limits text) ∧
        ((builtIn.registerAll registered).solve limits text = .error .unrecognizedProblem ↔
          (∀ a ∈ registered, a.accepts text = false) ∨
            ∃ a, FirstToAccept text registered a ∧ a.solve limits text = .error .unrecognizedProblem)) := by
  have harchetypes : (builtIn.registerAll registered).archetypes = fractionReduction :: registered :=
    archetypes_registerAll builtIn registered
  constructor
  · intro n d h
    have hsolve : (builtIn.registerAll registered).solve limits text = reduceFraction text :=
      solve_of_firstToAccept (harchetypes ▸ firstToAccept_fractionReduction registered h)
    rw [hsolve]
    refine ⟨rfl, ?_, exists_reduces limits h⟩
    rw [reduceFraction_of_isFraction h]
    split
    · exact iff_of_true rfl ‹_›
    · exact iff_of_false nofun ‹_›
  · intro h
    have hrefuses := accepts_fractionReduction_iff.2 h
    refine ⟨fun a ha => ?_, ?_⟩
    · exact solve_of_firstToAccept (harchetypes ▸ (firstToAccept_cons_iff hrefuses).2 ha)
    · simp only [solve_eq_unrecognized_iff, harchetypes, List.forall_mem_cons, hrefuses, true_and,
        firstToAccept_cons_iff hrefuses]

theorem solve_registered_spaced :
    (Latex.IsFraction "\\frac\x7b016\x7d \x7b24\x7d".toList 16 24 ∧
      ∃ solution, (builtIn.registerAll [⟨"any", fun _ => true, fun _ _ => .error .unrecognizedProblem⟩]).solve {}
          "\\frac\x7b016\x7d \x7b24\x7d".toList = .ok solution ∧
        solution.steps.length = 4 ∧ solution.finalAnswer = some "\\frac\x7b2\x7d\x7b3\x7d") ∧
      (∀ n d, ¬ Latex.IsFraction "2/4".toList n d) ∧
      (builtIn.registerAll [⟨"never", fun _ => false, fun _ _ => .error .unsupportedRadical⟩,
          ⟨"echo", fun _ => true, fun _ text => .ok ⟨"echo", [], some (String.ofList text)⟩⟩]).solve {} "2/4".toList =
        .ok ⟨"echo", [], some "2/4"⟩ ∧
      (builtIn.registerAll [⟨"never", fun _ => false, fun _ _ => .error .unsupportedRadical⟩]).solve {} "2/4".toList =
        .error .unrecognizedProblem := by
  have h : Latex.IsFraction "\\frac\x7b016\x7d \x7b24\x7d".toList 16 24 :=
    Latex.isFraction_of_literalFraction? (show Latex.literalFraction? _ = some ⟨16, 24, 12⟩ by cbv)
  have hnot : ∀ n d, ¬ Latex.IsFraction "2/4".toList n d := Latex.literalFraction?_eq_none_iff.1 (by cbv)
  refine ⟨⟨h, ?_⟩, hnot, ?_, ?_⟩
  · obtain ⟨solution, a, b, hsolve, hreduces, -⟩ :=
      ((solve_registered [⟨"any", fun _ => true, fun _ _ => .error .unrecognizedProblem⟩] {} _).1 16 24 h).2.2
        (by decide)
    have hgcd : Nat.gcd 16 24 = 8 := by decide
    have hnumerator := hreduces.numerator
    have hdenominator := hreduces.denominator
    rw [hgcd] at hnumerator hdenominator
    obtain rfl : a = 2 := by omega
    obtain rfl : b = 3 := by omega
    exact ⟨solution, hsolve, hreduces.steps, hreduces.answer⟩
  · exact ((solve_registered _ {} _).2 hnot).1 _
      ⟨[⟨"never", fun _ => false, fun _ _ => .error .unsupportedRadical⟩], [], rfl, by simp, rfl⟩
  · exact ((solve_registered _ {} _).2 hnot).2.2 (.inl (by simp))

/-- An archetype may accept a text and then answer that the text is not recognized. -/
theorem solve_registered_refusing :
    (∀ n d, ¬ Latex.IsFraction "2/4".toList n d) ∧
      ¬ ((builtIn.registerAll [⟨"refusing", fun _ => true, fun _ _ => .error .unrecognizedProblem⟩]).solve {}
            "2/4".toList = .error .unrecognizedProblem ↔
          ∀ a ∈ [(⟨"refusing", fun _ => true, fun _ _ => .error .unrecognizedProblem⟩ : Archetype)],
            a.accepts "2/4".toList = false) := by
  refine ⟨Latex.literalFraction?_eq_none_iff.1 (by cbv), fun h => ?_⟩
  have hunrecognized : (builtIn.registerAll [⟨"refusing", fun _ => true, fun _ _ => .error .unrecognizedProblem⟩]).solve
      {} "2/4".toList = .error .unrecognizedProblem := by cbv
  exact absurd (h.1 hunrecognized _ List.mem_cons_self) (by simp)

end Catalogue

end ExactAlgebra.Worked
