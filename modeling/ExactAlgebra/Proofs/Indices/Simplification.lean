import ExactAlgebra.Proofs.Indices.Value
import ExactAlgebra.Transformation

/-!
# Simplified indices

Where an expression has a value and no variable is zero, its simplified indices have the same value. The one thing
that can keep the answer from being read again is an exponent that has become too large.
-/

namespace ExactAlgebra

namespace Indices

/-! ## Printed exponents -/

/-- The integer `n` stands in the text as an exponent in braces. -/
def PrintsExponent (s : String) (n : ℤ) : Prop :=
  ("^" ++ Markup.braced (Markup.integer n)).toList <:+: s.toList

theorem PrintsExponent.isWord64_of_length {s : String} {n : ℤ} (h : PrintsExponent s n)
    (hlength : s.toList.length ≤ 18) : Latex.isWord64 n := by
  have hdigits : (Nat.toDigits 10 n.natAbs).length ≤ 18 := by
    have hle := h.length_le
    simp only [Markup.braced, Markup.integer, Markup.natural, String.toList_append, List.length_append,
      Nat.toList_repr] at hle
    omega
  have hbound := (Nat.length_toDigits_le_iff (by decide) (by decide)).1 hdigits
  simp only [Latex.isWord64, Bool.and_eq_true, decide_eq_true_eq]
  omega

variable {ps : List (Base × ℚ)} {p : Base × ℚ} {c : Chain}

theorem infix_joinFactors (hp : p ∈ ps) : (powerText p).toList <:+: (joinFactors (ps.map powerText)).toList := by
  have hlater (q : Base × ℚ) : (powerText q).toList <:+: (laterFactor (powerText q)).toList := by
    unfold laterFactor
    split
    · rw [String.toList_append]
      exact (List.suffix_append ..).isInfix
    · exact List.infix_refl _
  cases ps with
  | nil => cases hp
  | cons q ps =>
      rw [List.map_cons, joinFactors, String.toList_append, String.toList_join, List.map_map]
      rcases List.mem_cons.1 hp with rfl | hp
      · exact (List.prefix_append ..).isInfix
      · have hmem : laterFactor (powerText p) ∈ ps.map (laterFactor ∘ powerText) :=
          List.mem_map.2 ⟨p, hp, rfl⟩
        exact ((hlater p).trans (List.infix_of_mem_flatten (List.mem_map_of_mem hmem))).trans
          (List.suffix_append ..).isInfix

namespace Chain

/-- Every factor stands in the text of the chain. -/
theorem infix_latex (hne : c.coefficient ≠ 0) (hp : p ∈ c.numerator ∨ p ∈ c.denominator) :
    (powerText p).toList <:+: c.latex.toList := by
  by_cases hempty : c.denominator = []
  · rw [hempty, or_iff_left List.not_mem_nil] at hp
    rw [latex_eq_of_isEmpty hne hempty, String.toList_append]
    exact (infix_joinFactors hp).trans (List.suffix_append ..).isInfix
  · rw [latex_eq_fraction hne hempty]
    generalize (if c.coefficient < 0 then "-" else "") = sign
    rcases hp with hp | hp
    · refine (infix_joinFactors hp).trans ⟨(sign ++ "\\frac\x7b").toList,
        ("\x7d" ++ Markup.braced (joinFactors (c.denominator.map powerText))).toList, ?_⟩
      simp [Markup.fraction, Markup.braced]
    · refine (infix_joinFactors hp).trans
        ⟨(sign ++ ("\\frac" ++ Markup.braced (joinFactors (c.numerator.map powerText)) ++ "\x7b")).toList,
          "\x7d".toList, ?_⟩
      simp [Markup.fraction, Markup.braced]

/-- Exponents that are printed in the text can be read when they are not too large. -/
theorem readable_of_printed {s : String} (hprinted : ∀ n, PrintsExponent s n → Latex.isWord64 n)
    (hp : (powerText p).toList <:+: s.toList) (hint : p.2.den = 1) (hpos : 0 < p.2) :
    Indices.Readable p.2 := by
  refine .inr ⟨hint, ?_⟩
  by_cases hone : p.2 = 1
  · rw [hone]
    decide
  · have hword := hprinted p.2.num (List.IsInfix.trans ?_ hp)
    · have hnum := Rat.num_pos.2 hpos
      simp only [Latex.isWord64, Bool.and_eq_true, decide_eq_true_eq] at hword
      rw [Latex.maxExponent]
      omega
    · have hroot : ¬ (p.2.num = 1 ∧ p.2.den = 2) := by omega
      rw [powerText, powerLatex, if_neg hone, if_neg hroot, Markup.power, Markup.rational, if_pos hint,
        String.append_assoc, String.toList_append (s := p.1.latex)]
      exact (List.suffix_append ..).isInfix

end Chain

end Indices

/-! ## Simplification -/

namespace Transformation

open Indices

variable {limits : Limits} {text : List Char} {s : String}

theorem simplifyIndices_eq_ok (h : simplifyIndices limits text = .ok s) :
    ∃ e c, Expr.ofText limits text = .ok e ∧ Collects .folded 1 e c ∧ s = c.latex := by
  obtain ⟨e, he, h⟩ := Outcome.bind_eq_ok.1 h
  obtain ⟨c, hc, h⟩ := Outcome.bind_eq_ok.1 h
  cases h
  exact ⟨e, c, he, chain_sound hc, rfl⟩

/-- Where the exact value of the expression is defined and no variable is zero, the simplified expression has the
same exact value, provided that the exponents printed in it are signed words of 64 bits. -/
theorem simplifyIndices_exact (h : simplifyIndices limits text = .ok s)
    (hprinted : ∀ n, PrintsExponent s n → Latex.isWord64 n) :
    ∃ e e', Expr.ofText limits text = .ok e ∧ Expr.ofText {} s.toList = .ok e' ∧
      ∀ ρ, (∀ name ∈ e.names, ρ name ≠ 0) → ∀ v, e.HasValue ρ v → e'.HasValue ρ v := by
  obtain ⟨e, c, he, hcollects, rfl⟩ := simplifyIndices_eq_ok h
  have hletters := hcollects.lettered (Latex.isLetter_of_parse (Outcome.mapError_eq_ok.1 he))
  have hsupported {ρ : String → ℚ} (hρ : ∀ name ∈ e.names, ρ name ≠ 0) : c.Supported .integral ρ :=
    hcollects.supported Laws.integral_admitsRoots Laws.integral.admits_one hρ
  have hread : c.Readable := fun hne => by
    -- which exponents are integers does not depend on the assignment, so any one without zeros will do
    obtain ⟨hnumerator, hdenominator⟩ :=
      Chain.exponent_of_integral hletters hne (hsupported (ρ := fun _ => 1) fun _ _ => one_ne_zero)
    exact ⟨fun p hp => Chain.readable_of_printed hprinted (Chain.infix_latex hne (.inl hp)) (hnumerator p hp).1
        (hnumerator p hp).2,
      fun p hp => Chain.readable_of_printed hprinted (Chain.infix_latex hne (.inr hp)) (hdenominator p hp).1
        (hdenominator p hp).2⟩
  obtain ⟨e', hderives, he'⟩ := c.derives hletters hread
  have hparse : Latex.parse 64 c.latex.toList = .ok e' :=
    (Chain.spells hletters).parse_eq_ok_iff.2 ⟨63, rfl, hderives.mono (by decide)⟩
  refine ⟨e, e', he, Outcome.mapError_eq_ok.2 hparse, fun ρ hρ v hv => ?_⟩
  obtain ⟨w, hw⟩ := c.exists_hasValue hletters hread (hsupported hρ)
  have hwv : w ^ (1 : ℚ).num = v ^ (1 : ℚ).num :=
    hcollects.raise_eq Laws.integral_admitsRoots hread hρ hv hw
  rw [Rat.num_one, zpow_one, zpow_one] at hwv
  rw [he', ← hwv]
  exact hw

theorem simplifyIndices_exact_quotient :
    simplifyIndices {} "6x^\x7b4\x7d\\div(4x)".toList = .ok "\\frac\x7b3x^\x7b3\x7d\x7d\x7b2\x7d" ∧
      (∀ n, PrintsExponent "\\frac\x7b3x^\x7b3\x7d\x7d\x7b2\x7d" n → Latex.isWord64 n) ∧
      ∃ e e', Expr.ofText {} "6x^\x7b4\x7d\\div(4x)".toList = .ok e ∧
        Expr.ofText {} "\\frac\x7b3x^\x7b3\x7d\x7d\x7b2\x7d".toList = .ok e' ∧
        ∀ ρ, (∀ name ∈ e.names, ρ name ≠ 0) → ∀ v, e.HasValue ρ v → e'.HasValue ρ v := by
  have h : simplifyIndices {} "6x^\x7b4\x7d\\div(4x)".toList = .ok "\\frac\x7b3x^\x7b3\x7d\x7d\x7b2\x7d" := by cbv
  have hprinted (n) (hn : PrintsExponent "\\frac\x7b3x^\x7b3\x7d\x7d\x7b2\x7d" n) : Latex.isWord64 n :=
    hn.isWord64_of_length (by decide)
  exact ⟨h, hprinted, simplifyIndices_exact h hprinted⟩

end Transformation

end ExactAlgebra
