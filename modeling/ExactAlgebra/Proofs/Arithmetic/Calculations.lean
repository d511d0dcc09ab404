import ExactAlgebra.Proofs.Arithmetic.Evaluation
import ExactAlgebra.Proofs.Arithmetic.Literals

/-!
# Calculations are evaluated by the grammar

With as many levels as tokens, nesting is no obstacle: a text evaluates to the value of the calculation that its tokens
derive, and it fails with a division by zero when that calculation has no value.
-/

namespace ExactAlgebra.Arithmetic

/-- A calculation that is derived with any number of levels decides the outcome of a text with enough of them. -/
theorem Derives.evaluate_eq {limits : Limits} {text : List Char} {ts : Tokens} {d : Nat} {c : Calculation}
    (hts : tokenize text = .ok ts) (hdepth : ts.length ≤ limits.maxDepth.toNat) (h : Derives d .sum (plain ts) c) :
    evaluate limits text = c.value := by
  have hnesting : (plain ts).length ≤ limits.maxDepth.toNat := by rwa [List.length_map]
  exact evaluate_eq_value hts (h.nesting.mono hnesting)

/-- With at least as many levels as tokens, a text evaluates to the value of the calculation that its tokens derive, or
it fails when this calculation divides by zero. Its literals denote the numbers that are written. -/
theorem evaluate_iff_derives {limits : Limits} {text : List Char} {ts : Tokens} (hts : tokenize text = .ok ts)
    (hdepth : ts.length ≤ limits.maxDepth.toNat) :
    (∀ v, evaluate limits text = .ok v ↔ ∃ d c, Derives d .sum (plain ts) c ∧ c.value = .ok v) ∧
      (∀ d c, Derives d .sum (plain ts) c → (∀ v, c.value ≠ .ok v) → evaluate limits text = .error .divisionByZero) ∧
      ∀ q offset, ⟨.literal q, offset⟩ ∈ ts → LiteralAt text offset q := by
  refine ⟨fun v => ⟨fun h => ?_, ?_⟩, ?_, fun q offset => literalAt_of_mem hts⟩
  · obtain ⟨us, c, hus, hderives, hvalue⟩ := evaluate_eq_ok_iff.1 h
    cases hts.symm.trans hus
    exact ⟨_, c, hderives, hvalue⟩
  · rintro ⟨d, c, hderives, hvalue⟩
    rw [hderives.evaluate_eq hts hdepth, hvalue]
  · intro d c hderives hvalue
    rw [hderives.evaluate_eq hts hdepth]
    cases hc : c.value with
    | ok v => exact absurd hc (hvalue v)
    | error e => rw [Calculation.eq_divisionByZero_of_value hc]

theorem evaluate_iff_derives_quotients :
    tokenize "1 1/2(3)".toList = .ok [⟨.literal (3 / 2), 0⟩, ⟨.openParen, 5⟩, ⟨.literal 3, 6⟩, ⟨.closeParen, 7⟩] ∧
      (∃ d c, Derives d .sum [.literal (3 / 2), .openParen, .literal 3, .closeParen] c ∧ c.value = .ok (9 / 2)) ∧
      LiteralAt "1 1/2(3)".toList 0 (3 / 2) ∧
      tokenize "1\\div0".toList = .ok [⟨.literal 1, 0⟩, ⟨.divide, 1⟩, ⟨.literal 0, 5⟩] ∧
      evaluate {} "1\\div0".toList = .error .divisionByZero := by
  have hproduct : tokenize "1 1/2(3)".toList =
      .ok [⟨.literal (3 / 2), 0⟩, ⟨.openParen, 5⟩, ⟨.literal 3, 6⟩, ⟨.closeParen, 7⟩] := by cbv
  have hquotient : tokenize "1\\div0".toList = .ok [⟨.literal 1, 0⟩, ⟨.divide, 1⟩, ⟨.literal 0, 5⟩] := by cbv
  have hdepth {ts : Tokens} (h : ts.length ≤ 64) : ts.length ≤ ({} : Limits).maxDepth.toNat := h
  have hvalue : evaluate {} "1 1/2(3)".toList = .ok (9 / 2) := by cbv
  have hzero : Derives 0 .sum [.literal 1, .divide, .literal 0] (.binary .div (.literal 1) (.literal 0)) :=
    .S_First (.P_First (.U_Atom .A_Literal) (.P_Divide (.U_Atom .A_Literal) .P_End)) .S_End
  obtain ⟨hiff, -, hliteral⟩ := evaluate_iff_derives hproduct (hdepth (by decide))
  obtain ⟨-, herror, -⟩ := evaluate_iff_derives hquotient (hdepth (by decide))
  exact ⟨hproduct, (hiff _).1 hvalue, hliteral _ _ (by simp), hquotient,
    herror _ _ hzero (by simp [Calculation.value, Operator.compute])⟩

end ExactAlgebra.Arithmetic
