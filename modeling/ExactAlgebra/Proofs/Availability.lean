import ExactAlgebra.Availability
import ExactAlgebra.Proofs.Decimal.Conversion
import ExactAlgebra.Proofs.Factorization.Answers
import ExactAlgebra.Proofs.Indices.Bases
import ExactAlgebra.Proofs.Indices.Coefficient
import ExactAlgebra.Proofs.Latex.Letters

/-!
# Available operations

What becomes of an operation that was found available without being run. For four operations availability leaves no
refusal. For a single power it does: a number or a minus sign under a root gets an exponent that is not whole, and the
operation then does not apply after all.
-/

namespace ExactAlgebra

/-- An operation that applies has an answer, or divides by zero, or meets a limit. -/
def Applies (outcome : Except Error String) : Prop :=
  (∃ s, outcome = .ok s) ∨ outcome = .error .divisionByZero ∨ ∃ excess, outcome = .error (.tooComplex excess)

variable {limits : Limits} {text : List Char} {e : Expr}

/-! ## Names and tests -/

theorem available_of_name (op : Operation) (h : isOperationAvailable limits op.name text) :
    op.isAvailable limits text := by
  rwa [isOperationAvailable, Operation.ofName?_name] at h

theorem applyOperation_name (op : Operation) : applyOperation limits op.name text = op.apply limits text := by
  rw [applyOperation, Operation.ofName?_name]

theorem treeSatisfies_iff {test : Expr → Bool} :
    treeSatisfies limits text test ↔ ∃ e, Expr.ofText limits text = .ok e ∧ test e := by
  unfold treeSatisfies
  cases Expr.ofText limits text <;> simp

theorem isFactorableLiteral_iff :
    isFactorableLiteral limits text ↔ ∃ n offset, Latex.tokenize text = .ok [⟨.number n, offset⟩] ∧ n.isInteger ∧
      2 ≤ n.digitsValue ∧ n.digitsValue ≤ limits.maxFactorInput.toNat := by
  unfold isFactorableLiteral
  constructor
  · intro h
    split at h
    · rename_i n offset htokens
      simp only [Bool.and_eq_true, decide_eq_true_eq] at h
      exact ⟨n, offset, htokens, h.1.1, h.1.2, h.2⟩
    · cases h
  · rintro ⟨n, offset, htokens, hinteger, htwo, hmax⟩
    simp [htokens, hinteger, htwo, hmax]

theorem Profile.isIndexChain_iff {rootsAllowed : Bool} :
    isIndexChain rootsAllowed e ↔ e.any (breaksChain rootsAllowed) = false ∧ e.any isIndexed := by
  rw [isIndexChain, Bool.and_eq_true, Bool.not_eq_true']

/-! ## Literals -/

theorem Numeral.value_of_isInteger {n : Numeral} (h : n.isInteger) : n.value = n.digitsValue := by
  rw [value, List.isEmpty_iff.1 h]
  exact (Rat.mkRat_one _).trans (Int.cast_natCast _)

/-- A lone integer is an expression, if there is a level for it. -/
theorem Expr.ofText_numeral {n : Numeral} {offset : Nat} (h : Latex.tokenize text = .ok [⟨.number n, offset⟩])
    (hn : n.isInteger) : Expr.ofText limits text =
      if limits.maxDepth.toNat = 0 then .error (.tooComplex (.depth 0)) else .ok (.num n.value) := by
  split
  · rename_i hzero
    rw [Expr.ofText, hzero, Latex.parse, h]
    rfl
  · rename_i hpos
    obtain ⟨depth, hdepth⟩ := Nat.exists_eq_succ_of_ne_zero hpos
    have hsum : Latex.Derives depth .sum [.number n] [] (.num n.value) :=
      .sum_of_atom (Latex.derives_numeral hn Latex.not_beginsLiteralFraction_nil)
    rw [Expr.ofText, Latex.parse_eq_ok_iff.2 ⟨_, depth, h, hdepth, hsum⟩]
    rfl

namespace Transformation

/-! ## Operations without a refusal -/

theorem combine_of_available (h : Operation.combine.isAvailable limits text) :
    ∃ s, combine limits text = .ok s := by
  obtain ⟨e, he, hlike⟩ := treeSatisfies_iff.1 h
  unfold Profile.Report.likeTermsIn at hlike
  split at hlike
  · rename_i terms hterms
    refine ⟨(Polynomial.combine terms).latex, ?_⟩
    rw [combine, he, Outcome.ok_bind, hterms]
    rfl
  · cases hlike

theorem decimalFraction_of_available (h : Operation.decimalFraction.isAvailable limits text) :
    ∃ negative whole fraction, PointedLiteral text negative whole fraction ∧
      ((∃ s, decimalFraction text = .ok s) ↔ ¬ TooManyDigits fraction) := by
  obtain ⟨negative, whole, fraction, hliteral⟩ := isPointed_iff.1 h
  refine ⟨negative, whole, fraction, hliteral, ?_⟩
  rw [decimalFraction, Outcome.exists_map_eq_ok]
  exact exists_convertDecimal_iff hliteral

theorem primeFactorize_of_available (h : Operation.primeFactorize.isAvailable limits text) :
    (∃ s, primeFactorize limits text = .ok s) ∨
      limits.maxDepth = 0 ∧ ∃ excess, primeFactorize limits text = .error (.tooComplex excess) := by
  obtain ⟨n, offset, htokens, hinteger, htwo, hmax⟩ := isFactorableLiteral_iff.1 h
  have htree : Expr.ofText limits text = _ := Expr.ofText_numeral htokens hinteger
  split at htree
  · rename_i hzero
    refine .inr ⟨UInt64.toNat_inj.1 hzero, .depth 0, primeFactorize_of_error ?_⟩
    rw [Polynomial.ofText, htree, Outcome.error_bind]
  · have hconstant : Polynomial.ofText limits text = .ok (.constant (n.digitsValue : ℤ)) := by
      rw [Polynomial.ofText, htree, Numeral.value_of_isInteger hinteger, Int.cast_natCast]
      rfl
    rw [primeFactorize_of_constant hconstant (by omega), if_neg (by omega)]
    exact .inl ⟨_, rfl⟩

open Indices

theorem simplifyIndices_of_available (h : Operation.simplifyIndices.isAvailable limits text) :
    Applies (simplifyIndices limits text) := by
  obtain ⟨e, he, hchain⟩ := treeSatisfies_iff.1 h
  have hunbroken : e.any (Profile.breaksChain Treatment.folded.allowsRoots) = false :=
    (Profile.isIndexChain_iff.1 hchain).1
  rw [simplifyIndices, he, Outcome.ok_bind]
  cases hc : chain limits .folded 1 e with
  | ok c => exact .inl ⟨c.latex, rfl⟩
  | error err =>
      obtain ⟨before, p, after, hscalars, -, hp⟩ := (chain_eq_error_iff hunbroken).1 hc
      have hmem : p ∈ scalars .folded 1 e := hscalars ▸ List.mem_append_right before List.mem_cons_self
      -- only a root could make an exponent fractional, and there is none
      have hwhole : p.2.den = 1 := whole_of_mem_scalars hunbroken Rat.den_one p hmem
      rcases scalarPower_eq_error hp with ⟨hfractional, -⟩ | ⟨-, rfl | rfl⟩
      · exact absurd hwhole hfractional
      · exact .inr (.inr ⟨_, rfl⟩)
      · exact .inr (.inl rfl)

end Transformation

/-- What becomes of four operations on a text that they are available for. Combining has an answer. The conversion of a
decimal has one just when its digits are not too many to be counted. Factorization has one unless there is no level of
nesting at all, and indices are simplified unless zero is divided by or a limit is met. -/
theorem applyOperation_of_available (limits : Limits) (text : List Char) :
    (isOperationAvailable limits "combine" text → ∃ s, applyOperation limits "combine" text = .ok s) ∧
      (isOperationAvailable limits "decimal-fraction" text →
        ∃ negative whole fraction, PointedLiteral text negative whole fraction ∧
          ((∃ s, applyOperation limits "decimal-fraction" text = .ok s) ↔ ¬ TooManyDigits fraction)) ∧
      (isOperationAvailable limits "prime-factorize" text →
        (∃ s, applyOperation limits "prime-factorize" text = .ok s) ∨
          limits.maxDepth = 0 ∧
            ∃ excess, applyOperation limits "prime-factorize" text = .error (.tooComplex excess)) ∧
      (isOperationAvailable limits "simplify-indices" text →
        Applies (applyOperation limits "simplify-indices" text)) := by
  refine ⟨fun h => ?_, fun h => ?_, fun h => ?_, fun h => ?_⟩
  · rw [show applyOperation limits "combine" text = _ from applyOperation_name .combine]
    exact Transformation.combine_of_available (available_of_name .combine h)
  · rw [show applyOperation limits "decimal-fraction" text = _ from applyOperation_name .decimalFraction]
    exact Transformation.decimalFraction_of_available (available_of_name .decimalFraction h)
  · rw [show applyOperation limits "prime-factorize" text = _ from applyOperation_name .primeFactorize]
    exact Transformation.primeFactorize_of_available (available_of_name .primeFactorize h)
  · rw [show applyOperation limits "simplify-indices" text = _ from applyOperation_name .simplifyIndices]
    exact Transformation.simplifyIndices_of_available (available_of_name .simplifyIndices h)

theorem applyOperation_of_available_literals :
    (∃ s, applyOperation {} "combine" "x+2x".toList = .ok s) ∧
      (∃ s, applyOperation {} "decimal-fraction" " -.5".toList = .ok s) ∧
      (∃ s, applyOperation {} "prime-factorize" "012".toList = .ok s) ∧
      Applies (applyOperation {} "simplify-indices" "x\\div0^\x7b2\x7d".toList) := by
  have hsplit : Decimal.splitSign (Text.trim " -.5".toList) = (true, ".5".toList) := by cbv
  refine ⟨(applyOperation_of_available _ _).1 (by cbv), ?_, ?_,
    (applyOperation_of_available _ _).2.2.2 (by cbv)⟩
  · obtain ⟨negative, whole, fraction, hliteral, hiff⟩ := (applyOperation_of_available {} " -.5".toList).2.1 (by cbv)
    obtain ⟨-, hparts, -⟩ := (pointedLiteral_iff hsplit).1 hliteral
    cases hparts
    exact hiff.2 (not_tooManyDigits (by decide))
  · exact ((applyOperation_of_available _ _).2.2.1 (by cbv)).resolve_right fun h => absurd h.1 (by decide)

theorem pointedLiteral_point {fraction : List Char} (hdigits : ∀ c ∈ fraction, c.isDigit) (hne : fraction ≠ []) :
    PointedLiteral ('.' :: fraction) false [] fraction := by
  refine ⟨⟨[], .none, Text.trim_eq_self ?_⟩, hdigits, hne⟩
  exact List.forall_mem_cons.2 ⟨by decide, fun c hc => Text.isBlank_of_isDigit (hdigits c hc)⟩

/-- Zeros do not repeat, so that all of them count. -/
theorem not_repeats_zeros (n : ℕ) : ¬ Repeats (List.replicate n '0') := by
  rintro ⟨-, ⟨d, hd, hne⟩, -⟩
  exact hne (List.eq_of_mem_replicate hd)

theorem applyOperation_decimalFraction_zeros {n : ℕ} (hn : 2 ^ 32 ≤ n) :
    isOperationAvailable limits "decimal-fraction" ('.' :: List.replicate n '0') ∧
      applyOperation limits "decimal-fraction" ('.' :: List.replicate n '0') = .error (.unexpected 0 .decimal) := by
  have hliteral : PointedLiteral ('.' :: List.replicate n '0') false [] (List.replicate n '0') := by
    refine pointedLiteral_point (fun c hc => ?_) (by simpa using Nat.ne_of_gt (Nat.lt_of_lt_of_le (by decide) hn))
    rw [List.eq_of_mem_replicate hc]
    rfl
  constructor
  · exact isPointed_iff.2 ⟨_, _, _, hliteral⟩
  · have hconversion := Transformation.convertDecimal_of_not_repeats hliteral (not_repeats_zeros n)
    rw [if_neg (by simpa using hn)] at hconversion
    exact congrArg (Except.map fun c => Markup.rational c.value) hconversion

/-- A point before zeros is offered for conversion, and refused where the zeros are too many to be counted. -/
theorem applyOperation_of_available_zeros :
    isOperationAvailable {} "decimal-fraction" ('.' :: List.replicate (2 ^ 32) '0') ∧
      applyOperation {} "decimal-fraction" ('.' :: List.replicate (2 ^ 32) '0') = .error (.unexpected 0 .decimal) :=
  applyOperation_decimalFraction_zeros (Nat.le_refl _)

/-! ## A single power -/

namespace Transformation

open Indices

/-- A chain that is offered as a single power is never refused for its bases. -/
theorem simplifyOneTerm_eq_map_chain (he : Expr.ofText limits text = .ok e)
    (hbases : (Profile.indexBases e).length ≤ 1) :
    simplifyOneTerm limits text = (chain limits .kept 1 e).map Chain.latex := by
  rw [simplifyOneTerm, he, Outcome.ok_bind]
  cases hc : chain limits .kept 1 e with
  | error err => rfl
  | ok c =>
      have hletters := Latex.isLetter_of_parse (Outcome.mapError_eq_ok.1 he)
      have hlength := length_indexBases hc fun name hname => hasNoDigit_of_isLetter (hletters name hname)
      rw [Outcome.ok_bind, if_neg (by omega)]
      rfl

/-- A text that is offered as a single power is one just when all its numbers and minus signs can be raised. It is
refused just when the first that cannot be raised has an exponent that is not whole, as below a root. Nothing else keeps
the operation from applying. -/
theorem simplifyOneTerm_notApplicable_iff (h : isOperationAvailable limits "simplify-one-term" text) :
    ∃ e, Expr.ofText limits text = .ok e ∧
      ((∃ s, applyOperation limits "simplify-one-term" text = .ok s) ↔ ∀ p ∈ scalars .kept 1 e, Raisable limits p) ∧
      (applyOperation limits "simplify-one-term" text = .error (.notApplicable .simplifyOneTerm) ↔
        ∃ before p after, scalars .kept 1 e = before ++ p :: after ∧ (∀ q ∈ before, Raisable limits q) ∧
          p.2.den ≠ 1) ∧
      (Applies (applyOperation limits "simplify-one-term" text) ∨
        applyOperation limits "simplify-one-term" text = .error (.notApplicable .simplifyOneTerm)) := by
  obtain ⟨e, he, htest⟩ := treeSatisfies_iff.1 (available_of_name .simplifyOneTerm h)
  rw [Bool.and_eq_true, decide_eq_true_eq] at htest
  have hunbroken : e.any (Profile.breaksChain Treatment.kept.allowsRoots) = false :=
    (Profile.isIndexChain_iff.1 htest.1).1
  have happly : applyOperation limits "simplify-one-term" text = (chain limits .kept 1 e).map Chain.latex :=
    (applyOperation_name .simplifyOneTerm).trans (simplifyOneTerm_eq_map_chain he htest.2)
  rw [happly]
  refine ⟨e, he, ?_, ?_, ?_⟩
  · rw [Outcome.exists_map_eq_ok, exists_chain_iff hunbroken]
  · rw [Outcome.map_eq_error, chain_eq_error_iff hunbroken,
      show Error.notApplicable .simplifyOneTerm = Treatment.kept.notApplicable from rfl]
    simp only [scalarPower_notApplicable_iff]
  · cases hc : chain limits .kept 1 e with
    | ok c => exact .inl (.inl ⟨c.latex, rfl⟩)
    | error err =>
        obtain ⟨_, _, _, -, -, hp⟩ := (chain_eq_error_iff hunbroken).1 hc
        rcases scalarPower_eq_error hp with ⟨-, rfl⟩ | ⟨-, rfl | rfl⟩
        · exact .inr rfl
        · exact .inl (.inr (.inr ⟨_, rfl⟩))
        · exact .inl (.inr (.inl rfl))

theorem simplifyOneTerm_notApplicable_iff_negated :
    isOperationAvailable {} "simplify-one-term" "\\sqrt\x7bx\x7d\\times(-x)".toList ∧
      ∃ s, applyOperation {} "simplify-one-term" "\\sqrt\x7bx\x7d\\times(-x)".toList = .ok s := by
  have h : isOperationAvailable {} "simplify-one-term" "\\sqrt\x7bx\x7d\\times(-x)".toList := by cbv
  obtain ⟨e, he, hok, -⟩ := simplifyOneTerm_notApplicable_iff h
  have htree : Expr.ofText {} "\\sqrt\x7bx\x7d\\times(-x)".toList =
      .ok (.binary .mul (.sqrt (.var "x")) (.group (.negate (.var "x")))) := by cbv
  cases he.symm.trans htree
  have hraisable : Raisable {} (-1, 1) := ⟨rfl, by decide, by decide, by norm_num⟩
  exact ⟨h, hok.2 (List.forall_mem_singleton.2 hraisable)⟩

theorem simplifyOneTerm_root_of_zero :
    isOperationAvailable {} "simplify-one-term" "\\sqrt\x7b0\x7d".toList ∧
      applyOperation {} "simplify-one-term" "\\sqrt\x7b0\x7d".toList = .error (.notApplicable .simplifyOneTerm) := by
  constructor <;> cbv

end Transformation

end ExactAlgebra
