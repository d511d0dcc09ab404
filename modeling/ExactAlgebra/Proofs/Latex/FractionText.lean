import ExactAlgebra.Proofs.Latex.Parsing

/-!
# Texts that are one fraction

A text whose tokens are one fraction of integer literals, however it is spaced and whichever fraction command it uses,
is recognized from its tokens, and parsed to the number that it stands for. Both notice a denominator that is zero.
-/

namespace ExactAlgebra.Latex

/-- The tokens of a text are a fraction of two integer literals with the values `n` and `d`. -/
def IsFraction (text : List Char) (n d : Nat) : Prop :=
  ∃ ts p q, tokenize text = .ok ts ∧ plain ts = literalFraction p q ∧ p.isInteger ∧ q.isInteger ∧
    p.digitsValue = n ∧ q.digitsValue = d

variable {text : List Char} {n d limit : Nat} {fraction : LiteralFraction}

/-! ## Recognition -/

theorem isFraction_of_literalFraction? (h : literalFraction? text = some fraction) :
    IsFraction text fraction.numerator fraction.denominator := by
  unfold literalFraction? at h
  split at h
  · cases h
  · rename_i ts hts
    split at h
    · rename_i r hr
      split at h
      · rename_i hempty
        cases h
        obtain ⟨p, q, hp, hq, hplain, hn, hd⟩ := literalFraction_sound hr
        rw [List.isEmpty_iff.1 hempty, plain_nil, List.append_nil] at hplain
        exact ⟨ts, p, q, hts, hplain, hp, hq, hn.symm, hd.symm⟩
      · cases h
    · cases h

theorem IsFraction.literalFraction? (h : IsFraction text n d) :
    ∃ fraction, literalFraction? text = some fraction ∧ fraction.numerator = n ∧ fraction.denominator = d := by
  obtain ⟨ts, p, q, hts, hplain, hp, hq, rfl, rfl⟩ := h
  obtain ⟨r, hr, hrest, hn, hd⟩ := literalFraction_complete hp hq (hplain.trans (List.append_nil _).symm)
  refine ⟨r.value, ?_, hn, hd⟩
  simp [Latex.literalFraction?, hts, hr, plain_eq_nil hrest]

theorem literalFraction?_eq_none_iff : literalFraction? text = none ↔ ∀ n d, ¬ IsFraction text n d := by
  constructor
  · intro hnone n d h
    obtain ⟨fraction, hsome, -⟩ := h.literalFraction?
    rw [hnone] at hsome
    cases hsome
  · intro h
    by_contra hne
    obtain ⟨fraction, hsome⟩ := Option.ne_none_iff_exists'.1 hne
    exact h _ _ (isFraction_of_literalFraction? hsome)

/-! ## Parsing -/

theorem IsFraction.parse_of_ne_zero (h : IsFraction text n d) (hd : d ≠ 0) (hlimit : 2 ≤ limit) :
    parse limit text = .ok (.num (mkRat n d)) := by
  obtain ⟨ts, p, q, hts, hplain, hp, hq, rfl, rfl⟩ := h
  obtain ⟨depth, rfl⟩ : ∃ depth, limit = depth + 2 := Nat.exists_eq_add_of_le' hlimit
  have hvalue := FractionValue.F_Number (a := .num p.value) (b := .num q.value) .L_Plain hp hq hd
  have hatom : Derives (depth + 1) .atom (literalFraction p q) [] (.num (mkRat p.digitsValue q.digitsValue)) :=
    .A_Frac (derives_argument depth hp _) (derives_argument depth hq []) hvalue
  refine parse_eq_ok_iff.2 ⟨ts, depth + 1, hts, rfl, ?_⟩
  rw [hplain]
  exact .sum_of_atom hatom

section Errors

variable {f : Frame} {deeper : Deeper} {rest : Tokens} {o : Nat} {e : Error}

/-- Where the fraction at the front of an expression has an error, the expression has it. -/
theorem sum_eq_error_of_fraction (h : fractionArguments f deeper rest = .error e) :
    sum f deeper (⟨.frac, o⟩ :: rest) = .error e := by
  refine sum_eq_error (stops_cons rfl) ?_
  simp only [atom, h, Outcome.map_error]

theorem quotient_zero {numerator denominator : Frame.Argument Expr} {q : Numeral}
    (hplain : plain denominator.tokens = [.number q]) (hzero : q.digitsValue = 0) :
    quotient f numerator denominator = .error (.invalidDenominator (f.position denominator.tokens)) := by
  have hsigned : signedLiteral? denominator.tokens = some (false, q) :=
    signedLiteral?_eq_some_iff.2 (hplain ▸ .L_Plain)
  simp [quotient, hsigned, hzero]

end Errors

theorem IsFraction.parse_zero (h : IsFraction text n 0) (hlimit : 2 ≤ limit) :
    ∃ position, parse limit text = .error (.invalidDenominator position) := by
  obtain ⟨ts, p, q, hts, hplain, hp, hq, rfl, hzero⟩ := h
  obtain ⟨depth, rfl⟩ : ∃ depth, limit = depth + 2 := Nat.exists_eq_add_of_le' hlimit
  obtain ⟨o, rest, rfl, hrest⟩ := plain_eq_cons hplain
  generalize hf : (⟨depth + 2, Text.byteLength text⟩ : Frame) = f
  -- both arguments are read, and the fraction is refused only then
  have hread {r : Numeral} (hr : r.isInteger) {next : List Token} (us : Tokens)
      (hus : plain us = [.number r] ++ .closeBrace :: next) :
      Reads ((deeperAt f (depth + 1)).expression us) (.closeBrace :: next) (.num r.value) :=
    (derives_argument depth hr next).complete (stops_cons rfl) us hus
  obtain ⟨numerator, hnumerator, hopen, -⟩ := argument_complete f .numerator .numeratorEnd (hread hp) hrest
  obtain ⟨denominator, hdenominator, -, -, htokens⟩ :=
    argument_complete f .denominator .denominatorEnd (hread hq) hopen
  refine ⟨f.position denominator.value.tokens, ?_⟩
  have hfraction : fractionArguments f (deeperAt f (depth + 1)) rest =
      .error (.invalidDenominator (f.position denominator.value.tokens)) := by
    simp only [fractionArguments, hnumerator, hdenominator, quotient_zero htokens hzero, Outcome.ok_bind,
      Outcome.error_bind]
  have hexpression : expressionOf f (⟨.frac, o⟩ :: rest) =
      .error (.invalidDenominator (f.position denominator.value.tokens)) := by
    have hnested := sum_eq_error_of_fraction (o := o) hfraction
    subst hf
    rw [expressionOf]
    exact congrArg (· >>= _) hnested
  rw [parse, hts, Outcome.ok_bind, if_neg (by simp), hf, hexpression]

end ExactAlgebra.Latex
