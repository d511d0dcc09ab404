import ExactAlgebra.Proofs.Decimal.Conversion
import ExactAlgebra.Proofs.Latex.Parsing

/-!
# Decimal literals

Which texts are decimal literals, and the number that each of them is read as. How a literal is written is said without
the reader: blanks may stand around it, and digits may be missing on one side of the point.
-/

namespace ExactAlgebra

variable {text before after sign body : List Char} {negative : Bool} {n : Numeral}

/-! ## Blanks around a text -/

namespace Text

theorem trim_append_left (hbefore : ∀ c ∈ before, isBlank c) (cs : List Char) : trim (before ++ cs) = trim cs := by
  rw [trim, trimLeft, List.dropWhile_append_of_pos hbefore]
  rfl

theorem trimRight_append (hafter : ∀ c ∈ after, isBlank c) (cs : List Char) :
    trimRight (cs ++ after) = trimRight cs := by
  rw [trimRight, trimLeft, List.reverse_append, List.dropWhile_append_of_pos (by simpa using hafter)]
  rfl

theorem trim_append_right (hafter : ∀ c ∈ after, isBlank c) (cs : List Char) : trim (cs ++ after) = trim cs := by
  rw [trim, trim, trimLeft, List.dropWhile_append]
  split
  · rename_i hempty
    rw [← trimLeft] at hempty
    rw [List.isEmpty_iff.1 hempty, List.dropWhile_eq_nil_iff.2 hafter]
  · exact trimRight_append hafter _

/-- What trimming takes away is blanks. -/
theorem exists_blanks_trim (cs : List Char) :
    ∃ before after, (∀ c ∈ before ++ after, isBlank c) ∧ cs = before ++ (trim cs ++ after) := by
  have hleft (ds : List Char) : ∃ before, (∀ c ∈ before, isBlank c) ∧ ds = before ++ trimLeft ds :=
    ⟨ds.takeWhile isBlank, List.all_eq_true.1 List.all_takeWhile, List.takeWhile_append_dropWhile.symm⟩
  obtain ⟨before, hbefore, hcs⟩ := hleft cs
  obtain ⟨after, hafter, hreverse⟩ := hleft (trimLeft cs).reverse
  refine ⟨before, after.reverse, List.forall_mem_append.2 ⟨hbefore, by simpa using hafter⟩, ?_⟩
  rw [trim, trimRight, ← List.reverse_append, ← hreverse, List.reverse_reverse, ← hcs]

end Text

/-! ## How a literal is written -/

/-- Digits without a point, or with one among, before or after them. -/
inductive NumeralText : List Char → Numeral → Prop
  | whole {ds} : NumeralText ds ⟨ds, []⟩
  | pointed {ws fs} : NumeralText (ws ++ '.' :: fs) ⟨ws, fs⟩

/-- Between blanks stands an optional sign before the digits of the numeral, of which there is one at least. -/
structure DecimalLiteral (text : List Char) (negative : Bool) (n : Numeral) : Prop where
  spelling : ∃ before sign body after, text = before ++ (sign ++ body ++ after) ∧
    (∀ c ∈ before ++ after, Text.isBlank c) ∧ SignText sign negative ∧ NumeralText body n
  digits : ∀ c ∈ n.whole ++ n.fraction, c.isDigit
  ne_nil : n.whole ++ n.fraction ≠ []

namespace NumeralText

variable (h : NumeralText body n) (hdigits : ∀ c ∈ n.whole ++ n.fraction, c.isDigit)
include h hdigits

theorem splitPoint_eq : Decimal.splitPoint body = n := by
  obtain ⟨hwhole, -⟩ := List.forall_mem_append.1 hdigits
  cases h with
  | whole =>
      have hpoint : Text.splitAtFirst '.' body = none :=
        Text.splitAtFirst_eq_none_iff.2 fun hmem => by cases hwhole _ hmem
      rw [Decimal.splitPoint, hpoint]
  | pointed => rw [Decimal.splitPoint, Text.splitAtFirst_point hwhole]

/-- A numeral is made of digits and points. -/
theorem forall_mem : ∀ c ∈ body, c.isDigit ∨ c = '.' := by
  cases h with
  | whole => exact fun c hc => .inl (hdigits c (List.mem_append_left _ hc))
  | pointed =>
      simp only [List.forall_mem_append, List.forall_mem_cons] at hdigits ⊢
      exact ⟨fun c hc => .inl (hdigits.1 c hc), .inr trivial, fun c hc => .inl (hdigits.2 c hc)⟩

theorem isBlank : ∀ c ∈ body, Text.isBlank c = false := by
  intro c hc
  rcases h.forall_mem hdigits c hc with hdigit | rfl
  · exact Text.isBlank_of_isDigit hdigit
  · decide

theorem head?_ne_sign : ∀ c ∈ body.head?, c ≠ '-' ∧ c ≠ '+' := by
  intro c hc
  rcases h.forall_mem hdigits c (List.mem_of_mem_head? hc) with hdigit | rfl
  · exact ne_sign_of_isDigit hdigit
  · decide

end NumeralText

theorem numeralText_splitPoint (body : List Char) : NumeralText body (Decimal.splitPoint body) := by
  rw [Decimal.splitPoint]
  split
  · rename_i hparts
    obtain ⟨rfl, -⟩ := Text.splitAtFirst_eq_some_iff.1 hparts
    exact .pointed
  · exact .whole

/-! ## Reading -/

namespace Decimal

theorem read?_literal (h : DecimalLiteral text negative n) : read? text = some ⟨negative, n⟩ := by
  obtain ⟨before, sign, body, after, rfl, hblank, hsign, hbody⟩ := h.spelling
  obtain ⟨hbefore, hafter⟩ := List.forall_mem_append.1 hblank
  have hcore : ∀ c ∈ sign ++ body, Text.isBlank c = false :=
    List.forall_mem_append.2 ⟨hsign.isBlank, hbody.isBlank h.digits⟩
  have hread : read? (sign ++ body) = some ⟨negative, n⟩ :=
    read?_of_parts hcore (hsign.splitSign_append (hbody.head?_ne_sign h.digits)) (hbody.splitPoint_eq h.digits)
      h.digits h.ne_nil
  rw [read?] at hread ⊢
  rwa [Text.trim_append_left hbefore, Text.trim_append_right hafter]

theorem literal_of_read? {d : Decimal} (h : read? text = some d) : DecimalLiteral text d.negative d.numeral := by
  obtain ⟨before, after, hblank, htext⟩ := Text.exists_blanks_trim text
  obtain ⟨sign, hsign, htrim⟩ := exists_sign_append (Text.trim text)
  rw [htrim] at htext
  simp only [read?] at h
  split at h
  · cases h
  · rename_i hempty
    split at h
    · rename_i hdigits
      cases h
      exact ⟨⟨before, sign, _, after, htext, hblank, hsign, numeralText_splitPoint _⟩, List.all_eq_true.1 hdigits,
        by simpa using hempty⟩
    · cases h

/-- The integer that the digits denote with their sign when the point is left out. -/
def signedDigits (negative : Bool) (n : Numeral) : ℤ := if negative then -n.digitsValue else n.digitsValue

theorem value_eq_divInt (d : Decimal) :
    d.value = Rat.divInt (signedDigits d.negative d.numeral) (10 ^ d.numeral.fraction.length : ℕ) := by
  have hpow : Nat.pow 10 d.numeral.fraction.length = 10 ^ d.numeral.fraction.length := rfl
  rw [value, signed, Numeral.value, hpow, Rat.mkRat_eq_divInt, signedDigits]
  split
  · exact Rat.neg_divInt _ _
  · rfl

end Decimal

/-- The rational number is the integer over the natural number, in lowest terms. -/
structure IsQuotient (q : ℚ) (numerator : ℤ) (denominator : ℕ) : Prop where
  eq : q = numerator / denominator
  num : q.num = numerator / numerator.gcd denominator
  den : q.den = denominator / numerator.gcd denominator

theorem isQuotient_divInt (a : ℤ) {b : ℕ} (hb : 0 < b) : IsQuotient (Rat.divInt a b) a b := by
  have hne : (b : ℤ) ≠ 0 := Int.natCast_ne_zero.2 hb.ne'
  refine ⟨by rw [Rat.divInt_eq_div, Int.cast_natCast], ?_, ?_⟩
  · rw [Rat.num_divInt, Int.sign_natCast_of_ne_zero hb.ne', one_mul, Int.gcd_comm]
  · rw [Rat.den_divInt, if_neg hne, Int.natAbs_natCast, Int.gcd_comm]

namespace Rational

theorem ofDecimal_literal {text : String} (h : DecimalLiteral text.toList negative n)
    (hplaces : n.fraction.length < 2 ^ 32) :
    ofDecimal text = .ok (Rat.divInt (Decimal.signedDigits negative n) (10 ^ n.fraction.length : ℕ)) := by
  rw [ofDecimal, Decimal.read?_literal h]
  simp only [Numeral.isScalable_iff.2 hplaces, if_true, Decimal.value_eq_divInt]

theorem ofDecimal_of_not_literal {text : String} (h : ∀ negative n, ¬ DecimalLiteral text.toList negative n) :
    ofDecimal text = .error (.malformed text) := by
  have hnone : Decimal.read? text.toList = none :=
    Option.eq_none_iff_forall_ne_some.2 fun d hd => h _ _ (Decimal.literal_of_read? hd)
  rw [ofDecimal, hnone]

/-- A text is read as a number just when it is a decimal literal, and the number is that of all its digits, divided by
ten for each digit behind the point. -/
theorem ofDecimal_eq_ok_iff (text : String)
    (hplaces : ∀ negative n, DecimalLiteral text.toList negative n → n.fraction.length < 2 ^ 32) (q : ℚ) :
    ofDecimal text = .ok q ↔ ∃ negative n, DecimalLiteral text.toList negative n ∧
      IsQuotient q (Decimal.signedDigits negative n) (10 ^ n.fraction.length) := by
  constructor
  · intro h
    by_cases hliteral : ∃ negative n, DecimalLiteral text.toList negative n
    · obtain ⟨negative, n, hliteral⟩ := hliteral
      rw [ofDecimal_literal hliteral (hplaces _ _ hliteral)] at h
      cases h
      exact ⟨negative, n, hliteral, isQuotient_divInt _ (Nat.pow_pos (by decide))⟩
    · simp only [not_exists] at hliteral
      rw [ofDecimal_of_not_literal hliteral] at h
      cases h
  · rintro ⟨negative, n, hliteral, hq⟩
    rw [ofDecimal_literal hliteral (hplaces _ _ hliteral), hq.eq, Rat.divInt_eq_div, Int.cast_natCast]

theorem ofDecimal_eq_ok_iff_signed :
    (∀ negative n, DecimalLiteral "\u2003-.250 ".toList negative n → n.fraction.length < 2 ^ 32) ∧
      ofDecimal "\u2003-.250 " = .ok (-1 / 4) ∧
      (∀ q, ofDecimal "\u2003-.250 " = .ok q ↔ ∃ negative n, DecimalLiteral "\u2003-.250 ".toList negative n ∧
        IsQuotient q (Decimal.signedDigits negative n) (10 ^ n.fraction.length)) := by
  have hread : Decimal.read? "\u2003-.250 ".toList = some ⟨true, ⟨[], ['2', '5', '0']⟩⟩ := by cbv
  have hplaces : ∀ negative n, DecimalLiteral "\u2003-.250 ".toList negative n → n.fraction.length < 2 ^ 32 := by
    intro negative n h
    cases hread.symm.trans (Decimal.read?_literal h)
    decide
  have hliteral := Decimal.literal_of_read? hread
  have hdigits : Decimal.signedDigits true ⟨[], ['2', '5', '0']⟩ = -250 := by cbv
  have hvalue : Rat.divInt (-250) (1000 : ℕ) = -1 / 4 := by norm_num [Rat.divInt_eq_div]
  have hquotient : IsQuotient (-1 / 4) (Decimal.signedDigits true ⟨[], ['2', '5', '0']⟩) (10 ^ 3) := by
    rw [hdigits, ← hvalue]
    exact isQuotient_divInt _ (by decide)
  exact ⟨hplaces, (ofDecimal_eq_ok_iff _ hplaces _).2 ⟨_, _, hliteral, hquotient⟩, ofDecimal_eq_ok_iff _ hplaces⟩

end Rational

/-! ## Numerals in expressions -/

theorem Numeral.IsWritten.decimalLiteral (hn : n.IsWritten) : DecimalLiteral n.text false n := by
  refine ⟨⟨[], [], n.text, [], by simp, by simp, .none, ?_⟩, hn.2, hn.1⟩
  obtain ⟨whole, fraction⟩ := n
  unfold Numeral.text
  split
  · rename_i hinteger
    obtain rfl : fraction = [] := List.isEmpty_iff.1 hinteger
    exact .whole
  · exact .pointed

/-- The value of a numeral in an expression is that of its text as a decimal literal, and it has none where the literal
is refused. -/
theorem Latex.parse_numeral_eq_ofDecimal (hn : n.IsWritten) (depth : ℕ) :
    parse (depth + 1) n.text =
      ((Rational.ofDecimal (String.ofList n.text)).map Expr.num).mapError fun _ => .unexpected 0 .number := by
  rw [parse_numeral hn, Rational.ofDecimal, String.toList_ofList, Decimal.read?_literal hn.decimalLiteral]
  simp only [Decimal.value, Decimal.signed]
  split <;> rfl

end ExactAlgebra
