import ExactAlgebra.Proofs.Latex.Grammar

/-!
# Literals in token lists

The readers of literals and literal fractions find exactly what the grammar calls so, and the word arithmetic of
exponents is that of the integers.
-/

namespace ExactAlgebra.Latex

variable {f : Frame} {ts : Tokens}

/-! ## Words -/

/-- The power of a base beyond one to an exponent beyond 63 is no signed word. -/
theorem not_isWord64_pow {base : Int} {n : Nat} (hbase : 1 < base.natAbs) (hn : 63 < n) :
    ¬ isWord64 (base ^ n) := by
  have hpow : 2 ^ 64 ≤ (base ^ n).natAbs := by
    calc 2 ^ 64
      _ ≤ 2 ^ n := Nat.pow_le_pow_right (by decide) hn
      _ ≤ base.natAbs ^ n := Nat.pow_le_pow_left hbase n
      _ = (base ^ n).natAbs := (Int.natAbs_pow base n).symm
  simp only [isWord64, Bool.and_eq_true, decide_eq_true_eq]
  omega

theorem wordPower?_eq_some_iff {base v : Int} {n : Nat} :
    wordPower? base n = some v ↔ isWord64 (base ^ n) ∧ v = base ^ n := by
  unfold wordPower?
  split
  · rename_i hlarge
    have hword : ¬ isWord64 (base ^ n) := not_isWord64_pow hlarge.1 hlarge.2
    simp [hword]
  · rw [show Int.pow base n = base ^ n from rfl]
    by_cases hword : isWord64 (base ^ n) <;> simp [hword, eq_comm]

theorem raise_eq_ok_iff {start : Nat} {base upper v : Int} :
    raise f start base upper = .ok v ↔
      (0 ≤ upper ∧ upper < 4294967296) ∧ isWord64 (base ^ upper.toNat) ∧ v = base ^ upper.toNat := by
  rw [← wordPower?_eq_some_iff, raise]
  split
  · rename_i hupper
    cases wordPower? base upper.toNat <;> simp [hupper]
  · rename_i hupper
    simp [hupper]

/-! ## Signed numerals -/

theorem signedLiteral?_eq_some_iff {s : Bool} {n : Numeral} :
    signedLiteral? ts = some (s, n) ↔ SignedNumeral (plain ts) s n := by
  constructor
  · intro h
    unfold signedLiteral? at h
    split at h
    · cases h
      exact .L_Plain
    · cases h
      exact .L_Negative
    · cases h
  · intro h
    generalize hts : plain ts = us at h
    cases h with
    | L_Plain =>
        obtain ⟨_, rest, rfl, hrest⟩ := plain_eq_cons hts
        obtain rfl := plain_eq_nil hrest
        rfl
    | L_Negative =>
        obtain ⟨_, us, rfl, hus⟩ := plain_eq_cons hts
        obtain ⟨_, rest, rfl, hrest⟩ := plain_eq_cons hus
        obtain rfl := plain_eq_nil hrest
        rfl

theorem signedLiteral?_eq_none_iff :
    signedLiteral? ts = none ↔ ∀ s n, ¬ SignedNumeral (plain ts) s n := by
  rw [Option.eq_none_iff_forall_not_mem]
  simp only [Option.mem_def, Prod.forall, signedLiteral?_eq_some_iff]

theorem SignedNumeral.unique {us : List Token} {s s' : Bool} {n n' : Numeral}
    (h : SignedNumeral us s n) (h' : SignedNumeral us s' n') : s = s' ∧ n = n' := by
  cases h <;> cases h' <;> exact ⟨rfl, rfl⟩

theorem SignedNumeral.eq_singleton {us : List Token} {n : Numeral} (h : SignedNumeral us false n) :
    us = [.number n] := by
  cases h
  rfl

/-- The test that a fraction puts to a literal denominator. -/
theorem not_badDenominator_iff {negative : Bool} {q : Numeral} :
    ¬ (negative || !q.isInteger || q.digitsValue == 0) ↔
      negative = false ∧ q.isInteger ∧ q.digitsValue ≠ 0 := by
  simp [and_assoc]

/-! ## Fractions -/

theorem quotient_sound {numerator denominator : Frame.Argument Expr} {e : Expr}
    (h : quotient f numerator denominator = .ok e) :
    FractionValue (plain numerator.tokens) numerator.value (plain denominator.tokens)
      denominator.value e := by
  unfold quotient at h
  split at h
  · rename_i hnone
    cases h
    exact .F_Quotient (signedLiteral?_eq_none_iff.1 hnone)
  · rename_i negative q hdenominator
    split at h
    · cases h
    · rename_i hgood
      obtain ⟨rfl, hinteger, hne⟩ := not_badDenominator_iff.1 hgood
      rw [(signedLiteral?_eq_some_iff.1 hdenominator).eq_singleton]
      split at h
      · rename_i s n hnumerator
        have hnumerator := signedLiteral?_eq_some_iff.1 hnumerator
        split at h
        · rename_i hn
          cases h
          exact .F_Number hnumerator hn hinteger hne
        · rename_i hn
          cases h
          exact .F_Denominator (fun s' n' h' => (hnumerator.unique h').2 ▸ hn) hinteger hne
      · rename_i hnumerator
        cases h
        exact .F_Denominator (fun s n h' => absurd h' (signedLiteral?_eq_none_iff.1 hnumerator s n))
          hinteger hne

theorem quotient_complete {numerator denominator : Frame.Argument Expr} {e : Expr}
    (h : FractionValue (plain numerator.tokens) numerator.value (plain denominator.tokens)
      denominator.value e) : quotient f numerator denominator = .ok e := by
  obtain ⟨a, nts⟩ := numerator
  obtain ⟨b, dts⟩ := denominator
  simp only at h
  generalize hds : plain dts = ds at h
  cases h with
  | F_Number hn hinteger hq hne =>
      have hdenominator := signedLiteral?_eq_some_iff.2 (hds ▸ SignedNumeral.L_Plain)
      simp [quotient, hdenominator, signedLiteral?_eq_some_iff.2 hn, hinteger, hq, hne]
  | F_Denominator hn hq hne =>
      have hdenominator := signedLiteral?_eq_some_iff.2 (hds ▸ SignedNumeral.L_Plain)
      simp only [quotient, hdenominator, if_neg (not_badDenominator_iff.2 ⟨rfl, hq, hne⟩)]
      split
      · rename_i s n hnumerator
        rw [if_neg (hn s n (signedLiteral?_eq_some_iff.1 hnumerator))]
      · rfl
  | F_Quotient hd =>
      have hdenominator := signedLiteral?_eq_none_iff.2 (hds ▸ hd)
      simp only [quotient, hdenominator]

theorem literalFraction_sound {r : Reading LiteralFraction ts} (h : LiteralFraction.read? ts = some r) :
    ∃ p q, p.isInteger ∧ q.isInteger ∧ plain ts = literalFraction p q ++ plain r.rest ∧
      r.value.numerator = p.digitsValue ∧ r.value.denominator = q.digitsValue := by
  unfold LiteralFraction.read? at h
  split at h
  · rename_i p _ _ _ q _ _ rest
    split at h
    · rename_i hinteger
      obtain ⟨hp, hq⟩ := Bool.and_eq_true_iff.1 hinteger
      cases h
      exact ⟨p, q, hp, hq, rfl, rfl, rfl⟩
    · cases h
  · cases h

theorem literalFraction_complete {p q : Numeral} {next : List Token} (hp : p.isInteger)
    (hq : q.isInteger) (h : plain ts = literalFraction p q ++ next) :
    ∃ r, LiteralFraction.read? ts = some r ∧ plain r.rest = next ∧
      r.value.numerator = p.digitsValue ∧ r.value.denominator = q.digitsValue := by
  obtain ⟨_, us₁, rfl, h₁⟩ := plain_eq_cons h
  obtain ⟨_, us₂, rfl, h₂⟩ := plain_eq_cons h₁
  obtain ⟨_, us₃, rfl, h₃⟩ := plain_eq_cons h₂
  obtain ⟨_, us₄, rfl, h₄⟩ := plain_eq_cons h₃
  obtain ⟨_, us₅, rfl, h₅⟩ := plain_eq_cons h₄
  obtain ⟨_, us₆, rfl, h₆⟩ := plain_eq_cons h₅
  obtain ⟨_, us₇, rfl, h₇⟩ := plain_eq_cons h₆
  simp only [LiteralFraction.read?, hp, hq, Bool.and_self, if_true]
  exact ⟨_, rfl, h₇, rfl, rfl⟩

end ExactAlgebra.Latex
