import ExactAlgebra.Proofs.Indices.Written
import ExactAlgebra.Proofs.Expr.Value
import ExactAlgebra.Proofs.Polynomial.Tree

/-!
# The expression that a chain is written as

The tokens of a chain derive a product or a quotient of products, where every exponent can be read back: it is the
exponent of a square root, or an integer that is not too large.
-/

namespace ExactAlgebra

theorem Expr.hasValue_signed_iff {e : Expr} {ρ : String → ℚ} {v : ℚ} (negative : Bool) :
    (e.signed negative).HasValue ρ v ↔ e.HasValue ρ (if negative then -v else v) := by
  cases negative with
  | false => exact Iff.rfl
  | true =>
      constructor
      · intro h
        cases h with
        | V_Negate h => simpa using h
      · intro h
        simpa [Expr.signed] using Expr.HasValue.V_Negate h

namespace Indices

open Latex

def Base.tree : Base → Expr
  | integer n => .num n
  | letter name => .var name

/-- The expression for a power with a positive exponent. -/
def powerTree (p : Base × Rat) : Expr :=
  if p.2 = 1 then p.1.tree
  else if p.2.num = 1 ∧ p.2.den = 2 then .sqrt p.1.tree
  else .power p.1.tree p.2.num

/-- The expression times further powers. -/
def timesPowers (e : Expr) (ps : List (Base × Rat)) : Expr :=
  ps.foldl (fun e p => .binary .mul e (powerTree p)) e

/-- The expression for a product, with a minus sign at its first factor if there is one. -/
def productTree (negative : Bool) : List (Base × Rat) → Expr
  | [] => .num 1
  | p :: ps => timesPowers ((powerTree p).signed negative) ps

/-- The expression for a chain without its sign. -/
def Chain.magnitudeTree (c : Chain) : Expr :=
  if c.denominator.isEmpty then productTree false c.numerator
  else .binary .div (productTree false c.numerator) (productTree false c.denominator)

/-- The expression for a chain. -/
def Chain.tree (c : Chain) : Expr :=
  if c.coefficient = 0 then .num 0 else c.magnitudeTree.signed (c.coefficient < 0)

/-- A written exponent is that of a square root, or an integer that is not too large. -/
def Readable (k : Rat) : Prop := k.num = 1 ∧ k.den = 2 ∨ k.den = 1 ∧ k.num.natAbs ≤ maxExponent

/-- All written exponents of the chain can be read. -/
def Chain.Readable (c : Chain) : Prop :=
  c.coefficient ≠ 0 →
    (∀ p ∈ c.numerator, Indices.Readable p.2) ∧ ∀ p ∈ c.denominator, Indices.Readable p.2

/-! ## Derivations -/

variable {d : Nat} {us next : List Token} {a e : Expr} {p : Base × Rat} {ps : List (Base × Rat)}

theorem Base.derives {b : Base} (hb : b.Written) (hnext : ¬ BeginsLiteralFraction next) :
    Derives d .atom b.tokens next b.tree := by
  cases b with
  | integer n =>
      have hnumeral := derives_numeral (d := d) (n := numeral n) rfl hnext
      rwa [value_numeral, Rat.mkRat_eq_div, Int.cast_natCast, Nat.cast_one, div_one] at hnumeral
  | letter name =>
      obtain ⟨a, -, rfl⟩ := hb
      rw [Base.tokens, String.toList_singleton]
      exact .A_Letter

/-- A written exponent that is an integer does not nest. -/
theorem derives_wholePower (hp : p.1.Written) (hpos : 0 < p.2) (hden : p.2.den = 1)
    (hmax : p.2.num.natAbs ≤ maxExponent) (hnext : ¬ BeginsLiteralFraction next) :
    Derives d .power (powerTokens p) next (powerTree p) := by
  have hroot : ¬ (p.2.num = 1 ∧ p.2.den = 2) := by omega
  unfold powerTokens powerTree
  rw [if_neg hroot, if_neg hroot]
  split
  · exact .P_Atom (Base.derives hp hnext)
  · have hexponent : Exponent d [.openBrace, .number (numeral p.2.num.natAbs), .closeBrace] p.2.num := by
      have hliteral := ExponentLiteral.X_Braced (n := numeral p.2.num.natAbs) rfl (by simpa using hmax)
      rw [digitsValue_numeral, Int.natAbs_of_nonneg (Rat.num_nonneg.2 hpos.le)] at hliteral
      exact .X_Literal hliteral
    rw [numberTokens, if_pos hden]
    exact .P_Raised (Base.derives hp (not_beginsLiteralFraction_cons nofun)) hexponent

theorem derives_indexPower (hp : p.1.Written) (hpos : 0 < p.2) (hread : Readable p.2)
    (hnext : ¬ BeginsLiteralFraction next) : Derives 1 .power (powerTokens p) next (powerTree p) := by
  rcases hread with hroot | ⟨hden, hmax⟩
  · have hone : p.2 ≠ 1 := by
      intro hone
      rw [hone] at hroot
      exact absurd hroot.2 (by decide)
    have hbase : Derives 0 .atom p.1.tokens (.closeBrace :: next) p.1.tree :=
      Base.derives hp (not_beginsLiteralFraction_cons nofun)
    rw [powerTokens, powerTree, if_neg hone, if_neg hone, if_pos hroot, if_pos hroot]
    exact .P_Atom (.A_Sqrt (.sum_of_atom hbase))
  · exact derives_wholePower hp hpos hden hmax hnext

theorem laterTokens_eq_cons (hp : p.1.Written) : ∃ t ts, laterTokens p = t :: ts ∧ t ≠ .frac := by
  obtain ⟨_, _, t, ts, _, hts, ht, _⟩ := powerText_begins hp
  unfold laterTokens
  split
  · exact ⟨_, _, rfl, nofun⟩
  · exact ⟨t, ts, hts, ht⟩

theorem not_beginsLiteralFraction_later (hps : ∀ p ∈ ps, p.1.Written) (hnext : ¬ BeginsLiteralFraction next) :
    ¬ BeginsLiteralFraction (ps.flatMap laterTokens ++ next) := by
  cases ps with
  | nil => exact hnext
  | cons p ps =>
      obtain ⟨t, ts, hts, ht⟩ := laterTokens_eq_cons (hps p List.mem_cons_self)
      rw [List.flatMap_cons, hts]
      exact not_beginsLiteralFraction_cons ht

theorem derives_laterPower (hp : p.1.Written) (hpower : Derives d .power (powerTokens p) (us ++ next) (powerTree p))
    (he : Derives d (.factors (.binary .mul a (powerTree p))) us next e) :
    Derives d (.factors a) (laterTokens p ++ us) next e := by
  obtain ⟨b, bs, t, ts, hbs, hts, _, hb⟩ := powerText_begins hp
  unfold laterTokens
  rw [beginsWithDigit_cons hbs]
  split
  · exact .T_Times (.U_Power hpower) he
  · rename_i hdigit
    rw [hts] at hpower ⊢
    exact .T_Beside (hb.resolve_left hdigit).2 hpower he

/-- The power is written, and its tokens derive it before anything but a literal fraction. -/
def DerivesPower (d : Nat) (p : Base × Rat) : Prop :=
  p.1.Written ∧ ∀ next, ¬ BeginsLiteralFraction next → Derives d .power (powerTokens p) next (powerTree p)

theorem derives_timesPowers (hps : ∀ p ∈ ps, DerivesPower d p) (hnext : ¬ BeginsLiteralFraction next) :
    Derives d (.factors a) (ps.flatMap laterTokens) next (timesPowers a ps) := by
  induction ps generalizing a with
  | nil => exact .T_End
  | cons p ps ih =>
      have ⟨⟨hp, hpower⟩, hps⟩ := List.forall_mem_cons.1 hps
      have hlater := not_beginsLiteralFraction_later (fun p hp => (hps p hp).1) hnext
      rw [List.flatMap_cons]
      exact derives_laterPower hp (hpower _ hlater) (ih hps)

theorem derives_product (negative : Bool) (hne : ps ≠ [])
    (hps : ∀ p ∈ ps, (p.1.Written ∧ 0 < p.2) ∧ Readable p.2) (hnext : ¬ BeginsLiteralFraction next) :
    Derives 2 .term ((if negative then [.minus] else []) ++ productTokens ps) next (productTree negative ps) := by
  have hpowers : ∀ p ∈ ps, DerivesPower 1 p := fun p hp =>
    ⟨(hps p hp).1.1, fun _ => derives_indexPower (hps p hp).1.1 (hps p hp).1.2 (hps p hp).2⟩
  cases ps with
  | nil => exact absurd rfl hne
  | cons p ps =>
      have ⟨⟨_, hpower⟩, hpowers⟩ := List.forall_mem_cons.1 hpowers
      have hlater := not_beginsLiteralFraction_later (fun p hp => (hpowers p hp).1) hnext
      rw [productTokens, ← List.append_assoc]
      exact .T_First (derives_signed (hpower _ hlater)) (.mono (derives_timesPowers hpowers hnext) (by decide))

/-- A product without a minus sign nests no deeper than its powers. -/
theorem derives_unsignedProduct (hne : ps ≠ []) (hps : ∀ p ∈ ps, DerivesPower d p)
    (hnext : ¬ BeginsLiteralFraction next) : Derives d .term (productTokens ps) next (productTree false ps) := by
  cases ps with
  | nil => exact absurd rfl hne
  | cons p ps =>
      have ⟨⟨_, hpower⟩, hps⟩ := List.forall_mem_cons.1 hps
      have hlater := not_beginsLiteralFraction_later (fun p hp => (hps p hp).1) hnext
      exact .T_First (.U_Power (hpower _ hlater)) (derives_timesPowers hps hnext)

/-! ## Signs -/

theorem timesPowers_concat : timesPowers a (ps ++ [p]) = .binary .mul (timesPowers a ps) (powerTree p) :=
  List.foldl_concat ..

theorem hasValue_timesPowers_negate {ρ : String → ℚ} {v : ℚ} :
    (timesPowers (.negate a) ps).HasValue ρ v ↔ (timesPowers a ps).HasValue ρ (-v) := by
  -- products associate to the left, so the last factor is at the root
  induction ps using List.reverseRecOn generalizing v with
  | nil => exact Expr.hasValue_signed_iff true
  | append_singleton ps p ih =>
      rw [timesPowers_concat, timesPowers_concat]
      constructor
      · intro h
        cases h with
        | V_Mul ha hp =>
            rw [← neg_mul]
            exact .V_Mul (ih.1 ha) hp
      · intro h
        rw [← neg_neg v]
        generalize -v = w at h
        cases h with
        | V_Mul ha hp =>
            rw [← neg_mul]
            exact .V_Mul (ih.2 (by rwa [neg_neg])) hp

/-- A minus sign at the first factor is as good as one before the product. -/
theorem hasValue_productTree_iff {ρ : String → ℚ} {v : ℚ} {negative : Bool} (hne : ps ≠ []) :
    (productTree negative ps).HasValue ρ v ↔ ((productTree false ps).signed negative).HasValue ρ v := by
  cases ps with
  | nil => exact absurd rfl hne
  | cons p ps =>
      cases negative with
      | false => exact Iff.rfl
      | true =>
          rw [Expr.hasValue_signed_iff]
          exact hasValue_timesPowers_negate

/-! ## Fractions -/

/-- A product that is written as a numeral is a number. -/
theorem eq_of_signedNumeral_product {s : Bool} {n : Numeral} (hps : ∀ p ∈ ps, p.1.Written)
    (h : SignedNumeral (productTokens ps) s n) :
    s = false ∧ ∃ m : ℕ, n = numeral m ∧ ps = [(.integer m, 1)] := by
  cases ps with
  | nil => cases h
  | cons p ps =>
      have ⟨hp, hps'⟩ := List.forall_mem_cons.1 hps
      obtain ⟨b, k⟩ := p
      have hlast : ps.flatMap laterTokens = [] → ps = [] := by
        cases ps with
        | nil => exact fun _ => rfl
        | cons q ps =>
            obtain ⟨t, ts, hts, -⟩ := laterTokens_eq_cons (hps' q List.mem_cons_self)
            rw [List.flatMap_cons, hts]
            nofun
      simp only [productTokens, powerTokens] at h
      cases b with
      | integer m =>
          split at h
          · rename_i hone
            rw [Base.tokens, List.singleton_append] at h
            generalize hlater : ps.flatMap laterTokens = later at h hlast
            cases h with
            | L_Plain => exact ⟨rfl, m, rfl, by rw [hone, hlast rfl]⟩
          · split at h <;> cases h
      | letter name =>
          obtain ⟨a, -, rfl⟩ := hp
          simp only [Base.tokens, String.toList_singleton, List.map_cons, List.map_nil] at h
          split at h
          · cases h
          · split at h <;> cases h

theorem hasValue_number (n : ℕ) {ρ : String → ℚ} : (productTree false [(.integer n, 1)]).HasValue ρ n := by
  simpa [productTree, timesPowers, powerTree, Expr.signed, Base.tree] using Expr.HasValue.V_Num

/-- The quotient of two written products is read as an expression with the same values. -/
theorem exists_fractionValue {ps qs : List (Base × Rat)} (hps : ∀ p ∈ ps, p.1.Written)
    (hqs : ∀ p ∈ qs, p.1.Written) :
    ∃ e, FractionValue (productTokens ps) (productTree false ps) (productTokens qs) (productTree false qs) e ∧
      ∀ ρ v, e.HasValue ρ v ↔ (Expr.binary .div (productTree false ps) (productTree false qs)).HasValue ρ v := by
  -- whether a fraction is a number is seen from its tokens, and only single numerals look like numerals
  by_cases hdenominator : ∃ s q, SignedNumeral (productTokens qs) s q
  · obtain ⟨s, q, hq⟩ := hdenominator
    obtain ⟨rfl, n, rfl, rfl⟩ := eq_of_signedNumeral_product hqs hq
    have hn : (numeral n).digitsValue ≠ 0 := by
      rw [digitsValue_numeral]
      exact hqs _ (List.mem_singleton_self _)
    by_cases hnumerator : ∃ s p, SignedNumeral (productTokens ps) s p
    · obtain ⟨s, p, hp⟩ := hnumerator
      obtain ⟨rfl, m, rfl, rfl⟩ := eq_of_signedNumeral_product hps hp
      refine ⟨_, .F_Number hp rfl rfl hn, fun ρ v => ?_⟩
      have hquotient : (Expr.num (mkRat m n)).HasValue ρ ((m : ℚ) / n) := by
        rw [Rat.mkRat_eq_div, Int.cast_natCast]
        exact .V_Num
      have hne : (n : ℚ) ≠ 0 := Nat.cast_ne_zero.2 (by simpa using hn)
      rw [digitsValue_numeral, digitsValue_numeral, if_neg Bool.false_ne_true, hquotient.iff_eq,
        (Expr.HasValue.V_Div (hasValue_number m) (hasValue_number n) hne).iff_eq]
    · push Not at hnumerator
      exact ⟨_, .F_Denominator (fun s p hp => absurd hp (hnumerator s p)) rfl hn, fun _ _ => Iff.rfl⟩
  · push Not at hdenominator
    exact ⟨_, .F_Quotient hdenominator, fun _ _ => Iff.rfl⟩

namespace Chain

variable {c : Chain}

theorem numerator_ne_nil : c.numerator ≠ [] := by
  unfold numerator
  split
  · exact nofun
  · rename_i h
    exact fun hnil => h (.inr (List.isEmpty_iff.2 hnil))

/-- The tokens of a chain derive an expression with the values of its tree. -/
theorem derives (hc : c.Lettered) (hread : c.Readable) :
    ∃ e, Derives 4 .sum c.tokens [] e ∧ ∀ ρ v, e.HasValue ρ v ↔ c.tree.HasValue ρ v := by
  have hnil := not_beginsLiteralFraction_nil
  unfold tokens tree
  split
  · have hzero := derives_numeral (d := 4) (n := numeral 0) rfl hnil
    rw [value_numeral] at hzero
    exact ⟨_, .sum_of_atom hzero, fun _ _ => Iff.rfl⟩
  · rename_i hne
    have hnumerator : ∀ p ∈ c.numerator, (p.1.Written ∧ 0 < p.2) ∧ Indices.Readable p.2 :=
      fun p hp => ⟨written_numerator hc hne p hp, (hread hne).1 p hp⟩
    have hdenominator : ∀ p ∈ c.denominator, (p.1.Written ∧ 0 < p.2) ∧ Indices.Readable p.2 :=
      fun p hp => ⟨written_denominator hc p hp, (hread hne).2 p hp⟩
    unfold magnitudeTree
    by_cases hempty : c.denominator.isEmpty
    · rw [if_pos hempty, if_pos hempty]
      have hproduct := derives_product (decide (c.coefficient < 0)) numerator_ne_nil hnumerator hnil
      simp only [decide_eq_true_eq] at hproduct
      exact ⟨_, .sum_of_term (hproduct.mono (by decide)), fun _ _ => hasValue_productTree_iff numerator_ne_nil⟩
    · rw [if_neg hempty, if_neg hempty]
      obtain ⟨e, hvalue, he⟩ := exists_fractionValue (fun p hp => (hnumerator p hp).1.1)
        fun p hp => (hdenominator p hp).1.1
      have hbrace {ts : List Token} : ¬ BeginsLiteralFraction (.closeBrace :: ts) :=
        not_beginsLiteralFraction_cons nofun
      have hfrac : Derives 3 .atom _ [] e :=
        .A_Frac (.sum_of_term (derives_product false numerator_ne_nil hnumerator hbrace))
          (.sum_of_term (derives_product false (by simpa using hempty) hdenominator hbrace)) hvalue
      have hsigned : Derives 4 .unary ((if decide (c.coefficient < 0) then [.minus] else []) ++ _) [] _ :=
        derives_signed (.P_Atom hfrac)
      simp only [decide_eq_true_eq] at hsigned
      refine ⟨_, .sum_of_term (.term_of_unary hsigned), fun ρ v => ?_⟩
      rw [Expr.hasValue_signed_iff, Expr.hasValue_signed_iff, he]

end Chain

end Indices

end ExactAlgebra
