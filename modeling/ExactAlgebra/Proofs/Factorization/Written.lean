import ExactAlgebra.Proofs.Factorization
import ExactAlgebra.Proofs.Indices.Value
import ExactAlgebra.Transformation

/-!
# Written prime factors

Prime powers are written as a product of numbers with integer exponents, which is a chain of powers whose bases are
numbers. Its text is read as the product of these powers, and the value of the product is the number.
-/

namespace ExactAlgebra

open Indices Latex

/-- A product of primes and of powers of primes, and the primes in the order of the factors. -/
inductive PrimeProduct : Expr → List ℕ → Prop where
  | P_Prime {p : ℕ} : p.Prime → PrimeProduct (.num p) [p]
  | P_Power {p e : ℕ} : p.Prime → 1 < e → PrimeProduct (.power (.num p) e) [p]
  | P_Times {a b ps p} : PrimeProduct a ps → PrimeProduct b [p] → PrimeProduct (.binary .mul a b) (ps ++ [p])

/-- A pair of a prime and its multiplicity as a power in a chain. -/
def chainPower (f : UInt64 × ℕ) : Base × ℚ := (.integer f.1.toNat, f.2)

variable {f : UInt64 × ℕ} {fs : List (UInt64 × ℕ)}

/-! ## The text -/

theorem beginsWithDigit_natural (n : ℕ) (s : String) : beginsWithDigit (Markup.natural n ++ s) := by
  obtain ⟨a, as, has, ha⟩ := Markup.natural_begins n
  have htext : (Markup.natural n ++ s).toList = a :: (as ++ s.toList) := by
    rw [String.toList_append, has, List.cons_append]
  rwa [beginsWithDigit_cons htext]

/-- Factors that all begin with a digit are joined by multiplication signs. -/
theorem joinFactors_eq_intercalate {factors : List String} (h : ∀ s ∈ factors, beginsWithDigit s) :
    joinFactors factors = Markup.times.intercalate factors := by
  induction factors with
  | nil => exact String.intercalate_nil.symm
  | cons s factors ih =>
      have ⟨_, hfactors⟩ := List.forall_mem_cons.1 h
      cases factors with
      | nil => simp [joinFactors]
      | cons t factors =>
          have ht : laterFactor t = Markup.times ++ t := if_pos (hfactors t List.mem_cons_self)
          rw [String.intercalate_cons_cons, ← ih hfactors, joinFactors, joinFactors, List.map_cons, String.join_cons, ht,
            String.append_assoc, String.append_assoc]

theorem powerText_chainPower (f : UInt64 × ℕ) :
    powerText (chainPower f) =
      if f.2 = 1 then Markup.natural f.1.toNat
      else Markup.power (Markup.natural f.1.toNat) (Markup.natural f.2) := by
  have hexponent : Markup.rational f.2 = Markup.natural f.2 := by
    have hnonneg : ¬ (f.2 : ℤ) < 0 := by omega
    rw [Markup.rational, if_pos (Rat.den_natCast _), Markup.integer, Rat.num_natCast, if_neg hnonneg, Int.natAbs_natCast,
      String.empty_append]
  have hroot : ¬ ((f.2 : ℚ).num = 1 ∧ (f.2 : ℚ).den = 2) := by simp
  rw [powerText, chainPower, powerLatex, if_neg hroot, hexponent, Base.latex]
  simp only [Nat.cast_eq_one]

theorem primePowersLatex_eq (fs : List (UInt64 × ℕ)) :
    Transformation.primePowersLatex fs = joinFactors ((fs.map chainPower).map powerText) := by
  have hdigits : ∀ s ∈ (fs.map chainPower).map powerText, beginsWithDigit s := by
    intro s hs
    obtain ⟨f, -, rfl⟩ := List.mem_map.1 (List.map_map ▸ hs)
    rw [Function.comp_apply, powerText_chainPower]
    split
    · rw [← String.append_empty (s := Markup.natural _)]
      exact beginsWithDigit_natural _ _
    · rw [Markup.power, String.append_assoc]
      exact beginsWithDigit_natural _ _
  rw [joinFactors_eq_intercalate hdigits, List.map_map, Transformation.primePowersLatex]
  refine congrArg _ (List.map_congr_left fun f _ => ?_)
  exact (powerText_chainPower f).symm

/-! ## The expression -/

/-- The expression that prime powers are written as. -/
def factorsTree (fs : List (UInt64 × ℕ)) : Expr := productTree false (fs.map chainPower)

theorem powerTree_chainPower (f : UInt64 × ℕ) :
    powerTree (chainPower f) = if f.2 = 1 then .num f.1.toNat else .power (.num f.1.toNat) f.2 := by
  have hroot : ¬ ((f.2 : ℚ).num = 1 ∧ (f.2 : ℚ).den = 2) := by simp
  rw [powerTree, chainPower, if_neg hroot, Base.tree, Rat.num_natCast]
  simp only [Nat.cast_eq_one]

theorem primeProduct_powerTree (hprime : f.1.toNat.Prime) (hpositive : 0 < f.2) :
    PrimeProduct (powerTree (chainPower f)) [f.1.toNat] := by
  rw [powerTree_chainPower]
  split
  · exact .P_Prime hprime
  · exact .P_Power hprime (by omega)

theorem primeProduct_timesPowers {a : Expr} {ps : List ℕ} (ha : PrimeProduct a ps) (hprime : ∀ f ∈ fs, f.1.toNat.Prime)
    (hpositive : ∀ f ∈ fs, 0 < f.2) :
    PrimeProduct (timesPowers a (fs.map chainPower)) (ps ++ fs.map fun f => f.1.toNat) := by
  induction fs generalizing a ps with
  | nil => simpa [timesPowers] using ha
  | cons f fs ih =>
      obtain ⟨hf, hprime⟩ := List.forall_mem_cons.1 hprime
      obtain ⟨hf', hpositive⟩ := List.forall_mem_cons.1 hpositive
      have hnext := ih (.P_Times ha (primeProduct_powerTree hf hf')) hprime hpositive
      rwa [List.append_assoc] at hnext

theorem primeProduct_factorsTree (hne : fs ≠ []) (hprime : ∀ f ∈ fs, f.1.toNat.Prime)
    (hpositive : ∀ f ∈ fs, 0 < f.2) : PrimeProduct (factorsTree fs) (fs.map fun f => f.1.toNat) := by
  cases fs with
  | nil => exact absurd rfl hne
  | cons f fs =>
      obtain ⟨hf, hprime⟩ := List.forall_mem_cons.1 hprime
      obtain ⟨hf', hpositive⟩ := List.forall_mem_cons.1 hpositive
      exact primeProduct_timesPowers (primeProduct_powerTree hf hf') hprime hpositive

/-- Written prime powers are read back, however little nesting is allowed. -/
theorem parse_primePowersLatex {depth : ℕ} (hdepth : 0 < depth) (hne : fs ≠ []) (hprime : ∀ f ∈ fs, f.1.toNat.Prime)
    (hpositive : ∀ f ∈ fs, 0 < f.2) (hsmall : ∀ f ∈ fs, f.2 < 64) :
    Latex.parse depth (Transformation.primePowersLatex fs).toList = .ok (factorsTree fs) := by
  have hwritten : ∀ p ∈ fs.map chainPower, p.1.Written ∧ 0 < p.2 := by
    intro p hp
    obtain ⟨f, hf, rfl⟩ := List.mem_map.1 hp
    exact ⟨(hprime f hf).ne_zero, Nat.cast_pos.2 (hpositive f hf)⟩
  have hpowers : ∀ p ∈ fs.map chainPower, DerivesPower (depth - 1) p := by
    intro p hp
    obtain ⟨hp', hpos⟩ := hwritten p hp
    obtain ⟨f, hf, rfl⟩ := List.mem_map.1 hp
    have hmax : ((f.2 : ℚ).num).natAbs ≤ maxExponent := by
      have := hsmall f hf
      rw [Rat.num_natCast, Int.natAbs_natCast, maxExponent]
      omega
    exact ⟨hp', fun _ => derives_wholePower hp' hpos (Rat.den_natCast _) hmax⟩
  have hspells := spells_product hwritten endsNumeral_nil spells_nil
  rw [List.append_nil, List.append_nil, ← primePowersLatex_eq] at hspells
  have hderives := derives_unsignedProduct (by simpa using hne) hpowers not_beginsLiteralFraction_nil
  exact hspells.parse_eq_ok_iff.2 ⟨depth - 1, by omega, .sum_of_term hderives⟩

/-! ## The value -/

variable {ρ : String → ℚ}

theorem hasValue_powerTree_chainPower (f : UInt64 × ℕ) :
    (powerTree (chainPower f)).HasValue ρ (f.1.toNat ^ f.2 : ℕ) := by
  rw [powerTree_chainPower]
  split
  · rename_i hone
    rw [hone, pow_one]
    exact .V_Num
  · rw [Nat.cast_pow, ← zpow_natCast]
    exact .V_Power .V_Num fun hneg => absurd hneg (by omega)

theorem hasValue_timesPowers {a : Expr} {v : ℚ} (ha : a.HasValue ρ v) :
    (timesPowers a (fs.map chainPower)).HasValue ρ (v * factorsProduct fs) := by
  induction fs generalizing a v with
  | nil =>
      rw [factorsProduct_nil, Nat.cast_one, mul_one]
      exact ha
  | cons f fs ih =>
      rw [factorsProduct_cons, Nat.cast_mul, ← mul_assoc]
      exact ih (.V_Mul ha (hasValue_powerTree_chainPower f))

theorem hasValue_factorsTree (fs : List (UInt64 × ℕ)) : (factorsTree fs).HasValue ρ (factorsProduct fs) := by
  cases fs with
  | nil =>
      rw [factorsProduct_nil, Nat.cast_one]
      exact .V_Num
  | cons f fs =>
      rw [factorsProduct_cons, Nat.cast_mul]
      exact hasValue_timesPowers (hasValue_powerTree_chainPower f)

end ExactAlgebra
