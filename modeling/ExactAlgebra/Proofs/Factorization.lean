import ExactAlgebra.Factorization
import ExactAlgebra.Polynomial.Product
import Mathlib

/-!
# Trial division

The loop of trial division, one turn after the other, as it runs on words of 64 bits: the square of the divisor is
kept within a word, and every next divisor has to be a word again. It comes to its end for every number, and what it has
found then are the primes of the number with their multiplicities.
-/

namespace ExactAlgebra

/-! ## The loop -/

/-- Dividing `n` by `p` as long as it leaves no remainder takes `count` divisions and ends with `rest`. -/
inductive DividesOut (p : UInt64) : UInt64 → ℕ → UInt64 → Prop where
  | D_Stop {n} : n % p ≠ 0 → DividesOut p n 0 n
  | D_Divide {n count rest} : n % p = 0 → DividesOut p (n / p) count rest → DividesOut p n (count + 1) rest

/-- Trial division of `n` that has come to the divisor `p` ends, and finds the factors `fs` before it does. A turn of
the loop needs a next divisor that does not wrap around. -/
inductive TrialDivision : UInt64 → UInt64 → List (UInt64 × ℕ) → Prop where
  | T_Stop {p n} : n.toNat < saturate (p.toNat * p.toNat) → TrialDivision p n (if 1 < n then [(n, 1)] else [])
  | T_Turn {p n count rest fs} : saturate (p.toNat * p.toNat) ≤ n.toNat → DividesOut p n count rest →
      p.toNat + (if p = 2 then 1 else 2) < UInt64.size → TrialDivision (p + if p = 2 then 1 else 2) rest fs →
      TrialDivision p n (if 0 < count then (p, count) :: fs else fs)

theorem DividesOut.unique {p n rest rest' : UInt64} {count count' : ℕ} (h : DividesOut p n count rest)
    (h' : DividesOut p n count' rest') : count = count' ∧ rest = rest' := by
  induction h generalizing count' with
  | D_Stop hne =>
      cases h' with
      | D_Stop => exact ⟨rfl, rfl⟩
      | D_Divide hzero => exact absurd hzero hne
  | D_Divide hzero _ ih =>
      cases h' with
      | D_Stop hne => exact absurd hzero hne
      | D_Divide _ h' =>
          obtain ⟨rfl, rfl⟩ := ih h'
          exact ⟨rfl, rfl⟩

/-- The loop ends in one way only. -/
theorem TrialDivision.unique {p n : UInt64} {fs fs' : List (UInt64 × ℕ)} (h : TrialDivision p n fs)
    (h' : TrialDivision p n fs') : fs = fs' := by
  induction h generalizing fs' with
  | T_Stop hstop =>
      cases h' with
      | T_Stop => rfl
      | T_Turn hturn => exact absurd hstop (Nat.not_lt.2 hturn)
  | T_Turn hturn hdivides _ _ ih =>
      cases h' with
      | T_Stop hstop => exact absurd hstop (Nat.not_lt.2 hturn)
      | T_Turn _ hdivides' _ h' =>
          obtain ⟨rfl, rfl⟩ := hdivides.unique hdivides'
          rw [ih h']

/-! ## Dividing out one factor -/

variable {p n rest : UInt64} {count : ℕ} {fs : List (UInt64 × ℕ)}

theorem mod_eq_zero_iff_dvd : n % p = 0 ↔ p.toNat ∣ n.toNat := by
  rw [← UInt64.toNat_inj, UInt64.toNat_mod, UInt64.toNat_zero, Nat.dvd_iff_mod_eq_zero]

namespace DividesOut

theorem pow_mul_rest (h : DividesOut p n count rest) : p.toNat ^ count * rest.toNat = n.toNat := by
  induction h with
  | D_Stop => rw [pow_zero, one_mul]
  | D_Divide hzero _ ih =>
      rw [pow_succ', mul_assoc, ih, UInt64.toNat_div, Nat.mul_div_cancel' (mod_eq_zero_iff_dvd.1 hzero)]

theorem not_dvd_rest (h : DividesOut p n count rest) : ¬ p.toNat ∣ rest.toNat := by
  induction h with
  | D_Stop hne => exact mt mod_eq_zero_iff_dvd.2 hne
  | D_Divide _ _ ih => exact ih

theorem rest_dvd (h : DividesOut p n count rest) : rest.toNat ∣ n.toNat := by
  rw [← h.pow_mul_rest]
  exact Nat.dvd_mul_left _ _

/-- Something is divided out just when the divisor leaves no remainder. -/
theorem count_pos_iff (h : DividesOut p n count rest) : 0 < count ↔ p.toNat ∣ n.toNat := by
  rw [Nat.pos_iff_ne_zero]
  constructor
  · intro hcount
    rw [← h.pow_mul_rest]
    exact Dvd.dvd.mul_right (dvd_pow_self _ hcount) _
  · rintro hdvd rfl
    have hrest := h.pow_mul_rest
    rw [pow_zero, one_mul] at hrest
    rw [← hrest] at hdvd
    exact h.not_dvd_rest hdvd

end DividesOut

/-- Dividing out comes to an end. -/
theorem dividesOut_divideOut (hp : 1 < p.toNat) (hn : 0 < n.toNat) :
    DividesOut p n (divideOut p n).1 (divideOut p n).2 := by
  fun_induction divideOut p n with
  | case1 n h count rest hrest ih =>
      have hquotient : 0 < (n / p).toNat := by
        rw [UInt64.toNat_div]
        exact Nat.div_pos (Nat.le_of_dvd hn (mod_eq_zero_iff_dvd.1 h.2.2)) (by omega)
      rw [hrest] at ih
      exact .D_Divide h.2.2 (ih hquotient)
  | case2 n h =>
      exact .D_Stop fun hzero => h ⟨UInt64.lt_iff_toNat_lt.2 hp, UInt64.lt_iff_toNat_lt.2 hn, hzero⟩

/-! ## What is known when a divisor is tried -/

theorem le_div_iff_square (hp : 1 < p.toNat) : p ≤ n / p ↔ p.toNat * p.toNat ≤ n.toNat := by
  rw [UInt64.le_iff_toNat_le, UInt64.toNat_div, Nat.le_div_iff_mul_le (by omega)]

/-- A divisor whose square is a word leaves room for the next one. -/
theorem nextDivisor_of_square (h : p.toNat * p.toNat ≤ n.toNat) :
    nextDivisor p = (p + if p = 2 then 1 else 2) ∧ p.toNat + (if p = 2 then 1 else 2) < UInt64.size ∧
      (nextDivisor p).toNat = p.toNat + if p = 2 then 1 else 2 := by
  have hn := n.toNat_lt
  have hlt : p.toNat < 4294967296 := by
    by_contra hge
    have hsquare := Nat.mul_le_mul (Nat.not_lt.1 hge) (Nat.not_lt.1 hge)
    omega
  unfold nextDivisor
  split
  · rename_i htwo
    subst htwo
    decide
  · refine ⟨rfl, by simp only [UInt64.size]; omega, ?_⟩
    rw [UInt64.toNat_add]
    simp only [UInt64.reduceToNat]
    omega

/-- The divisor `p` is two or odd, and no prime below it divides `n`. -/
structure Sieved (p n : UInt64) : Prop where
  one_lt : 1 < p.toNat
  two_or_odd : p = 2 ∨ p.toNat % 2 = 1
  le_prime : ∀ q, q.Prime → q ∣ n.toNat → p.toNat ≤ q

theorem sieved_two (n : UInt64) : Sieved 2 n where
  one_lt := by decide
  two_or_odd := .inl rfl
  le_prime _ hq _ := hq.two_le

namespace Sieved

/-- The square that is kept within a word decides as the square does: the largest word is divisible by three, so a
divisor that has passed three is not tried on it. -/
theorem saturate_le_iff (h : Sieved p n) :
    saturate (p.toNat * p.toNat) ≤ n.toNat ↔ p.toNat * p.toNat ≤ n.toNat := by
  have hn := n.toNat_lt
  simp only [saturate, UInt64.size]
  constructor
  · intro hle
    by_contra hlt
    have hmax : n.toNat = 18446744073709551615 := by omega
    have hthree := h.le_prime 3 Nat.prime_three (by rw [hmax]; decide)
    have hsquare := Nat.mul_le_mul hthree hthree
    omega
  · intro hle
    omega

/-- A divisor that leaves no remainder is a prime. -/
theorem prime (h : Sieved p n) (hdvd : p.toNat ∣ n.toNat) : p.toNat.Prime := by
  have hone := h.one_lt
  have hleast := h.le_prime _ (Nat.minFac_prime (by omega)) ((Nat.minFac_dvd _).trans hdvd)
  exact Nat.prime_def_minFac.2 ⟨hone, le_antisymm (Nat.minFac_le (by omega)) hleast⟩

/-- What is left when the square of the divisor is too large is a prime or one. -/
theorem prime_rest (h : Sieved p n) (hstop : n.toNat < p.toNat * p.toNat) (hn : 1 < n.toNat) : n.toNat.Prime := by
  by_contra hprime
  have hleast := h.le_prime _ (Nat.minFac_prime (by omega)) (Nat.minFac_dvd _)
  have hsquare := Nat.mul_le_mul hleast hleast
  have hminFac := Nat.minFac_sq_le_self (by omega) hprime
  rw [pow_two] at hminFac
  omega

/-- A turn keeps the invariant: what is left is not divisible by `p`, and an even divisor but two is not a prime. -/
theorem next (h : Sieved p n) (hsquare : p.toNat * p.toNat ≤ n.toNat) (hdivides : DividesOut p n count rest) :
    Sieved (nextDivisor p) rest := by
  have hone := h.one_lt
  obtain ⟨-, -, hnext⟩ := nextDivisor_of_square hsquare
  have hodd : (nextDivisor p).toNat % 2 = 1 := by
    rw [hnext]
    rcases h.two_or_odd with rfl | hodd
    · rfl
    · have htwo : p ≠ 2 := by
        rintro rfl
        cases hodd
      rw [if_neg htwo]
      omega
  refine ⟨by rw [hnext]; omega, .inr hodd, fun q hq hdvd => ?_⟩
  have hle := h.le_prime q hq (hdvd.trans hdivides.rest_dvd)
  have hne : p.toNat ≠ q := by
    rintro rfl
    exact hdivides.not_dvd_rest hdvd
  rw [hnext]
  split
  · omega
  · rename_i htwo
    have hpodd := h.two_or_odd.resolve_left htwo
    have hqodd := hq.eq_two_or_odd
    omega

end Sieved

/-! ## The factors -/

/-- The pairs are primes not below `p` with positive multiplicities, in ascending order. -/
structure PrimePowers (p : ℕ) (fs : List (UInt64 × ℕ)) : Prop where
  ascending : fs.Pairwise fun f g => f.1 < g.1
  prime : ∀ f ∈ fs, f.1.toNat.Prime
  positive : ∀ f ∈ fs, 0 < f.2
  least : ∀ f ∈ fs, p ≤ f.1.toNat

theorem primePowers_nil (p : ℕ) : PrimePowers p [] := ⟨.nil, nofun, nofun, nofun⟩

theorem PrimePowers.mono {q r : ℕ} (h : PrimePowers r fs) (hle : q ≤ r) : PrimePowers q fs :=
  ⟨h.ascending, h.prime, h.positive, fun f hf => hle.trans (h.least f hf)⟩

theorem PrimePowers.cons {q : ℕ} (hprime : p.toNat.Prime) (hcount : 0 < count) (hlt : p.toNat < q)
    (h : PrimePowers q fs) : PrimePowers p.toNat ((p, count) :: fs) where
  ascending := List.pairwise_cons.2 ⟨fun f hf => UInt64.lt_iff_toNat_lt.2 (hlt.trans_le (h.least f hf)), h.ascending⟩
  prime := List.forall_mem_cons.2 ⟨hprime, h.prime⟩
  positive := List.forall_mem_cons.2 ⟨hcount, h.positive⟩
  least := List.forall_mem_cons.2 ⟨le_rfl, fun f hf => hlt.le.trans (h.least f hf)⟩

/-- The number that prime powers stand for. -/
def factorsProduct (fs : List (UInt64 × ℕ)) : ℕ := (fs.map fun f => f.1.toNat ^ f.2).prod

@[simp] theorem factorsProduct_nil : factorsProduct [] = 1 := rfl

@[simp] theorem factorsProduct_cons (f : UInt64 × ℕ) (fs : List (UInt64 × ℕ)) :
    factorsProduct (f :: fs) = f.1.toNat ^ f.2 * factorsProduct fs := List.prod_cons

namespace TrialDivision

/-- What trial division finds are primes in ascending order. -/
theorem primePowers (h : TrialDivision p n fs) (hsieved : Sieved p n) : PrimePowers p.toNat fs := by
  induction h with
  | @T_Stop p n hstop =>
      split
      · rename_i hn
        have hn := UInt64.lt_iff_toNat_lt.1 hn
        have hprime := hsieved.prime_rest (hstop.trans_le (min_le_left _ _)) hn
        have hleast := hsieved.le_prime _ hprime (dvd_refl _)
        exact ⟨List.pairwise_singleton _ _, by simpa using hprime, by simp, by simpa using hleast⟩
      · exact primePowers_nil _
  | @T_Turn p n count rest fs hturn hdivides _ _ ih =>
      have hsquare := hsieved.saturate_le_iff.1 hturn
      obtain ⟨hnext, -, hlt⟩ := nextDivisor_of_square hsquare
      rw [← hnext] at ih
      have hrest := ih (hsieved.next hsquare hdivides)
      have hless : p.toNat < (nextDivisor p).toNat := by
        rw [hlt]
        split <;> omega
      split
      · rename_i hcount
        exact .cons (hsieved.prime (hdivides.count_pos_iff.1 hcount)) hcount hless hrest
      · exact hrest.mono hless.le

/-- The product of what trial division finds is the number. -/
theorem factorsProduct_eq (h : TrialDivision p n fs) (hn : 0 < n.toNat) : factorsProduct fs = n.toNat := by
  induction h with
  | @T_Stop p n =>
      split
      · simp
      · rename_i hone
        have hle := UInt64.le_iff_toNat_le.1 (UInt64.not_lt.1 hone)
        simp only [UInt64.reduceToNat] at hle
        rw [factorsProduct_nil]
        omega
  | @T_Turn p n count rest fs _ hdivides _ _ ih =>
      have hproduct := hdivides.pow_mul_rest
      have hrest := ih (Nat.pos_of_dvd_of_pos hdivides.rest_dvd hn)
      split
      · rw [factorsProduct_cons, hrest, hproduct]
      · rename_i hcount
        rw [hrest, ← hproduct, Nat.eq_zero_of_not_pos hcount, pow_zero, one_mul]

end TrialDivision

/-- When the divisor is above the quotient by it, the loop stops. -/
theorem Sieved.stop (h : Sieved p n) (hstop : ¬ (1 < p ∧ p ≤ n / p)) : n.toNat < saturate (p.toNat * p.toNat) := by
  rw [← Nat.not_le, h.saturate_le_iff, ← le_div_iff_square h.one_lt]
  exact fun hle => hstop ⟨UInt64.lt_iff_toNat_lt.2 h.one_lt, hle⟩

/-- The loop comes to its end, with what the recursion over the divisors finds. -/
theorem trialDivision_factorsFrom (h : Sieved p n) : TrialDivision p n (factorsFrom p n) := by
  fun_induction factorsFrom p n with
  | case1 p n hturn hzero count rest hrest ih =>
      have hsquare := (le_div_iff_square h.one_lt).1 hturn.2
      have hdivides := dividesOut_divideOut h.one_lt (Nat.lt_of_lt_of_le (Nat.mul_pos h.one_lt.le h.one_lt.le) hsquare)
      rw [hrest] at hdivides
      obtain ⟨hnext, hroom, -⟩ := nextDivisor_of_square hsquare
      have hcount := hdivides.count_pos_iff.2 (mod_eq_zero_iff_dvd.1 hzero)
      have hloop := ih (h.next hsquare hdivides)
      rw [hnext] at hloop ⊢
      have hstep := TrialDivision.T_Turn (h.saturate_le_iff.2 hsquare) hdivides hroom hloop
      rwa [if_pos hcount] at hstep
  | case2 p n hturn hne ih =>
      have hsquare := (le_div_iff_square h.one_lt).1 hturn.2
      obtain ⟨hnext, hroom, -⟩ := nextDivisor_of_square hsquare
      have hdivides := DividesOut.D_Stop hne
      have hloop := ih (h.next hsquare hdivides)
      rw [hnext] at hloop ⊢
      exact .T_Turn (h.saturate_le_iff.2 hsquare) hdivides hroom hloop
  | case3 p n hstop hn =>
      have hend := TrialDivision.T_Stop (h.stop hstop)
      rwa [if_pos hn] at hend
  | case4 p n hstop hn =>
      have hend := TrialDivision.T_Stop (h.stop hstop)
      rwa [if_neg hn] at hend

theorem primeFactors_of_lt_two (hn : n.toNat < 2) : primeFactors n = [] := by
  have hstop : ¬ ((1 : UInt64) < 2 ∧ 2 ≤ n / 2) := by
    rw [le_div_iff_square (by decide)]
    simp only [UInt64.reduceToNat]
    omega
  have hone : ¬ 1 < n := by
    rw [UInt64.lt_iff_toNat_lt]
    simp only [UInt64.reduceToNat]
    omega
  rw [primeFactors, factorsFrom, dif_neg hstop, if_neg hone]

/-- A power of a prime that divides a word has a small exponent. -/
theorem multiplicity_lt {f : UInt64 × ℕ} (hprime : f.1.toNat.Prime) (hn : 0 < n.toNat)
    (hdvd : f.1.toNat ^ f.2 ∣ n.toNat) : f.2 < 64 := by
  have hpower : 2 ^ f.2 < 2 ^ 64 := calc
    2 ^ f.2 ≤ f.1.toNat ^ f.2 := Nat.pow_le_pow_left hprime.two_le _
    _ ≤ n.toNat := Nat.le_of_dvd hn hdvd
    _ < 2 ^ 64 := n.toNat_lt
  exact (Nat.pow_lt_pow_iff_right (by decide)).1 hpower

/-- What the recursion over the divisors finds: all of it is prime, and its product is the number. -/
theorem primePowers_primeFactors (n : UInt64) : PrimePowers 2 (primeFactors n) :=
  (trialDivision_factorsFrom (sieved_two n)).primePowers (sieved_two n)

theorem factorsProduct_primeFactors (hn : 0 < n.toNat) : factorsProduct (primeFactors n) = n.toNat :=
  (trialDivision_factorsFrom (sieved_two n)).factorsProduct_eq hn

theorem multiplicity_primeFactors_lt : ∀ f ∈ primeFactors n, f.2 < 64 := by
  intro f hf
  have hn : 0 < n.toNat := by
    by_contra hzero
    rw [primeFactors_of_lt_two (by omega)] at hf
    cases hf
  refine multiplicity_lt ((primePowers_primeFactors n).prime f hf) hn ?_
  rw [← factorsProduct_primeFactors hn]
  exact List.dvd_prod (List.mem_map_of_mem hf)

/-- For every number the loop ends, without a divisor that wraps around, and in one way only. It has found the primes
of the number then, in strictly ascending order and with positive multiplicities. Numbers below two have none. -/
theorem trialDivision_iff_eq_primeFactors (n : UInt64) :
    (∀ fs, TrialDivision 2 n fs ↔ fs = primeFactors n) ∧
      (primeFactors n).Pairwise (fun f g => f.1 < g.1) ∧
      (∀ f ∈ primeFactors n, f.1.toNat.Prime ∧ 1 ≤ f.2 ∧ f.2 < 64) ∧
      (1 ≤ n → ((primeFactors n).map fun f => f.1.toNat ^ f.2).prod = n.toNat) ∧
      (n < 2 → primeFactors n = []) := by
  have hloop : TrialDivision 2 n (primeFactors n) := trialDivision_factorsFrom (sieved_two n)
  have hprimes := primePowers_primeFactors n
  refine ⟨fun fs => ⟨fun h => h.unique hloop, ?loop⟩, hprimes.ascending, fun f hf => ?prime, fun hn => ?product,
    fun hn => ?none⟩
  case loop =>
    rintro rfl
    exact hloop
  case prime => exact ⟨hprimes.prime f hf, hprimes.positive f hf, multiplicity_primeFactors_lt f hf⟩
  case product => exact factorsProduct_primeFactors (UInt64.le_iff_toNat_le.1 hn)
  case none => exact primeFactors_of_lt_two (UInt64.lt_iff_toNat_lt.1 hn)

example : primeFactors 360 = [(2, 3), (3, 2), (5, 1)] := by cbv

end ExactAlgebra
