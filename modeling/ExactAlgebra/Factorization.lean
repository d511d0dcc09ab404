/-!
# Prime factors

Trial division of unsigned words of 64 bits.
-/

namespace ExactAlgebra

/-- How often `p` divides `n`, and what is left of `n` then; zero and divisors below two are left alone. -/
def divideOut (p n : UInt64) : Nat × UInt64 :=
  if _h : 1 < p ∧ 0 < n ∧ n % p = 0 then
    let (count, rest) := divideOut p (n / p)
    (count + 1, rest)
  else (0, n)
termination_by n.toNat
decreasing_by
  obtain ⟨hp, hn, -⟩ := _h
  rw [UInt64.toNat_div]
  exact Nat.div_lt_self (UInt64.lt_iff_toNat_lt.1 hn) (UInt64.lt_iff_toNat_lt.1 hp)

/-- The next number to try as a divisor: after two, only odd numbers. -/
def nextDivisor (p : UInt64) : UInt64 := if p = 2 then 3 else p + 2

/-- While a divisor is at most the quotient by it, the next divisor does not wrap around. -/
theorem lt_nextDivisor {p n : UInt64} (hp : 1 < p) (h : p ≤ n / p) :
    p.toNat < (nextDivisor p).toNat := by
  have hp' : 1 < p.toNat := UInt64.lt_iff_toNat_lt.1 hp
  have h' : p.toNat ≤ n.toNat / p.toNat := by
    rw [← UInt64.toNat_div]; exact UInt64.le_iff_toNat_le.1 h
  have hsq : p.toNat * p.toNat ≤ n.toNat := (Nat.le_div_iff_mul_le (by omega)).1 h'
  have hn := n.toNat_lt
  have hlt : p.toNat < 4294967296 := by
    rcases Nat.lt_or_ge p.toNat 4294967296 with h | h
    · exact h
    · have := Nat.mul_le_mul h h
      omega
  rw [nextDivisor]
  split
  · next h2 => subst h2; decide
  · rw [UInt64.toNat_add]
    simp only [UInt64.reduceToNat]
    omega

/-- The prime factors of `n` with their multiplicities, if no number below `p` but one divides `n`. -/
def factorsFrom (p n : UInt64) : List (UInt64 × Nat) :=
  if _h : 1 < p ∧ p ≤ n / p then
    if n % p = 0 then
      let (count, rest) := divideOut p n
      (p, count) :: factorsFrom (nextDivisor p) rest
    else factorsFrom (nextDivisor p) n
  else if 1 < n then [(n, 1)]
  else []
termination_by UInt64.size - p.toNat
decreasing_by
  all_goals
    have := lt_nextDivisor _h.1 _h.2
    have := (nextDivisor p).toNat_lt_size
    omega

/-- The prime factors of a number with their multiplicities, in ascending order; numbers below two have none. -/
def primeFactors (n : UInt64) : List (UInt64 × Nat) := factorsFrom 2 n

end ExactAlgebra
