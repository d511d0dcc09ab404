import ExactAlgebra.Tally

/-!
# Monomials

A monomial is a product of powers of different variables. Exponents are positive words of 32 bits, and the
variables stand in ascending order, so equal products are equal monomials.
-/

namespace ExactAlgebra

/-- Exponents of variables stay below this bound, which is two to the power 32. -/
def exponentBound : Nat := 4294967296

/-- A product of powers of variables. -/
structure Monomial where
  factors : Tally String Nat
  ascending : factors.Ascending
  positive : ∀ f ∈ factors, 0 < f.2
  bounded : ∀ f ∈ factors, f.2 < exponentBound

namespace Monomial

@[ext] theorem ext {a b : Monomial} (h : a.factors = b.factors) : a = b := by
  cases a; cases b; cases h; rfl

instance : DecidableEq Monomial := fun a b =>
  if h : a.factors = b.factors then isTrue (ext h) else isFalse fun hab => h (hab ▸ rfl)

def one : Monomial := ⟨[], .nil, nofun, nofun⟩

def ofVariable (name : String) : Monomial :=
  ⟨[(name, 1)], List.pairwise_singleton _ _, by simp, by simp [exponentBound]⟩

/-- The product of the given powers. Zero exponents are dropped, and a sum of exponents for one variable
stops at the largest exponent. -/
def ofPowers (powers : List (String × Nat)) : Monomial :=
  let positive := powers.filter fun f => 0 < f.2
  let sums := Tally.addAll positive []
  ⟨sums.mapAmounts (min (exponentBound - 1)), (Tally.Ascending.addAll .nil positive).mapAmounts _,
    by
      have hpositive : ∀ f ∈ positive, 0 < f.2 := by simp [positive]
      have h := Tally.forall_amount_addAll (p := (0 < ·)) (t := ([] : Tally String Nat))
        (fun v w _ _ => by omega) hpositive nofun
      intro f hf
      obtain ⟨g, hg, rfl⟩ := List.mem_map.1 hf
      have := h g hg
      simp only [exponentBound]
      omega,
    by
      intro f hf
      obtain ⟨g, _, rfl⟩ := List.mem_map.1 hf
      simp only [exponentBound]
      omega⟩

def isConstant (m : Monomial) : Bool := m.factors.isEmpty

def names (m : Monomial) : List String := m.factors.keys

def degree (m : Monomial) : Nat := m.factors.foldr (fun f total => f.2 + total) 0

/-- The exponent of a variable, zero where it does not occur. -/
def exponent (m : Monomial) (name : String) : Nat := (m.factors.lookup name).getD 0

/-- The product, unless an exponent grows too large. -/
def mul? (a b : Monomial) : Option Monomial :=
  let factors := Tally.addAll b.factors a.factors
  if h : ∀ f ∈ factors, f.2 < exponentBound then
    some ⟨factors, a.ascending.addAll b.factors,
      Tally.forall_amount_addAll (fun v w _ _ => by omega) b.positive a.positive, h⟩
  else none

/-! ## Order -/

/-- Compares two lists of powers: at the first difference the earlier variable comes first, and for the same
variable the higher exponent; a list comes before its extensions. -/
def compareFactors : List (String × Nat) → List (String × Nat) → Ordering
  | [], [] => .eq
  | [], _ :: _ => .lt
  | _ :: _, [] => .gt
  | (x, m) :: fs, (y, n) :: gs =>
      (compare x y).then ((compare n m).then (compareFactors fs gs))

/-- Higher degrees come first; equal degrees are decided by the powers. -/
instance : Ord Monomial where
  compare a b := (compare b.degree a.degree).then (compareFactors a.factors b.factors)

end Monomial

end ExactAlgebra
