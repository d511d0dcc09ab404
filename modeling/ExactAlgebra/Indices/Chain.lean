import ExactAlgebra.Tally

/-!
# Chains of powers

A chain is a number times a product of powers of different bases. Exponents are rational, so roots are powers
too. A base keeps its place in the chain even where its exponent has become zero.
-/

namespace ExactAlgebra.Indices

/-- The base of a power: a whole number or a variable. -/
inductive Base where
  | integer (value : Nat)
  | letter (name : String)
  deriving DecidableEq

namespace Base

/-- Numbers come before variables. -/
instance : Ord Base where
  compare
    | integer m, integer n => compare m n
    | integer _, letter _ => .lt
    | letter _, integer _ => .gt
    | letter x, letter y => compare x y

end Base

/-- A number times powers of bases. -/
structure Chain where
  coefficient : Rat
  powers : Tally Base Rat
  deriving DecidableEq

namespace Chain

def ofNumber (value : Rat) : Chain := ⟨value, []⟩

def ofPower (base : Base) (exponent : Rat) : Chain := ⟨1, [(base, exponent)]⟩

def mul (a b : Chain) : Chain := ⟨a.coefficient * b.coefficient, Tally.addAll b.powers a.powers⟩

def bases (c : Chain) : List Base := c.powers.keys

end Chain

end ExactAlgebra.Indices
