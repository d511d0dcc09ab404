import ExactAlgebra.Monomial

/-!
# Terms

A term is a rational multiple of a monomial.
-/

namespace ExactAlgebra

/-- A coefficient with a monomial. -/
structure Term where
  coefficient : Rat
  monomial : Monomial
  deriving DecidableEq

namespace Term

def constant (value : Rat) : Term := ⟨value, .one⟩

def isConstant (t : Term) : Bool := t.monomial.isConstant

def neg (t : Term) : Term := ⟨-t.coefficient, t.monomial⟩

/-- The term with its coefficient multiplied by a number. -/
def scale (k : Rat) (t : Term) : Term := ⟨t.coefficient * k, t.monomial⟩

/-- The product, unless an exponent grows too large. -/
def mul? (a b : Term) : Option Term :=
  (a.monomial.mul? b.monomial).map fun monomial => ⟨a.coefficient * b.coefficient, monomial⟩

/-- Whether the monomial of the first term does not come after that of the second. -/
def before (a b : Term) : Bool := (compare a.monomial b.monomial).isLE

end Term

end ExactAlgebra
