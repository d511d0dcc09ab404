import ExactAlgebra.Polynomial.Term

/-!
# Polynomials

A polynomial is a list of terms. In canonical form no coefficient is zero and the monomials are strictly
ascending; all operations on polynomials answer in that form.
-/

namespace ExactAlgebra

structure Polynomial where
  terms : List Term
  deriving DecidableEq

/-- Puts a term before a list, adding it to the first term if the monomials are the same. -/
def Term.gather (t : Term) : List Term → List Term
  | [] => [t]
  | u :: us =>
      if t.monomial = u.monomial then ⟨t.coefficient + u.coefficient, t.monomial⟩ :: us
      else t :: u :: us

namespace Polynomial

/-- The polynomial that is the sum of the given terms: terms are sorted, neighbours with the same monomial are
added, and those with coefficient zero are left out. -/
def combine (terms : List Term) : Polynomial :=
  ⟨((terms.mergeSort Term.before).foldr Term.gather []).filter fun t => t.coefficient != 0⟩

/-- No coefficient is zero, and the monomials are strictly ascending. -/
def Canonical (p : Polynomial) : Prop :=
  (∀ t ∈ p.terms, t.coefficient ≠ 0) ∧
    p.terms.Pairwise fun a b => compare a.monomial b.monomial = .lt

instance (p : Polynomial) : Decidable p.Canonical := inferInstanceAs (Decidable (_ ∧ _))

def zero : Polynomial := ⟨[]⟩

def constant (value : Rat) : Polynomial := combine [.constant value]

def one : Polynomial := constant 1

def ofVariable (name : String) : Polynomial := combine [⟨1, .ofVariable name⟩]

/-- The value of a polynomial that has no variables. -/
def asConstant? (p : Polynomial) : Option Rat :=
  match p.terms with
  | [] => some 0
  | [t] => if t.isConstant then some t.coefficient else none
  | _ => none

def names (p : Polynomial) : List String :=
  distinctNames (p.terms.flatMap fun t => t.monomial.names)

/-- The largest degree of a term, zero where there is none. -/
def degree (p : Polynomial) : Nat := (p.terms.map fun t => t.monomial.degree).foldr max 0

def neg (p : Polynomial) : Polynomial := ⟨p.terms.map Term.neg⟩

def add (p q : Polynomial) : Polynomial := combine (p.terms ++ q.terms)

def sub (p q : Polynomial) : Polynomial := p.add q.neg

/-- The polynomial with every coefficient multiplied by a number. -/
def scale (p : Polynomial) (k : Rat) : Polynomial := combine (p.terms.map (Term.scale k))

end Polynomial

end ExactAlgebra
