import ExactAlgebra.Expr
import ExactAlgebra.Markup
import ExactAlgebra.Polynomial.Basic
import ExactAlgebra.Text.Search

/-!
# The shape of an expression

Questions about an expression that its tree, its terms or its text answer without transforming it.
-/

namespace ExactAlgebra.Profile

/-- What an expression amounts to. -/
inductive Kind where
  | constant
  /-- A constant written with fractions, decimals or division. -/
  | numerical
  | monomial
  | polynomial
  /-- Not an expression, or not one with a polynomial. -/
  | unknown
  deriving DecidableEq

def Kind.name : Kind → String
  | constant => "constant"
  | numerical => "numerical"
  | monomial => "monomial"
  | polynomial => "polynomial"
  | unknown => "unknown"

/-- Whether a node is a division or a number that is no integer. -/
def isFractional : Expr → Bool
  | .binary .div _ _ => true
  | .num value => value.den != 1
  | _ => false

/-- Whether an expression is written with a fraction, a decimal point or a division. -/
def writtenAsFraction (text : List Char) (e : Expr) : Bool :=
  Text.occurs "\\frac".toList text || text.contains '.' || e.any isFractional

/-- The kind of an expression with its text, its tree and its polynomial. -/
def classify (text : List Char) (e : Expr) (p : Polynomial) : Kind :=
  if !p.names.isEmpty then
    if p.terms.length = 1 then .monomial else .polynomial
  else if writtenAsFraction text e || p.asConstant?.any (fun c => c.den != 1) then .numerical
  else .constant

/-- Whether two of the terms have the same monomial. -/
def hasLikeTerms (terms : List Term) : Bool := !decide (terms.map Term.monomial).Nodup

/-- Whether a node keeps an expression from being a chain of powers. -/
def breaksChain (rootsAllowed : Bool) : Expr → Bool
  | .binary .add _ _ => true
  | .binary .sub _ _ => true
  | .sqrt _ => !rootsAllowed
  | _ => false

/-- Whether a node is a power or a root. -/
def isIndexed : Expr → Bool
  | .power _ _ => true
  | .sqrt _ => true
  | _ => false

/-- Whether an expression is a product or quotient with some power in it. Roots are powers where they are
allowed. -/
def isIndexChain (rootsAllowed : Bool) (e : Expr) : Bool :=
  !e.any (breaksChain rootsAllowed) && e.any isIndexed

/-- The bases that a chain of powers keeps apart, each as often as it occurs: variables and whole numbers above
one. -/
def baseOccurrences : Expr → List String
  | .num value => if value.den == 1 && 1 < value.num then [Markup.rational value] else []
  | .var name => [name]
  | .binary _ left right => baseOccurrences left ++ baseOccurrences right
  | .power base _ => baseOccurrences base
  | .negate inner => baseOccurrences inner
  | .group inner => baseOccurrences inner
  | .sqrt inner => baseOccurrences inner

/-- The different bases of a chain of powers in ascending order. -/
def indexBases (e : Expr) : List String := distinctNames (baseOccurrences e)

end ExactAlgebra.Profile
