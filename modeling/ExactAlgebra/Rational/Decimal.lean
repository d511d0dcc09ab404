import ExactAlgebra.Text.Blank
import ExactAlgebra.Text.Numeral
import ExactAlgebra.Text.Search

/-!
# Decimal literals

A decimal literal is an optional sign before ASCII digits with at most one point among, before or after them.
Blanks around it do not count.
-/

namespace ExactAlgebra

/-- A decimal literal, read. -/
structure Decimal where
  negative : Bool
  numeral : Numeral
  deriving DecidableEq

namespace Decimal

/-- Whether a text begins with a minus sign, and the text after its sign. -/
def splitSign : List Char → Bool × List Char
  | '-' :: body => (true, body)
  | '+' :: body => (false, body)
  | body => (false, body)

/-- The digits on the two sides of the first point; all of them are on the left where there is no point. -/
def splitPoint (body : List Char) : Numeral :=
  match Text.splitAtFirst '.' body with
  | some (whole, fraction) => ⟨whole, fraction⟩
  | none => ⟨body, []⟩

/-- The decimal literal that a text is, if it is one. -/
def read? (cs : List Char) : Option Decimal :=
  let (negative, body) := splitSign (Text.trim cs)
  let numeral := splitPoint body
  if numeral.whole.isEmpty && numeral.fraction.isEmpty then none
  else if (numeral.whole ++ numeral.fraction).all Char.isDigit then some ⟨negative, numeral⟩
  else none

/-- Puts the sign of the literal before a magnitude. -/
def signed (d : Decimal) (magnitude : Rat) : Rat := if d.negative then -magnitude else magnitude

def value (d : Decimal) : Rat := d.signed d.numeral.value

/-- Whether a text is a decimal literal that is written with a point. -/
def isPointed (cs : List Char) : Bool :=
  let (_, body) := splitSign (Text.trim cs)
  match Text.splitAtFirst '.' body with
  | some (whole, fraction) => whole.all Char.isDigit && fraction.all Char.isDigit && 1 < body.length
  | none => false

/-- The most digits that may stand after the point. -/
def maxPlaces : Nat := 4294967295

end Decimal

/-- Whether the digits after the point are few enough to divide by a power of ten. -/
def Numeral.isScalable (n : Numeral) : Bool := n.fraction.length ≤ Decimal.maxPlaces

theorem Numeral.isScalable_of_isInteger {n : Numeral} (h : n.isInteger) : n.isScalable := by
  simp [isScalable, List.isEmpty_iff.1 h]

end ExactAlgebra
