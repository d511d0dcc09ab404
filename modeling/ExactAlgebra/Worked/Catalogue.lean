import ExactAlgebra.Worked.FractionReduction

/-!
# Catalogues of archetypes

A catalogue lists archetypes; of those that accept a text, the one listed first solves it.
-/

namespace ExactAlgebra.Worked

/-- Archetypes in order of precedence. -/
structure Catalogue where
  archetypes : List Archetype

namespace Catalogue

def empty : Catalogue := ⟨[]⟩

/-- The catalogue with one more archetype at its end. -/
def register (c : Catalogue) (a : Archetype) : Catalogue := ⟨c.archetypes ++ [a]⟩

/-- The archetypes that are always there. -/
def builtIn : Catalogue := empty.register fractionReduction

def names (c : Catalogue) : List String := c.archetypes.map Archetype.name

/-- The first archetype that accepts a text. -/
def recognize? (c : Catalogue) (text : List Char) : Option Archetype :=
  c.archetypes.find? fun a => a.accepts text

/-- The solution by the first archetype that accepts a text. -/
def solve (c : Catalogue) (limits : Limits) (text : List Char) : Except Error Solution :=
  match c.recognize? text with
  | some a => a.solve limits text
  | none => .error .unrecognizedProblem

end Catalogue

end ExactAlgebra.Worked
