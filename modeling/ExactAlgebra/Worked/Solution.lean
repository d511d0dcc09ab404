import ExactAlgebra.Error
import ExactAlgebra.Limits

/-!
# Worked solutions

A worked solution explains an answer step by step. An archetype is a kind of problem with such an explanation.
-/

namespace ExactAlgebra.Worked

/-- One step: what is done, in words and in LaTeX, and what comes out of it. -/
structure Step where
  description : String
  operation : String
  result : Option String
  deriving DecidableEq

/-- The steps that solve a problem of some archetype. -/
structure Solution where
  archetype : String
  steps : List Step
  finalAnswer : Option String
  deriving DecidableEq

/-- A kind of problem: which texts are of that kind, and how they are solved. -/
structure Archetype where
  name : String
  accepts : List Char → Bool
  solve : Limits → List Char → Except Error Solution

end ExactAlgebra.Worked
