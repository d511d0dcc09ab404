import ExactAlgebra.Availability
import ExactAlgebra.Worked.Catalogue

/-!
# Workbench

A workbench holds the limits to work within and the archetypes for worked solutions. Everything that can be
asked about a written expression is asked of it.
-/

namespace ExactAlgebra

/-- Limits and archetypes. -/
structure Workbench where
  limits : Limits := {}
  catalogue : Worked.Catalogue := .builtIn

namespace Workbench

/-- The answer of the operation of a given name. -/
def apply (w : Workbench) (name text : String) : Except Error String :=
  applyOperation w.limits name text.toList

/-- Whether the operation of a given name is available for a text. -/
def isAvailable (w : Workbench) (name text : String) : Bool :=
  isOperationAvailable w.limits name text.toList

/-- The operations that are available for a text. -/
def available (w : Workbench) (text : String) : List Operation :=
  Operation.available w.limits text.toList

def report (w : Workbench) (text : String) : Profile.Report :=
  .ofText w.limits text.toList

def solve (w : Workbench) (text : String) : Except Error Worked.Solution :=
  w.catalogue.solve w.limits text.toList

/-- The workbench with one more archetype, which is tried after the others. -/
def register (w : Workbench) (a : Worked.Archetype) : Workbench :=
  { w with catalogue := w.catalogue.register a }

end Workbench

end ExactAlgebra
