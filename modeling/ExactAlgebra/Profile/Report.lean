import ExactAlgebra.Profile.Fractions
import ExactAlgebra.Profile.Parentheses
import ExactAlgebra.Profile.Shape
import ExactAlgebra.Transformation

/-!
# Reports

A report says what kind of expression a text is and what stands in it. There is one for every text: where the
text has no polynomial, the report holds the error.
-/

namespace ExactAlgebra

namespace Profile

/-- What is known about the variables of an expression: whether there are any, how many, and which. -/
structure Variables where
  present : Bool
  count : Nat
  names : List String

/-- The variables with the given names, each of which may be given more than once. -/
def Variables.ofNames (names : List String) : Variables :=
  let different := distinctNames names
  ⟨!different.isEmpty, different.length, different⟩

/-- What is known about an expression. -/
structure Report where
  kind : Kind
  likeTerms : Bool
  fractions : Fractions
  parentheses : Parentheses
  hasRoot : Bool
  hasPi : Bool
  vars : Variables
  error : Option Error

namespace Report

/-- The names of the variables that the report lists. -/
def names (r : Report) : List String := r.vars.names

/-- The report on what the text alone shows. -/
def textual (limits : Limits) (text : List Char) : Report where
  kind := .unknown
  likeTerms := false
  fractions := .ofText limits.maxDepth.toNat text
  parentheses := .ofText text
  hasRoot := Text.occurs "\\sqrt".toList text || text.contains '√'
  hasPi := Text.occurs "\\pi".toList text || text.contains 'π'
  vars := .ofNames []
  error := none

/-- Whether like terms stand in the outermost sum of an expression. -/
def likeTermsIn (limits : Limits) (e : Expr) : Bool :=
  match e.rawTerms limits with
  | .ok terms => hasLikeTerms terms
  | .error _ => false

def ofText (limits : Limits) (text : List Char) : Report :=
  let report := textual limits text
  match Expr.ofText limits text with
  | .error e => { report with error := some e }
  | .ok tree =>
      let report := { report with likeTerms := likeTermsIn limits tree }
      match tree.expand limits with
      | .error e => { report with vars := .ofNames tree.names, error := some e }
      | .ok p => { report with kind := classify text tree p, vars := .ofNames p.names }

end Report

end Profile

end ExactAlgebra
