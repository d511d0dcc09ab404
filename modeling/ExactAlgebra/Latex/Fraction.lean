import ExactAlgebra.Latex.Lexer

/-!
# Literal fractions

A literal fraction is a fraction command whose two arguments are integer literals.
-/

namespace ExactAlgebra.Latex

abbrev Tokens : Type := List (Placed Token)

/-- A fraction of integer literals, and the byte offset of its denominator. -/
structure LiteralFraction where
  numerator : Nat
  denominator : Nat
  position : Nat
  deriving DecidableEq

/-- Reads a literal fraction at the front of a token list. -/
def LiteralFraction.read? : (ts : Tokens) → Option (Reading LiteralFraction ts)
  | ⟨.frac, _⟩ :: ⟨.openBrace, _⟩ :: ⟨.number n, _⟩ :: ⟨.closeBrace, _⟩
      :: ⟨.openBrace, _⟩ :: ⟨.number d, position⟩ :: ⟨.closeBrace, _⟩ :: rest =>
      if n.isInteger && d.isInteger then
        some ⟨⟨n.digitsValue, d.digitsValue, position⟩, rest, by simp only [List.length_cons]; omega⟩
      else none
  | _ => none

/-- The literal fraction that a whole text is, if it is one. -/
def literalFraction? (text : List Char) : Option LiteralFraction :=
  match tokenize text with
  | .error _ => none
  | .ok ts =>
      match LiteralFraction.read? ts with
      | some r => if r.rest.isEmpty then some r.value else none
      | none => none

end ExactAlgebra.Latex
