/-!
# LaTeX markup

The written forms of the constructs that answers are made of.
-/

namespace ExactAlgebra.Markup

/-- A text in braces. -/
def braced (body : String) : String := "\x7b" ++ body ++ "\x7d"

/-- A fraction with the given numerator and denominator. -/
def fraction (numerator denominator : String) : String :=
  "\\frac" ++ braced numerator ++ braced denominator

/-- A power with its exponent in braces. -/
def power (base exponent : String) : String := base ++ "^" ++ braced exponent

/-- A square root. -/
def root (radicand : String) : String := "\\sqrt" ++ braced radicand

/-- The multiplication sign between two factors that would otherwise run together. -/
def times : String := "\\times"

/-- A natural number in decimal digits. -/
def natural (n : Nat) : String := Nat.repr n

/-- An integer in decimal digits, with a minus sign when it is negative. -/
def integer (n : Int) : String := (if n < 0 then "-" else "") ++ natural n.natAbs

/-- A rational number: an integer, or a fraction in lowest terms with the sign in front. -/
def rational (q : Rat) : String :=
  if q.den = 1 then integer q.num
  else (if q < 0 then "-" else "") ++ fraction (natural q.num.natAbs) (natural q.den)

end ExactAlgebra.Markup
