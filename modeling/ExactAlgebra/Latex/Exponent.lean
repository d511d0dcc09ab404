import ExactAlgebra.Latex.Frame

/-!
# Exponents

An exponent is an integer literal, bare or in braces with an optional minus sign. A caret after it raises it
to a further exponent, so towers associate to the right. Every value on the way is a signed word of 64 bits.
-/

namespace ExactAlgebra.Latex

/-- The largest signed word of 64 bits. -/
def maxExponent : Nat := 9223372036854775807

/-- Whether an integer is a signed word of 64 bits. -/
def isWord64 (n : Int) : Bool := -9223372036854775808 ≤ n && n ≤ 9223372036854775807

/-- A power that is a signed word; a base beyond one with an exponent beyond 63 never gives one. -/
def wordPower? (base : Int) (exponent : Nat) : Option Int :=
  if 1 < base.natAbs ∧ 63 < exponent then none
  else
    let value := Int.pow base exponent
    if isWord64 value then some value else none

/-- Reads an integer literal inside the braces of an exponent. -/
def bracedExponent (f : Frame) (negative : Bool) : TokenReader (Bool × Nat) := fun ts =>
  match ts with
  | ⟨.number n, _⟩ :: rest =>
      if n.isInteger then do
        let closed ← f.expect .closeBrace .exponentEnd rest
        return (closed.map fun _ => (negative, n.digitsValue)).preceded ⟨.number n, _⟩
      else .error (f.unexpected ts .integerExponent)
  | _ => .error (f.unexpected ts .integerExponent)

/-- Reads the sign and the magnitude of an exponent. -/
def exponentDigits (f : Frame) : TokenReader (Bool × Nat) := fun ts =>
  match ts with
  | ⟨.openBrace, _⟩ :: ⟨.minus, _⟩ :: rest =>
      (bracedExponent f true rest).map fun r => (r.preceded _).preceded _
  | ⟨.openBrace, _⟩ :: rest => (bracedExponent f false rest).map (·.preceded _)
  | ⟨.number n, _⟩ :: rest =>
      if n.isInteger then .ok (.first (false, n.digitsValue) rest)
      else .error (f.unexpected ts .integerExponent)
  | _ => .error (f.unexpected ts .integerExponent)

/-- Reads an integer literal as an exponent. -/
def exponentLiteral (f : Frame) : TokenReader Int := fun ts => do
  let r ← exponentDigits f ts
  if r.value.2 ≤ maxExponent then
    return r.map fun literal => if literal.1 then -(literal.2 : Int) else literal.2
  else .error (.tooDeep f.limit)

/-- The value of an exponent that is itself raised to an upper one. -/
def raise (f : Frame) (start : Nat) (base upper : Int) : Except Error Int :=
  if 0 ≤ upper ∧ upper < 4294967296 then
    match wordPower? base upper.toNat with
    | some value => .ok value
    | none => .error (.tooDeep f.limit)
  else .error (.unexpected start .nonnegativeExponent)

/-- Reads an exponent, given what reads the exponent above it. -/
def exponentAbove (f : Frame) (upper : TokenReader Int) : TokenReader Int := fun ts => do
  let literal ← exponentLiteral f ts
  literal.extendOnce fun base us =>
    match us with
    | ⟨.caret, _⟩ :: vs => some do
        let above ← upper vs
        let value ← raise f (f.position ts) base above.value
        return (above.map fun _ => value).preceded _
    | _ => none

/-- Reads an exponent with at most `depth` further exponents above it. -/
def exponent (f : Frame) : Nat → TokenReader Int
  | 0 => exponentAbove f f.tooDeep
  | depth + 1 => exponentAbove f (exponent f depth)

end ExactAlgebra.Latex
