import ExactAlgebra.Expr
import ExactAlgebra.Latex.Exponent
import ExactAlgebra.Rational.Decimal

/-!
# Expressions from tokens

An expression is a sum of terms, a term a product of signed powers, and a power an atom with an optional
exponent. Factors may stand next to each other. Parentheses, braces, roots, fraction arguments and signs nest,
and each nesting uses up one level of depth; the readers below take the readers of the next level as an
argument, and `nested` ties the knot by recursion on the depth that is left.
-/

namespace ExactAlgebra.Latex

/-- The readers that work one level deeper. -/
structure Deeper where
  expression : TokenReader Expr
  unary : TokenReader Expr
  exponent : TokenReader Int

/-! ## Atoms -/

/-- The sign and the numeral of an argument that is a numeral or its negative. -/
def signedLiteral? : Tokens → Option (Bool × Numeral)
  | [⟨.number n, _⟩] => some (false, n)
  | [⟨.minus, _⟩, ⟨.number n, _⟩] => some (true, n)
  | _ => none

/-- The expression for a fraction. A literal denominator has to be a positive integer, and an integer literal
over it makes a number. -/
def quotient (f : Frame) (numerator denominator : Frame.Argument Expr) : Except Error Expr :=
  match signedLiteral? denominator.tokens with
  | none => .ok (.binary .div numerator.value denominator.value)
  | some (negative, d) =>
      if negative || !d.isInteger || d.digitsValue == 0 then
        .error (.invalidDenominator (f.position denominator.tokens))
      else
        match signedLiteral? numerator.tokens with
        | some (sign, n) =>
            if n.isInteger then
              let value := mkRat n.digitsValue d.digitsValue
              .ok (.num (if sign then -value else value))
            else .ok (.binary .div numerator.value denominator.value)
        | none => .ok (.binary .div numerator.value denominator.value)

def fractionArguments (f : Frame) (deeper : Deeper) : TokenReader Expr := fun ts => do
  let numerator ← f.argument .numerator .numeratorEnd deeper.expression ts
  let denominator ← f.argument .denominator .denominatorEnd deeper.expression numerator.rest
  let value ← quotient f numerator.value denominator.value
  return (numerator.followedBy denominator).map fun _ => value

/-- Adds the literal fraction of a mixed number to its whole part. -/
def mixedNumber (whole : Rat) (part : LiteralFraction) : Except Error Rat :=
  if part.denominator = 0 then .error (.invalidDenominator part.position)
  else .ok (whole + mkRat part.numerator part.denominator)

/-- Reads what may follow a numeral: after an integer, a literal fraction makes a mixed number. -/
def afterNumeral (n : Numeral) : Continuation Error (Placed Token) Rat := fun whole ts =>
  if n.isInteger then
    (LiteralFraction.read? ts).map fun part =>
      (mixedNumber whole part.value).map fun value => part.map fun _ => value
  else none

/-- Reads a number, a variable, a bracketed expression, a fraction or a root. -/
def atom (f : Frame) (deeper : Deeper) : TokenReader Expr := fun ts =>
  match ts with
  | ⟨.number n, _⟩ :: rest =>
      if n.isScalable then do
        let number ← (Reading.first n.value rest).extendOnce (afterNumeral n)
        return number.map .num
      else .error (f.unexpected ts .number)
  | ⟨.letter name, _⟩ :: rest => .ok (.first (.var (String.singleton name)) rest)
  | ⟨.openParen, _⟩ :: rest => do
      let inside ← deeper.expression rest
      let closed ← f.expect .closeParen .closeParenthesis inside.rest
      return ((inside.followedBy closed).map fun _ => .group inside.value).preceded _
  | ⟨.openBrace, _⟩ :: rest => do
      let inside ← deeper.expression rest
      let closed ← f.expect .closeBrace .closeBrace inside.rest
      return ((inside.followedBy closed).map fun _ => inside.value).preceded _
  | ⟨.frac, _⟩ :: rest => (fractionArguments f deeper rest).map (·.preceded _)
  | ⟨.sqrt, _⟩ :: rest => do
      let radicand ← f.argument .radicand .radicandEnd deeper.expression rest
      return (radicand.map fun inside => .sqrt inside.value).preceded _
  | _ => .error (f.unexpected ts .operand)

/-! ## Powers, terms and sums -/

def power (f : Frame) (deeper : Deeper) : TokenReader Expr := fun ts => do
  let base ← atom f deeper ts
  base.extendOnce fun base us =>
    match us with
    | ⟨.caret, _⟩ :: vs =>
        some ((deeper.exponent vs).map fun r => (r.map (.power base)).preceded _)
    | _ => none

/-- Reads a power with any signs before it. -/
def unary (f : Frame) (deeper : Deeper) : TokenReader Expr
  | ⟨.minus, _⟩ :: rest => (deeper.unary rest).map fun r => (r.map .negate).preceded _
  | ⟨.plus, _⟩ :: rest => (deeper.unary rest).map fun r => r.preceded _
  | ts => power f deeper ts

/-- Whether a token begins a factor that needs no multiplication sign before it. -/
def Token.beginsFactor : Token → Bool
  | openParen | openBrace | frac | sqrt | letter _ => true
  | _ => false

/-- Reads one more factor or divisor of a term. -/
def factor (f : Frame) (deeper : Deeper) : Continuation Error (Placed Token) Expr := fun left ts =>
  match ts with
  | ⟨.times, _⟩ :: rest =>
      some ((unary f deeper rest).map fun r => (r.map (.binary .mul left)).preceded _)
  | ⟨.divide, _⟩ :: rest =>
      some ((unary f deeper rest).map fun r => (r.map (.binary .div left)).preceded _)
  | t :: rest =>
      if t.token.beginsFactor then
        some ((power f deeper (t :: rest)).map fun r => r.map (.binary .mul left))
      else none
  | [] => none

def term (f : Frame) (deeper : Deeper) : TokenReader Expr := fun ts => do
  let first ← unary f deeper ts
  first.extend (factor f deeper)

/-- Reads one more summand of a sum. -/
def summand (f : Frame) (deeper : Deeper) : Continuation Error (Placed Token) Expr := fun left ts =>
  match ts with
  | ⟨.plus, _⟩ :: rest =>
      some ((term f deeper rest).map fun r => (r.map (.binary .add left)).preceded _)
  | ⟨.minus, _⟩ :: rest =>
      some ((term f deeper rest).map fun r => (r.map (.binary .sub left)).preceded _)
  | _ => none

def sum (f : Frame) (deeper : Deeper) : TokenReader Expr := fun ts => do
  let first ← term f deeper ts
  first.extend (summand f deeper)

/-! ## Nesting -/

/-- The two kinds of expression that are read one level deeper. -/
inductive Nesting where
  | expression
  | unary

/-- Reads an expression that may nest `depth` levels, itself included. -/
def nested (f : Frame) : Nat → Nesting → TokenReader Expr
  | 0, _ => f.tooDeep
  | depth + 1, .expression => fun ts =>
      sum f ⟨nested f depth .expression, nested f depth .unary, exponent f depth⟩ ts
  | depth + 1, .unary => fun ts =>
      unary f ⟨nested f depth .expression, nested f depth .unary, exponent f depth⟩ ts

/-- What is missing where a token follows a finished expression. -/
def Token.missingBefore : Token → Expected
  | closeParen => .openParenthesis
  | closeBrace => .openBrace
  | _ => .operator

/-- The expression that a whole token list is. -/
def expressionOf (f : Frame) (ts : Tokens) : Except Error Expr := do
  let r ← nested f f.limit .expression ts
  match r.rest with
  | [] => return r.value
  | t :: rest => .error (f.unexpected (t :: rest) t.token.missingBefore)

/-- The expression that a text is, nested at most `limit` levels deep. -/
def parse (limit : Nat) (text : List Char) : Except Error Expr := do
  let ts ← tokenize text
  if ts.isEmpty then .error (.unexpected 0 .expression)
  else expressionOf ⟨limit, Text.byteLength text⟩ ts

end ExactAlgebra.Latex
