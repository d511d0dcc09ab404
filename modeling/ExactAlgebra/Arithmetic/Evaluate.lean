import ExactAlgebra.Arithmetic.Lexer
import ExactAlgebra.Limits

/-!
# Evaluating plain arithmetic

A calculation is evaluated while it is read: sums of products of signed atoms, where a parenthesis may follow
a factor without a multiplication sign.
-/

namespace ExactAlgebra.Arithmetic

/-- The tokens of a calculation. -/
abbrev Tokens : Type := List (Placed Token)

/-- A reader of values. -/
abbrev ValueReader : Type := Reader Error (Placed Token) Rat

/-- The error of not finding something before the given tokens, in a text that ends at `stop`. -/
def unexpected (stop : Nat) (ts : Tokens) (expected : Expected) : Error :=
  match ts with
  | [] => .unexpected stop expected
  | t :: _ => .unexpected t.offset expected

/-- The readers that work one level deeper. -/
structure Deeper where
  sum : ValueReader
  unary : ValueReader

/-- Reads a literal or a sum in parentheses. -/
def atom (stop : Nat) (deeper : Deeper) : ValueReader := fun ts =>
  match ts with
  | ⟨.literal value, _⟩ :: rest => .ok (.first value rest)
  | ⟨.openParen, _⟩ :: rest => do
      let inside ← deeper.sum rest
      match h : inside.rest with
      | ⟨.closeParen, _⟩ :: after =>
          return ⟨inside.value, after, by
            have := inside.shorter
            rw [h] at this
            simp only [List.length_cons] at this ⊢
            omega⟩
      | _ => .error (unexpected stop inside.rest .closeParenthesis)
  | _ => .error (unexpected stop ts .arithmeticOperand)

/-- Reads an atom with any signs before it. -/
def unary (stop : Nat) (deeper : Deeper) : ValueReader
  | ⟨.minus, _⟩ :: rest => (deeper.unary rest).map fun r => (r.map (- ·)).preceded _
  | ⟨.plus, _⟩ :: rest => (deeper.unary rest).map fun r => r.preceded _
  | ts => atom stop deeper ts

/-- Reads one more factor or divisor of a product. -/
def factor (stop : Nat) (deeper : Deeper) : Continuation Error (Placed Token) Rat := fun left ts =>
  match ts with
  | ⟨.times, _⟩ :: rest =>
      some ((unary stop deeper rest).map fun r => (r.map (left * ·)).preceded _)
  | ⟨.divide, _⟩ :: rest => some do
      let r ← unary stop deeper rest
      let value ← (Rational.divide left r.value).mapError .ofRational
      return (r.map fun _ => value).preceded _
  | ⟨.openParen, offset⟩ :: rest =>
      some ((atom stop deeper (⟨.openParen, offset⟩ :: rest)).map fun r => r.map (left * ·))
  | _ => none

/-- Reads a product or quotient. -/
def product (stop : Nat) (deeper : Deeper) : ValueReader := fun ts => do
  let first ← unary stop deeper ts
  first.extend (factor stop deeper)

/-- Reads one more summand of a sum. -/
def summand (stop : Nat) (deeper : Deeper) : Continuation Error (Placed Token) Rat := fun left ts =>
  match ts with
  | ⟨.plus, _⟩ :: rest =>
      some ((product stop deeper rest).map fun r => (r.map (left + ·)).preceded _)
  | ⟨.minus, _⟩ :: rest =>
      some ((product stop deeper rest).map fun r => (r.map (left - ·)).preceded _)
  | _ => none

/-- Reads a sum or difference. -/
def sum (stop : Nat) (deeper : Deeper) : ValueReader := fun ts => do
  let first ← product stop deeper ts
  first.extend (summand stop deeper)

/-- The two kinds of calculation that are read one level deeper. -/
inductive Nesting where
  | sum
  | unary

/-- Reads a calculation that may nest `depth` levels, itself included; `limit` is the whole depth. -/
def nested (limit stop : Nat) : Nat → Nesting → ValueReader
  | 0, _ => fun _ => .error (.tooComplex (.depth limit))
  | depth + 1, .sum => fun ts =>
      sum stop ⟨nested limit stop depth .sum, nested limit stop depth .unary⟩ ts
  | depth + 1, .unary => fun ts =>
      unary stop ⟨nested limit stop depth .sum, nested limit stop depth .unary⟩ ts

/-- The value of a whole token list. -/
def valueOf (limit stop : Nat) (ts : Tokens) : Except Error Rat := do
  let r ← sum stop ⟨nested limit stop limit .sum, nested limit stop limit .unary⟩ ts
  if r.rest.isEmpty then return r.value else .error (unexpected stop r.rest .operator)

/-- The value of a calculation. -/
def evaluate (limits : Limits) (text : List Char) : Except Error Rat := do
  let ts ← tokenize text
  if ts.isEmpty then .error (.unexpected 0 .expression)
  else valueOf limits.maxDepth.toNat (Text.byteLength text) ts

end ExactAlgebra.Arithmetic
