import ExactAlgebra.Error
import ExactAlgebra.Scan
import ExactAlgebra.Text.Numeral

/-!
# Tokens of plain arithmetic

Literals are whole numbers, fractions written with a tight slash, and mixed numbers with blanks between the
whole and the fraction. A slash that does not stand between two digits is a division sign.
-/

namespace ExactAlgebra.Arithmetic

/-- A token of a calculation. -/
inductive Token where
  | literal (value : Rat)
  | plus
  | minus
  | times
  | divide
  | openParen
  | closeParen
  deriving DecidableEq

/-- A number as it is written. -/
inductive Literal where
  | whole (n : Nat)
  | fraction (numerator denominator : Nat)
  | mixed (whole numerator denominator : Nat)

/-- The value of a literal; a denominator may not be zero. -/
def Literal.value : Literal → Except Error Rat
  | whole n => .ok n
  | fraction n d => if d = 0 then .error .invalidDenominator else .ok (mkRat n d)
  | mixed w n d => if d = 0 then .error .invalidDenominator else .ok (w + mkRat n d)

/-- Reads digits, a slash and digits. -/
def fraction? (cs : List Char) : Option (Reading (Nat × Nat) cs) := do
  let numerator ← Text.digits? cs
  match h : numerator.rest with
  | '/' :: tail =>
      let denominator ← Text.digits? tail
      return ⟨(Text.natural numerator.value, Text.natural denominator.value), denominator.rest, by
        have h₁ := denominator.shorter
        have h₂ := numerator.shorter
        rw [h, List.length_cons] at h₂
        omega⟩
  | _ => none

/-- Reads digits, spaces or tabs, and a fraction. -/
def mixed? (cs : List Char) : Option (Reading Literal cs) := do
  let whole ← Text.digits? cs
  let gap ← run? (fun c => c == ' ' || c == '\t') whole.rest
  let part ← fraction? gap.rest
  return ((whole.followedBy gap).followedBy part).map fun _ =>
    .mixed (Text.natural whole.value) part.value.1 part.value.2

/-- Reads the longest literal. -/
def literal? (cs : List Char) : Option (Reading Literal cs) :=
  match mixed? cs with
  | some r => some r
  | none =>
      match fraction? cs with
      | some r => some (r.map fun p => .fraction p.1 p.2)
      | none => (Text.digits? cs).map fun r => r.map fun digits => .whole (Text.natural digits)

/-- Reads a sign, which may be written as a command. -/
def sign? : (cs : List Char) → Option (Reading Token cs)
  | '\\' :: 't' :: 'i' :: 'm' :: 'e' :: 's' :: cs =>
      some ⟨.times, cs, by simp only [List.length_cons]; omega⟩
  | '\\' :: 'c' :: 'd' :: 'o' :: 't' :: cs =>
      some ⟨.times, cs, by simp only [List.length_cons]; omega⟩
  | '\\' :: 'd' :: 'i' :: 'v' :: cs =>
      some ⟨.divide, cs, by simp only [List.length_cons]; omega⟩
  | c :: cs =>
      let token? : Option Token :=
        match c with
        | '+' => some .plus
        | '-' | '−' => some .minus
        | '×' | '*' | '·' => some .times
        | '÷' | '/' => some .divide
        | '(' => some .openParen
        | ')' => some .closeParen
        | _ => none
      token?.map fun token => .first token cs
  | [] => none

def lexeme (offset : Nat) : Reader Error Char (Option Token) := fun cs =>
  match literal? cs with
  | some r => r.value.value.map fun value => r.map fun _ => some (.literal value)
  | none =>
      match sign? cs with
      | some r => .ok (r.map some)
      | none => .error (.unexpected offset .arithmeticLexeme)

/-- The tokens of a text with their byte offsets. -/
def tokenize (text : List Char) : Except Error (List (Placed Token)) := scan lexeme 0 text

/-- Whether a text consists of numbers and signs of arithmetic. -/
def isCalculation (text : List Char) : Bool :=
  match tokenize text with
  | .ok ts => !ts.isEmpty
  | .error _ => false

end ExactAlgebra.Arithmetic
