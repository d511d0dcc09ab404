import ExactAlgebra.Latex.Error
import ExactAlgebra.Latex.Token
import ExactAlgebra.Scan

/-!
# Tokens from text

Lexemes are numerals, signs, single letters and a few commands. Spacing commands and the sizing commands
before brackets carry no token.
-/

namespace ExactAlgebra.Latex

/-- Whether a character after a backslash makes a spacing command. -/
def isSpacing (c : Char) : Bool :=
  c == ',' || c == ';' || c == ':' || c == '!' || c == ' '

/-- The token of a command, `none` inside for a command without one; no result for other names. -/
def commandToken? (name : List Char) : Option (Option Token) :=
  match String.ofList name with
  | "frac" | "dfrac" | "tfrac" => some (some .frac)
  | "sqrt" => some (some .sqrt)
  | "times" | "cdot" => some (some .times)
  | "div" => some (some .divide)
  | "left" | "right" => some none
  | _ => none

/-- The token of a sign or a letter. -/
def characterToken? (c : Char) : Option Token :=
  match c with
  | '+' => some .plus
  | '-' | '−' => some .minus
  | '*' | '×' => some .times
  | '/' | '÷' => some .divide
  | '^' => some .caret
  | '\x7b' => some .openBrace
  | '\x7d' => some .closeBrace
  | '(' => some .openParen
  | ')' => some .closeParen
  | c => if c.isAlpha then some (.letter c) else none

/-- Reads what a backslash begins: a spacing command, or the longest run of letters as a name. -/
def command (offset : Nat) : Reader Error Char (Option Token)
  | [] => .error (.unexpected offset .lexeme)
  | c :: cs =>
      if isSpacing c then .ok (.first none cs)
      else
        match run? Char.isAlpha (c :: cs) with
        | none => .error (.unexpected offset .lexeme)
        | some name =>
            match commandToken? name.value with
            | none => .error (.unexpected offset .command)
            | some token => .ok (name.map fun _ => token)

def lexeme (offset : Nat) : Reader Error Char (Option Token)
  | [] => .error (.unexpected offset .lexeme)
  | '\\' :: cs => (command offset cs).map (·.preceded '\\')
  | c :: cs =>
      match Numeral.read? (c :: cs) with
      | some numeral => .ok (numeral.map fun n => some (.number n))
      | none =>
          match characterToken? c with
          | some token => .ok (.first (some token) cs)
          | none => .error (.unexpected offset .lexeme)

/-- The tokens of a text with their byte offsets. -/
def tokenize (text : List Char) : Except Error (List (Placed Token)) := scan lexeme 0 text

end ExactAlgebra.Latex
