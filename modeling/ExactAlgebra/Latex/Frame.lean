import ExactAlgebra.Latex.Fraction

/-!
# Reading tokens

What every reader of tokens knows, and the readers of single tokens and of braced arguments.
-/

namespace ExactAlgebra.Latex

abbrev TokenReader (α : Type) : Type := Reader Error (Placed Token) α

/-- What holds during one parse: the depth limit, and the byte length of the text. -/
structure Frame where
  limit : Nat
  stop : Nat

namespace Frame

/-- The byte offset of the next token, or the length of the text after the last one. -/
def position (f : Frame) : Tokens → Nat
  | [] => f.stop
  | t :: _ => t.offset

/-- The error of not finding something before the given tokens. -/
def unexpected (f : Frame) (ts : Tokens) (expected : Expected) : Error :=
  .unexpected (f.position ts) expected

/-- Reads nothing: the nesting is as deep as it may be. -/
def tooDeep {α : Type} (f : Frame) : TokenReader α := fun _ => .error (.tooDeep f.limit)

def expect (f : Frame) (token : Token) (expected : Expected) : TokenReader Unit
  | [] => .error (f.unexpected [] expected)
  | t :: ts =>
      if t.token = token then .ok (.first () ts)
      else .error (f.unexpected (t :: ts) expected)

/-- A value read between braces, and the tokens that it was read from. -/
structure Argument (α : Type) where
  value : α
  tokens : Tokens

/-- Reads a value between braces; the two expectations are for the opening and the closing brace. -/
def argument {α : Type} (f : Frame) (first last : Expected) (read : TokenReader α) :
    TokenReader (Argument α) := fun ts => do
  let opened ← f.expect .openBrace first ts
  let inside ← read opened.rest
  let closed ← f.expect .closeBrace last inside.rest
  return ((opened.followedBy inside).followedBy closed).map fun _ => ⟨inside.value, inside.taken⟩

end Frame

end ExactAlgebra.Latex
