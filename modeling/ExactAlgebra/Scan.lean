import ExactAlgebra.Reading
import ExactAlgebra.Text.Blank
import ExactAlgebra.Text.Offset

/-!
# Scanning a text into tokens

A text is cut into lexemes from left to right. Blanks between lexemes are skipped; a lexeme yields a token or
nothing, and every token keeps the byte offset where its lexeme begins.
-/

namespace ExactAlgebra

/-- A token and the byte offset where it begins. -/
structure Placed (τ : Type) where
  token : τ
  offset : Nat
  deriving DecidableEq

/-- What reads one lexeme at a given offset; `none` is a lexeme that carries no token. -/
abbrev LexemeReader (ε τ : Type) : Type := Nat → Reader ε Char (Option τ)

variable {ε τ : Type}

/-- The tokens of a text that begins at `offset`, or the error of the first lexeme that has one. -/
def scan (lexeme : LexemeReader ε τ) (offset : Nat) : List Char → Except ε (List (Placed τ))
  | [] => .ok []
  | c :: cs =>
      if Text.isBlank c then scan lexeme (offset + c.utf8Size) cs
      else
        match lexeme offset (c :: cs) with
        | .error e => .error e
        | .ok r =>
            let width := Text.byteLength (c :: cs) - Text.byteLength r.rest
            match r.value with
            | none => scan lexeme (offset + width) r.rest
            | some t => (scan lexeme (offset + width) r.rest).map (⟨t, offset⟩ :: ·)
termination_by cs => cs.length
decreasing_by
  · exact Nat.lt_succ_self _
  · exact r.shorter
  · exact r.shorter

end ExactAlgebra
