import ExactAlgebra.Reading

/-!
# Numerals

Unsigned decimal numerals in ASCII digits, and reading the longest one at the front of a text.
-/

namespace ExactAlgebra

namespace Text

/-- The longest nonempty run of ASCII digits. -/
def digits? : (cs : List Char) → Option (Reading (List Char) cs) := run? Char.isDigit

/-- The number that a run of digits denotes; no digits denote zero. -/
def natural (digits : List Char) : Nat := Nat.ofDigitChars 10 digits 0

theorem natural_toDigits (n : Nat) : natural (Nat.toDigits 10 n) = n :=
  Nat.ofDigitChars_toDigits (by decide) (by decide)

end Text

/-- A decimal numeral: the digits before the point and those after it. -/
structure Numeral where
  whole : List Char
  fraction : List Char
  deriving DecidableEq

namespace Numeral

/-- Whether the numeral is written without digits after a point. -/
def isInteger (n : Numeral) : Bool := n.fraction.isEmpty

/-- The number that all digits denote when the point is left out. -/
def digitsValue (n : Numeral) : Nat := Text.natural (n.whole ++ n.fraction)

/-- The exact value: all digits, divided by ten for each digit after the point. -/
def value (n : Numeral) : Rat := mkRat n.digitsValue (Nat.pow 10 n.fraction.length)

/-- The written form, with a point only where digits follow it. -/
def text (n : Numeral) : List Char :=
  if n.isInteger then n.whole else n.whole ++ '.' :: n.fraction

/-- The longest numeral `12`, `1.5` or `.5` at the front of a text. A point belongs to it only before a digit. -/
def read? (cs : List Char) : Option (Reading Numeral cs) :=
  match Text.digits? cs with
  | some whole =>
      match h : whole.rest with
      | '.' :: tail =>
          match Text.digits? tail with
          | some fraction =>
              some ⟨⟨whole.value, fraction.value⟩, fraction.rest, by
                have h₁ := fraction.shorter
                have h₂ := whole.shorter
                rw [h, List.length_cons] at h₂
                omega⟩
          | none => some (whole.map fun digits => ⟨digits, []⟩)
      | _ => some (whole.map fun digits => ⟨digits, []⟩)
  | none =>
      match cs with
      | '.' :: tail => (Text.digits? tail).map fun fraction =>
          (fraction.map fun digits => ⟨[], digits⟩).preceded '.'
      | _ => none

/-- A numeral is what was written, and it has digits only. -/
theorem read?_eq_some {cs : List Char} {r : Reading Numeral cs} (h : read? cs = some r) :
    cs = r.value.text ++ r.rest ∧ ∀ c ∈ r.value.whole ++ r.value.fraction, c.isDigit := by
  unfold read? at h
  split at h
  · rename_i whole hwhole
    obtain ⟨hcs, _, hdigits, _⟩ := run?_eq_some hwhole
    split at h
    · rename_i tail htail
      split at h
      · rename_i fraction hfraction
        obtain ⟨htail', hne, hdigits', _⟩ := run?_eq_some hfraction
        cases h
        refine ⟨?_, List.forall_mem_append.2 ⟨hdigits, hdigits'⟩⟩
        simp [text, isInteger, hne, ← htail', ← htail, ← hcs]
      · cases h
        exact ⟨hcs, by simpa using hdigits⟩
    · cases h
      exact ⟨hcs, by simpa using hdigits⟩
  · split at h
    · rename_i tail
      obtain ⟨fraction, hfraction, rfl⟩ := Option.map_eq_some_iff.1 h
      obtain ⟨htail, hne, hdigits, _⟩ := run?_eq_some hfraction
      exact ⟨by simp [text, isInteger, hne, ← htail], hdigits⟩
    · cases h

end Numeral

end ExactAlgebra
