/-!
# Searching a text

Whether one text occurs in another, and the split of a text at the first occurrence of a character.
-/

namespace ExactAlgebra.Text

/-- Whether `word` occurs somewhere in the text. -/
def occurs (word : List Char) : List Char → Bool
  | [] => word.isEmpty
  | c :: cs => word.isPrefixOf (c :: cs) || occurs word cs

/-- The parts before and after the first `mark`, if there is one. -/
def splitAtFirst (mark : Char) : List Char → Option (List Char × List Char)
  | [] => none
  | c :: cs =>
      if c = mark then some ([], cs)
      else (splitAtFirst mark cs).map fun parts => (c :: parts.1, parts.2)

/-- What follows `word` in a text that begins with it. -/
def after? (word cs : List Char) : Option (List Char) :=
  if word.isPrefixOf cs then some (cs.drop word.length) else none

theorem after?_eq_some_iff {word cs tail : List Char} :
    after? word cs = some tail ↔ cs = word ++ tail := by
  rw [after?]
  split
  · next h =>
      obtain ⟨rest, rfl⟩ := List.isPrefixOf_iff_prefix.1 h
      simp
  · next h =>
      simp only [reduceCtorEq, false_iff]
      rintro rfl
      exact h (List.isPrefixOf_iff_prefix.2 (List.prefix_append word tail))

theorem splitAtFirst_eq_none_iff {mark : Char} {cs : List Char} :
    splitAtFirst mark cs = none ↔ mark ∉ cs := by
  induction cs with
  | nil => simp [splitAtFirst]
  | cons c cs ih =>
      by_cases h : c = mark
      · simp [splitAtFirst, h]
      · simp [splitAtFirst, h, ih, Ne.symm h]

theorem splitAtFirst_eq_some_iff {mark : Char} {cs before after : List Char} :
    splitAtFirst mark cs = some (before, after) ↔ cs = before ++ mark :: after ∧ mark ∉ before := by
  induction cs generalizing before with
  | nil => simp [splitAtFirst]
  | cons c cs ih =>
      by_cases h : c = mark
      · subst h
        cases before with
        | nil => simp [splitAtFirst]
        | cons b before => simp [splitAtFirst]; intro hb _ hne; exact absurd hb hne
      · cases before with
        | nil => simp [splitAtFirst, h]
        | cons b before =>
            simp [splitAtFirst, h, ih, and_assoc, and_left_comm]
            grind

end ExactAlgebra.Text
