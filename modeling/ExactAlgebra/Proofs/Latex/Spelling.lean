import ExactAlgebra.Proofs.Latex.Lexemes
import ExactAlgebra.Proofs.Scan
import Mathlib

/-!
# Spelling tokens

How a text gets its first token, before the tokens that the rest of the text spells. Where a numeral or a command
ends depends on the character behind it.
-/

namespace ExactAlgebra

namespace Latex

/-! ## Texts -/

/-- The text has the given tokens, wherever it begins. -/
abbrev Spells : List Char → List Token → Prop := ScansTo lexeme

theorem spells_nil : Spells [] [] := .nil

theorem Spells.character {c : Char} {cs : List Char} {t : Token} {us : List Token}
    (hc : 32 < c.toNat ∧ c.toNat < 133) (hcommand : c ≠ '\\') (hnumeral : Numeral.continues c = false)
    (ht : characterToken? c = some t) (h : Spells cs us) : Spells (c :: cs) (t :: us) := by
  refine h.cons (Text.isBlank_eq_false hc) fun offset => ⟨.first (some t) cs, ?_, rfl, rfl⟩
  simp [Latex.lexeme, Numeral.read?_cons hnumeral, ht]

theorem Spells.letter {c : Char} {cs : List Char} {us : List Token} (hc : c.isAlpha) (h : Spells cs us) :
    Spells (c :: cs) (.letter c :: us) := by
  have hrange := Text.toNat_of_isAlpha hc
  refine h.character (by omega) ?_ ?_ ?_
  · rintro rfl
    cases hc
  · exact Numeral.continues_of_isAlpha hc
  · unfold characterToken?
    split <;> first | exact absurd hc (by decide) | exact if_pos hc

theorem Spells.number {ds cs : List Char} {us : List Token} (hne : ds ≠ []) (hds : ∀ d ∈ ds, d.isDigit)
    (hcs : ∀ c ∈ cs.head?, Numeral.continues c = false) (h : Spells cs us) :
    Spells (ds ++ cs) (.number ⟨ds, []⟩ :: us) := by
  obtain ⟨numeral, hnumeral, hvalue, hrest⟩ := Numeral.read?_append hne hds hcs
  obtain ⟨d, ds, rfl⟩ := List.exists_cons_of_ne_nil hne
  have hd := hds d List.mem_cons_self
  have hrange := Text.toNat_of_isDigit hd
  refine h.cons (Text.isBlank_eq_false (by omega)) fun offset =>
    ⟨numeral.map fun n => some (.number n), ?_, by simp [hvalue], hrest⟩
  have hcommand : d ≠ '\\' := by
    rintro rfl
    cases hd
  simp only [List.cons_append] at hnumeral ⊢
  simp [Latex.lexeme, hnumeral]

theorem isSpacing_of_isAlpha {c : Char} (hc : c.isAlpha) : isSpacing c = false := by
  rw [isSpacing, Bool.eq_false_iff]
  intro hspace
  simp only [Bool.or_eq_true, beq_iff_eq] at hspace
  rcases hspace with (((rfl | rfl) | rfl) | rfl) | rfl <;> cases hc

/-- A command ends where a character comes that is no letter. -/
theorem lexeme_command {offset : Nat} {name cs : List Char} {t? : Option Token} (hne : name ≠ [])
    (hname : ∀ c ∈ name, c.isAlpha) (hcs : ∀ c ∈ cs.head?, c.isAlpha = false) (ht : commandToken? name = some t?) :
    ∃ r, Latex.lexeme offset ('\\' :: (name ++ cs)) = .ok r ∧ r.value = t? ∧ r.rest = cs := by
  obtain ⟨letters, hletters, hvalue, hrest⟩ := run?_append hne hname hcs
  refine ⟨(letters.map fun _ => t?).preceded '\\', ?_, rfl, hrest⟩
  have hcommand : Latex.command offset (name ++ cs) = .ok (letters.map fun _ => t?) := by
    obtain ⟨c, name, rfl⟩ := List.exists_cons_of_ne_nil hne
    have hspacing : isSpacing c = false := isSpacing_of_isAlpha (hname c List.mem_cons_self)
    rw [← hvalue] at ht
    simp only [List.cons_append] at hletters ⊢
    simp [Latex.command, hspacing, hletters, ht]
  exact congrArg (Except.map fun r => r.preceded '\\') hcommand

theorem Spells.command (name : List Char) {cs : List Char} {t : Token} {us : List Token} (hne : name ≠ [])
    (hname : ∀ c ∈ name, c.isAlpha) (hcs : ∀ c ∈ cs.head?, c.isAlpha = false)
    (ht : commandToken? name = some (some t)) (h : Spells cs us) : Spells ('\\' :: (name ++ cs)) (t :: us) :=
  h.cons (by decide) fun _ => lexeme_command hne hname hcs ht

theorem Spells.frac {cs : List Char} {us : List Token} (h : Spells ('\x7b' :: cs) us) :
    Spells ('\\' :: 'f' :: 'r' :: 'a' :: 'c' :: '\x7b' :: cs) (.frac :: us) :=
  .command ['f', 'r', 'a', 'c'] nofun (List.all_eq_true.1 rfl) (by simp) rfl h

theorem Spells.sqrt {cs : List Char} {us : List Token} (h : Spells ('\x7b' :: cs) us) :
    Spells ('\\' :: 's' :: 'q' :: 'r' :: 't' :: '\x7b' :: cs) (.sqrt :: us) :=
  .command ['s', 'q', 'r', 't'] nofun (List.all_eq_true.1 rfl) (by simp) rfl h

theorem Spells.times {cs : List Char} {us : List Token} (hcs : ∀ c ∈ cs.head?, c.isAlpha = false)
    (h : Spells cs us) : Spells ('\\' :: 't' :: 'i' :: 'm' :: 'e' :: 's' :: cs) (.times :: us) :=
  .command ['t', 'i', 'm', 'e', 's'] nofun (List.all_eq_true.1 rfl) hcs rfl h

end Latex

end ExactAlgebra
