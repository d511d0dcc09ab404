import ExactAlgebra.Proofs.Latex.Grammar
import ExactAlgebra.Proofs.Numeral
import ExactAlgebra.Proofs.Outcome

/-!
# Lexemes

How a text that has tokens is made of lexemes. What the text and its tokens have in common is proved by one induction
on its lexemes.
-/

namespace ExactAlgebra

namespace Latex

/-- The text is made of lexemes and blanks, and the lexemes carry the tokens. -/
inductive Lexes : List Char → List Token → Prop where
  | nil : Lexes [] []
  | blank {c cs us} : Text.isBlank c → Lexes cs us → Lexes (c :: cs) us
  | spacing {c cs us} : isSpacing c → Lexes cs us → Lexes ('\\' :: c :: cs) us
  | command {name token cs us} : (∀ c ∈ name, c.isAlpha) → commandToken? name = some token → Lexes cs us →
      Lexes ('\\' :: (name ++ cs)) (token.toList ++ us)
  | number {n cs us} : (∀ c ∈ n.text, Numeral.continues c) → Lexes cs us →
      Lexes (n.text ++ cs) (.number n :: us)
  | character {c t cs us} : characterToken? c = some t → Lexes cs us → Lexes (c :: cs) (t :: us)

theorem Lexes.of_command {offset : Nat} {cs : List Char} {us : List Token} {r : Reading (Option Token) cs}
    (h : Latex.command offset cs = .ok r) (hrest : Lexes r.rest us) : Lexes ('\\' :: cs) (r.value.toList ++ us) := by
  unfold Latex.command at h
  split at h
  · cases h
  · rename_i c cs
    split at h
    · rename_i hspacing
      cases h
      exact .spacing hspacing hrest
    · split at h
      · cases h
      · rename_i name hname
        split at h
        · cases h
        · rename_i htoken
          cases h
          obtain ⟨hcs, _, hletters, _⟩ := run?_eq_some hname
          have hlexes : Lexes ('\\' :: (name.value ++ name.rest)) _ := .command hletters htoken hrest
          rwa [← hcs] at hlexes

theorem Lexes.of_lexeme {offset : Nat} {cs : List Char} {us : List Token} {r : Reading (Option Token) cs}
    (h : lexeme offset cs = .ok r) (hrest : Lexes r.rest us) : Lexes cs (r.value.toList ++ us) := by
  unfold lexeme at h
  split at h
  · cases h
  · obtain ⟨s, hs, rfl⟩ := Outcome.map_eq_ok.1 h
    exact .of_command hs hrest
  · split at h
    · rename_i numeral hnumeral
      cases h
      obtain ⟨hcs, hdigits⟩ := Numeral.read?_eq_some hnumeral
      have hcontinues := Numeral.continues_of_mem_text hdigits
      have hlexes : Lexes (numeral.value.text ++ numeral.rest) _ := .number hcontinues hrest
      rwa [← hcs] at hlexes
    · split at h
      · rename_i htoken
        cases h
        exact .character htoken hrest
      · cases h

theorem lexes_of_scan {offset : Nat} {cs : List Char} {ts : Tokens} (h : scan lexeme offset cs = .ok ts) :
    Lexes cs (plain ts) := by
  fun_induction scan lexeme offset cs generalizing ts with
  | case1 =>
      cases h
      exact .nil
  | case2 _ c cs hblank ih => exact .blank hblank (ih h)
  | case3 => cases h
  | case4 =>
      rename_i hlexeme _ hnone ih
      have hlexes := Lexes.of_lexeme hlexeme (ih h)
      rw [hnone] at hlexes
      exact hlexes
  | case5 =>
      rename_i hlexeme _ t ht ih
      obtain ⟨us, hus, rfl⟩ := Outcome.map_eq_ok.1 h
      have hlexes := Lexes.of_lexeme hlexeme (ih hus)
      rw [ht] at hlexes
      exact hlexes

end Latex

end ExactAlgebra
