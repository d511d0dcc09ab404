import ExactAlgebra.Polynomial.Latex
import ExactAlgebra.Proofs.Latex.Letters
import ExactAlgebra.Proofs.Latex.Spelling

/-!
# The written form of a polynomial

The tokens that the text of a polynomial spells when its variables are single letters. The terms may stand in any
order, and like terms need not be combined.
-/

namespace ExactAlgebra

open Latex

/-- All variables of the polynomial are single ASCII letters. -/
def Polynomial.Lettered (p : Polynomial) : Prop := ∀ t ∈ p.terms, ∀ f ∈ t.monomial.factors, IsLetter f.1

instance (p : Polynomial) : Decidable p.Lettered :=
  inferInstanceAs (Decidable (∀ t ∈ p.terms, ∀ f ∈ t.monomial.factors, IsLetter f.1))

/-! ## Tokens -/

theorem Markup.natural_begins (n : Nat) : ∃ a as, (natural n).toList = a :: as ∧ a.isDigit := by
  obtain ⟨a, as, has⟩ := List.exists_cons_of_ne_nil (Nat.toDigits_ne_nil (b := 10) (n := n))
  have ha : a ∈ Nat.toDigits 10 n := has ▸ List.mem_cons_self
  exact ⟨a, as, by rw [natural, Nat.toList_repr, has], Nat.isDigit_of_mem_toDigits (by decide) (by decide) ha⟩

/-- The numeral of a natural number. -/
def Latex.numeral (n : Nat) : Numeral := ⟨Nat.toDigits 10 n, []⟩

@[simp] theorem Latex.digitsValue_numeral (n : Nat) : (numeral n).digitsValue = n := by
  rw [Numeral.digitsValue, numeral, List.append_nil, Text.natural_toDigits]

/-- The tokens of a number that is not negative. -/
def Latex.numberTokens (q : Rat) : List Token :=
  if q.den = 1 then [.number (numeral q.num.natAbs)]
  else literalFraction (numeral q.num.natAbs) (numeral q.den)

namespace Monomial

/-- The tokens of a power of a variable. -/
def powerTokens (f : String × Nat) : List Token :=
  f.1.toList.map .letter ++
    if f.2 = 1 then [] else [.caret, .openBrace, .number (numeral f.2), .closeBrace]

/-- The tokens of a monomial. -/
def tokens (m : Monomial) : List Token := m.factors.flatMap powerTokens

end Monomial

namespace Term

/-- Whether the coefficient is written. -/
def hasNumber (t : Term) : Bool := t.isConstant || t.coefficient.abs != 1

/-- Whether a minus sign is written. -/
def isNegative (t : Term) : Bool := t.coefficient < 0

/-- The tokens of a term without its sign. -/
def tokens (t : Term) : List Token :=
  (if t.hasNumber then numberTokens t.coefficient.abs else []) ++ t.monomial.tokens

/-- The tokens of a term inside a sum. -/
def signedTokens (t : Term) : List Token := (if t.isNegative then .minus else .plus) :: t.tokens

end Term

/-- The tokens of a polynomial. -/
def Polynomial.tokens (p : Polynomial) : List Token :=
  match p.terms with
  | [] => [.number (numeral 0)]
  | t :: ts => (if t.isNegative then [.minus] else []) ++ (t.tokens ++ ts.flatMap Term.signedTokens)

/-! ## Spelling -/

namespace Latex

variable {cs : List Char} {us : List Token}

/-- No numeral goes on into the text. -/
def EndsNumeral (cs : List Char) : Prop := ∀ c ∈ cs.head?, Numeral.continues c = false

theorem endsNumeral_nil : EndsNumeral [] := by simp [EndsNumeral]

theorem endsNumeral_cons {c : Char} (h : Numeral.continues c = false) : EndsNumeral (c :: cs) := by
  intro d hd
  obtain rfl : c = d := by simpa using hd
  exact h

theorem Spells.natural {n : Nat} (hcs : EndsNumeral cs) (h : Spells cs us) :
    Spells ((Markup.natural n).toList ++ cs) (.number (numeral n) :: us) := by
  rw [Markup.natural, Nat.toList_repr]
  exact h.number Nat.toDigits_ne_nil (fun d hd => Nat.isDigit_of_mem_toDigits (by decide) (by decide) hd) hcs

theorem Spells.openBrace (h : Spells cs us) : Spells ('\x7b' :: cs) (.openBrace :: us) :=
  h.character (by decide) (by decide) rfl rfl

theorem Spells.closeBrace (h : Spells cs us) : Spells ('\x7d' :: cs) (.closeBrace :: us) :=
  h.character (by decide) (by decide) rfl rfl

theorem Spells.braced {n : Nat} (h : Spells cs us) :
    Spells ((Markup.braced (Markup.natural n)).toList ++ cs)
      (.openBrace :: .number (numeral n) :: .closeBrace :: us) := by
  have hnatural := h.closeBrace.natural (n := n) (endsNumeral_cons rfl)
  simpa [Markup.braced] using hnatural.openBrace

theorem Spells.rational {q : Rat} (hq : 0 ≤ q) (hcs : EndsNumeral cs) (h : Spells cs us) :
    Spells ((Markup.rational q).toList ++ cs) (numberTokens q ++ us) := by
  unfold Markup.rational numberTokens
  split
  · have hnum : ¬ q.num < 0 := by
      rw [Int.not_lt]
      exact Rat.num_nonneg.2 hq
    simpa [Markup.integer, hnum] using h.natural hcs
  · have hden := (h.braced (n := q.den))
    have hnum := hden.braced (n := q.num.natAbs)
    have hq' : ¬ q < 0 := Rat.not_lt.2 hq
    rw [if_neg hq']
    simp only [Markup.braced, Markup.fraction, String.toList_append, List.append_assoc] at hnum ⊢
    exact hnum.frac

end Latex

theorem Monomial.spells_power {f : String × Nat} {cs : List Char} {us : List Token} (hf : IsLetter f.1)
    (h : Spells cs us) :
    Spells ((if f.2 = 1 then f.1 else Markup.power f.1 (Markup.natural f.2)).toList ++ cs)
      (powerTokens f ++ us) := by
  obtain ⟨name, n⟩ := f
  obtain ⟨c, hc, rfl⟩ := hf
  simp only [powerTokens]
  split
  · simpa using h.letter hc
  · have hcaret : Spells ('^' :: ((Markup.braced (Markup.natural n)).toList ++ cs))
        (.caret :: .openBrace :: .number (numeral n) :: .closeBrace :: us) :=
      h.braced.character (by decide) (by decide) rfl rfl
    simpa [Markup.power] using hcaret.letter hc

theorem Monomial.spells {m : Monomial} {cs : List Char} {us : List Token}
    (hm : ∀ f ∈ m.factors, IsLetter f.1) (h : Spells cs us) :
    Spells (m.latex.toList ++ cs) (m.tokens ++ us) := by
  rw [Monomial.latex, Monomial.tokens, String.toList_join]
  generalize m.factors = fs at hm ⊢
  induction fs with
  | nil => exact h
  | cons f fs ih =>
      have ⟨hf, hfs⟩ := List.forall_mem_cons.1 hm
      simpa using Monomial.spells_power hf (ih hfs)

theorem Monomial.endsNumeral {m : Monomial} {cs : List Char} (hm : ∀ f ∈ m.factors, IsLetter f.1)
    (hcs : EndsNumeral cs) : EndsNumeral (m.latex.toList ++ cs) := by
  rw [Monomial.latex, String.toList_join]
  generalize m.factors = fs at hm ⊢
  cases fs with
  | nil => exact hcs
  | cons f fs =>
      obtain ⟨name, n⟩ := f
      obtain ⟨c, hc, rfl⟩ := hm _ List.mem_cons_self
      have hend : Numeral.continues c = false := Numeral.continues_of_isAlpha hc
      simp only [List.map_cons, List.flatMap_cons, Markup.power]
      split
      · simpa using endsNumeral_cons hend
      · simpa using endsNumeral_cons hend

namespace Term

variable {t : Term} {cs : List Char} {us : List Token}

theorem spells (ht : ∀ f ∈ t.monomial.factors, IsLetter f.1) (hcs : EndsNumeral cs) (h : Spells cs us) :
    Spells (t.magnitudeLatex.toList ++ cs) (t.tokens ++ us) := by
  have hmonomial := Monomial.spells ht h
  unfold magnitudeLatex tokens hasNumber
  split
  · simpa using hmonomial.rational Rat.abs_nonneg (Monomial.endsNumeral ht hcs)
  · simpa using hmonomial

theorem spells_signed (ht : ∀ f ∈ t.monomial.factors, IsLetter f.1) (hcs : EndsNumeral cs) (h : Spells cs us) :
    Spells (t.signedLatex.toList ++ cs) (t.signedTokens ++ us) := by
  have hterm := spells ht hcs h
  unfold signedLatex signedTokens isNegative
  by_cases hneg : t.coefficient < 0
  · simpa [hneg] using hterm.character (c := '-') (by decide) (by decide) rfl rfl
  · simpa [hneg] using hterm.character (c := '+') (by decide) (by decide) rfl rfl

theorem endsNumeral_signed : EndsNumeral (t.signedLatex.toList ++ cs) := by
  unfold signedLatex
  split
  · simpa using endsNumeral_cons rfl
  · simpa using endsNumeral_cons rfl

end Term

namespace Polynomial

theorem spells_summands {ts : List Term} (hts : ∀ t ∈ ts, ∀ f ∈ t.monomial.factors, IsLetter f.1) :
    EndsNumeral (String.join (ts.map Term.signedLatex)).toList ∧
      Spells (String.join (ts.map Term.signedLatex)).toList (ts.flatMap Term.signedTokens) := by
  induction ts with
  | nil => exact ⟨endsNumeral_nil, spells_nil⟩
  | cons t ts ih =>
      have ⟨ht, hts⟩ := List.forall_mem_cons.1 hts
      obtain ⟨hend, hspells⟩ := ih hts
      rw [List.map_cons, String.join_cons, String.toList_append, List.flatMap_cons]
      exact ⟨Term.endsNumeral_signed, Term.spells_signed ht hend hspells⟩

theorem spells {p : Polynomial} (hp : p.Lettered) : Spells p.latex.toList p.tokens := by
  obtain ⟨terms⟩ := p
  cases terms with
  | nil =>
      have hzero := spells_nil.natural (n := 0) endsNumeral_nil
      rw [List.append_nil] at hzero
      exact hzero
  | cons t ts =>
      have ⟨ht, hts⟩ := List.forall_mem_cons.1 hp
      obtain ⟨hend, hspells⟩ := spells_summands hts
      have hterm := Term.spells ht hend hspells
      simp only [latex, tokens, Term.latex, Term.isNegative]
      by_cases hneg : t.coefficient < 0
      · simpa [hneg] using hterm.character (c := '-') (by decide) (by decide) rfl rfl
      · simpa [hneg] using hterm

end Polynomial

end ExactAlgebra
