import ExactAlgebra.Rational.Decimal
import Mathlib

/-!
# Numerals in a text

A numeral is read from the front of a text to its end: all digits that follow, and a point only before a digit. What
comes behind it decides where it ends.
-/

namespace ExactAlgebra

/-! ## Characters and runs -/

namespace Text

theorem toNat_of_isDigit {c : Char} (h : c.isDigit) : 48 ≤ c.toNat ∧ c.toNat ≤ 57 :=
  Char.isDigit_iff_toNat.1 h

theorem toNat_of_isAlpha {c : Char} (h : c.isAlpha) : 65 ≤ c.toNat ∧ c.toNat ≤ 122 := by
  simp [Char.isAlpha, Char.isUpper, Char.isLower, UInt32.le_iff_toNat_le] at h
  omega

theorem isBlank_eq_false {c : Char} (h : 32 < c.toNat ∧ c.toNat < 133) : isBlank c = false := by
  simp only [isBlank, blankRuns, List.any_cons, List.any_nil, Bool.or_false, Bool.or_eq_false_iff,
    Bool.and_eq_false_iff, decide_eq_false_iff_not]
  omega

theorem isDigit_of_isAlpha {c : Char} (h : c.isAlpha) : c.isDigit = false := by
  rw [Bool.eq_false_iff]
  intro hdigit
  have := toNat_of_isDigit hdigit
  have := toNat_of_isAlpha h
  omega

theorem digits?_eq_none_iff {cs : List Char} : digits? cs = none ↔ ∀ c ∈ cs.head?, c.isDigit = false := by
  cases cs <;> simp [digits?, run?]

end Text

theorem head?_of_front {τ : Type} {p : τ → Prop} {front back : List τ} (h : ∀ t ∈ back.head?, p t)
    (hfront : front <+: back) : ∀ t ∈ front.head?, p t := by
  obtain ⟨rest, rfl⟩ := hfront
  cases front with
  | nil => simp
  | cons t front => exact h

theorem run?_append {τ : Type} {p : τ → Bool} {front back : List τ} (hne : front ≠ [])
    (hfront : ∀ t ∈ front, p t) (hback : ∀ t ∈ back.head?, p t = false) :
    ∃ r, run? p (front ++ back) = some r ∧ r.value = front ∧ r.rest = back := by
  cases front with
  | nil => exact absurd rfl hne
  | cons t ts =>
      have ⟨ht, hts⟩ := List.forall_mem_cons.1 hfront
      have htake : back.takeWhile p = [] := by
        cases back with
        | nil => rfl
        | cons u us => simp [hback u rfl]
      have hdrop : back.dropWhile p = back := by
        cases back with
        | nil => rfl
        | cons u us => simp [hback u rfl]
      simp only [List.cons_append, run?, ht, if_true]
      refine ⟨_, rfl, ?_, ?_⟩
      · simp only [List.takeWhile_append_of_pos hts, htake, List.append_nil]
      · simp only [List.dropWhile_append_of_pos hts, hdrop]

/-! ## Numerals -/

namespace Numeral

/-- A numeral would go on with the character. -/
def continues (c : Char) : Bool := c.isDigit || c = '.'

theorem continues_of_mem_text {n : Numeral} (hdigits : ∀ c ∈ n.whole ++ n.fraction, c.isDigit) :
    ∀ c ∈ n.text, continues c := by
  intro c hc
  have hmem : c ∈ n.whole ++ n.fraction ∨ c = '.' := by
    unfold text at hc
    split at hc <;> grind
  rcases hmem with hmem | rfl
  · rw [continues, hdigits c hmem, Bool.true_or]
  · rfl

theorem continues_of_isAlpha {c : Char} (h : c.isAlpha) : continues c = false := by
  rw [continues, Text.isDigit_of_isAlpha h, Bool.false_or, decide_eq_false_iff_not]
  rintro rfl
  cases h

/-- The numeral is of the form `12`, `1.5` or `.5`. -/
def IsWritten (n : Numeral) : Prop := n.whole ++ n.fraction ≠ [] ∧ ∀ c ∈ n.whole ++ n.fraction, c.isDigit

/-- The numeral does not go on into the characters `next`. -/
def EndsBefore (n : Numeral) (next : List Char) : Prop :=
  (∀ c ∈ next.head?, c.isDigit = false) ∧
    (n.isInteger → ∀ tail, next = '.' :: tail → ∀ c ∈ tail.head?, c.isDigit = false)

variable {n : Numeral} {cs front next : List Char}

theorem EndsBefore.shorten (h : n.EndsBefore next) (hfront : front <+: next) : n.EndsBefore front := by
  refine ⟨head?_of_front h.1 hfront, ?_⟩
  rintro hn tail rfl
  obtain ⟨back, rfl⟩ := hfront
  exact head?_of_front (h.2 hn (tail ++ back) rfl) ⟨back, rfl⟩

theorem endsBefore_of_not_continues (h : ∀ c ∈ next.head?, continues c = false) : n.EndsBefore next := by
  refine ⟨fun c hc => (Bool.or_eq_false_iff.1 (h c hc)).1, ?_⟩
  rintro - tail rfl
  cases h '.' rfl

theorem IsWritten.text_ne_nil (hn : n.IsWritten) : n.text ≠ [] := by
  unfold text
  split
  · rename_i hinteger
    have hfraction : n.fraction = [] := by simpa [isInteger] using hinteger
    simpa [hfraction] using hn.1
  · simp

theorem IsWritten.continues (hn : n.IsWritten) : ∀ c ∈ n.text, continues c := continues_of_mem_text hn.2

theorem IsWritten.head?_ne (hn : n.IsWritten) : n.text.head? ≠ some '\\' := fun h =>
  absurd (hn.continues _ (List.mem_of_mem_head? h)) (by decide)

theorem toNat_of_continues {c : Char} (hc : Numeral.continues c) : 46 ≤ c.toNat ∧ c.toNat ≤ 57 := by
  rcases Bool.or_eq_true_iff.1 hc with hdigit | hpoint
  · have := Text.toNat_of_isDigit hdigit
    omega
  · obtain rfl : c = '.' := of_decide_eq_true hpoint
    decide

/-- What is read is a numeral to its end. -/
theorem read?_sound {r : Reading Numeral cs} (h : read? cs = some r) :
    r.value.IsWritten ∧ r.value.EndsBefore r.rest := by
  unfold read? at h
  split at h
  · rename_i whole hwhole
    obtain ⟨-, hne, hdigits, hstop⟩ := run?_eq_some hwhole
    split at h
    · rename_i tail htail
      split at h
      · rename_i fraction hfraction
        obtain ⟨-, hne', hdigits', hstop'⟩ := run?_eq_some hfraction
        cases h
        exact ⟨⟨by simp [hne], List.forall_mem_append.2 ⟨hdigits, hdigits'⟩⟩, hstop', by simp [isInteger, hne']⟩
      · rename_i hnone
        cases h
        refine ⟨⟨by simpa using hne, by simpa using hdigits⟩, hstop, ?_⟩
        rintro - tail' hrest
        obtain rfl : tail = tail' := by simpa [htail] using hrest
        exact Text.digits?_eq_none_iff.1 hnone
    · rename_i hpoint
      cases h
      refine ⟨⟨by simpa using hne, by simpa using hdigits⟩, hstop, ?_⟩
      rintro - tail hrest
      exact absurd hrest (hpoint tail)
  · split at h
    · obtain ⟨fraction, hfraction, rfl⟩ := Option.map_eq_some_iff.1 h
      obtain ⟨-, hne, hdigits, hstop⟩ := run?_eq_some hfraction
      exact ⟨⟨hne, hdigits⟩, hstop, by simp [isInteger, hne]⟩
    · cases h

variable {whole fraction : List Char}

theorem read?_integer (hne : whole ≠ []) (hwhole : ∀ c ∈ whole, c.isDigit) (hnext : EndsBefore ⟨whole, []⟩ next) :
    ∃ r, read? (whole ++ next) = some r ∧ r.value = ⟨whole, []⟩ ∧ r.rest = next := by
  obtain ⟨digits, hdigits, hvalue, hrest⟩ := run?_append hne hwhole hnext.1
  refine ⟨digits.map fun ds => ⟨ds, []⟩, ?_, by simp [hvalue], hrest⟩
  unfold read?
  simp only [Text.digits?, hdigits]
  split
  · rename_i tail htail
    have hnone := Text.digits?_eq_none_iff.2 (hnext.2 rfl tail (hrest.symm.trans htail))
    rw [Text.digits?] at hnone
    simp only [hnone]
  · rfl

/-- A run of digits is read whole before what would not continue a numeral. -/
theorem read?_append (hne : whole ≠ []) (hwhole : ∀ c ∈ whole, c.isDigit)
    (hnext : ∀ c ∈ next.head?, continues c = false) :
    ∃ r, read? (whole ++ next) = some r ∧ r.value = ⟨whole, []⟩ ∧ r.rest = next :=
  read?_integer hne hwhole (endsBefore_of_not_continues hnext)

theorem read?_pointed (hne : whole ≠ []) (hwhole : ∀ c ∈ whole, c.isDigit) (hne' : fraction ≠ [])
    (hfraction : ∀ c ∈ fraction, c.isDigit) (hnext : ∀ c ∈ next.head?, c.isDigit = false) :
    ∃ r, read? (whole ++ '.' :: (fraction ++ next)) = some r ∧ r.value = ⟨whole, fraction⟩ ∧ r.rest = next := by
  have hpoint : ∀ c ∈ ('.' :: (fraction ++ next)).head?, c.isDigit = false := by simp
  obtain ⟨digits, hdigits, hvalue, hrest⟩ := run?_append hne hwhole hpoint
  obtain ⟨digits', hdigits', hvalue', hrest'⟩ := run?_append hne' hfraction hnext
  unfold read?
  simp only [Text.digits?, hdigits]
  split
  · rename_i tail htail
    obtain rfl : tail = fraction ++ next := by simpa [hrest] using htail.symm
    simp only [hdigits']
    exact ⟨_, rfl, by simp [hvalue, hvalue'], hrest'⟩
  · rename_i hpoint
    exact absurd hrest (hpoint _)

theorem read?_bare (hne : fraction ≠ []) (hfraction : ∀ c ∈ fraction, c.isDigit)
    (hnext : ∀ c ∈ next.head?, c.isDigit = false) :
    ∃ r, read? ('.' :: (fraction ++ next)) = some r ∧ r.value = ⟨[], fraction⟩ ∧ r.rest = next := by
  obtain ⟨digits, hdigits, hvalue, hrest⟩ := run?_append hne hfraction hnext
  have hnone : run? Char.isDigit ('.' :: (fraction ++ next)) = none := by simp [run?]
  refine ⟨(digits.map fun ds => ⟨[], ds⟩).preceded '.', ?_, by simp [hvalue], hrest⟩
  simp [read?, Text.digits?, hnone, hdigits]

/-- A numeral is read if it ends where the text does not go on with it. -/
theorem read?_complete (hn : n.IsWritten) (hnext : n.EndsBefore next) :
    ∃ r, read? (n.text ++ next) = some r ∧ r.value = n ∧ r.rest = next := by
  obtain ⟨whole, fraction⟩ := n
  obtain ⟨hne, hdigits⟩ := hn
  obtain ⟨hwhole, hfraction⟩ := List.forall_mem_append.1 hdigits
  rcases eq_or_ne fraction [] with rfl | hne'
  · have hne'' : whole ≠ [] := by simpa using hne
    exact read?_integer hne'' hwhole hnext
  · have htext : text ⟨whole, fraction⟩ ++ next = whole ++ '.' :: (fraction ++ next) := by
      simp [text, isInteger, hne']
    rw [htext]
    rcases eq_or_ne whole [] with rfl | hne
    · exact read?_bare hne' hfraction hnext.1
    · exact read?_pointed hne hwhole hne' hfraction hnext.1

theorem read?_cons {c : Char} (hc : continues c = false) : read? (c :: cs) = none := by
  obtain ⟨hdigit, hpoint⟩ := Bool.or_eq_false_iff.1 hc
  have hne : c ≠ '.' := of_decide_eq_false hpoint
  simp [read?, Text.digits?, run?, hdigit, hne]

theorem read?_cons_ne_none {d : Char} (hd : d.isDigit) (cs : List Char) : read? (d :: cs) ≠ none := by
  obtain ⟨r, hr⟩ : ∃ r, Text.digits? (d :: cs) = some r := by simp [Text.digits?, run?, hd]
  unfold read?
  simp only [hr]
  split
  · split <;> simp
  · simp

/-- Where a numeral begins, some numeral is read. -/
theorem read?_ne_none (hn : n.IsWritten) (next : List Char) : read? (n.text ++ next) ≠ none := by
  obtain ⟨whole, fraction⟩ := n
  obtain ⟨hne, hdigits⟩ := hn
  cases whole with
  | nil =>
      obtain ⟨d, ds, rfl⟩ := List.exists_cons_of_ne_nil hne
      have hd : d.isDigit := hdigits d (by simp)
      simp [text, isInteger, read?, Text.digits?, run?, hd]
  | cons d whole =>
      have hd : d.isDigit := hdigits d (by simp)
      obtain ⟨cs, hcs⟩ : ∃ cs, text ⟨d :: whole, fraction⟩ ++ next = d :: cs := by
        unfold text
        split <;> exact ⟨_, rfl⟩
      rw [hcs]
      exact read?_cons_ne_none hd cs

/-- There are few enough places when 32 bits count them. -/
theorem isScalable_iff : n.isScalable ↔ n.fraction.length < 2 ^ 32 := decide_eq_true_iff.trans Nat.lt_succ_iff.symm

end Numeral

theorem Decimal.maxPlaces_lt_iff {k : ℕ} : maxPlaces < k ↔ ¬ k < 2 ^ 32 := Nat.not_lt.symm

end ExactAlgebra
