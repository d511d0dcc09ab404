import ExactAlgebra.Proofs.Latex.Layout
import ExactAlgebra.Proofs.Scan

/-!
# Texts with blanks between them

No word goes on across a blank. The tokens of two texts with blanks between them are therefore those of the first and,
farther on, those of the second; where the second text has an error, the error is as much farther on.
-/

namespace ExactAlgebra

theorem head?_append_of {τ : Type} {p : τ → Prop} {front back : List τ} (hfront : ∀ t ∈ front.head?, p t)
    (hback : ∀ t ∈ back.head?, p t) : ∀ t ∈ (front ++ back).head?, p t := by
  cases front with
  | nil => exact hback
  | cons t front => exact hfront

/-! ## Blanks end a word -/

namespace Text

variable {c : Char} (h : isBlank c)
include h

theorem isDigit_of_isBlank : c.isDigit = false := by
  rw [Bool.eq_false_iff]
  intro hdigit
  have := toNat_of_isDigit hdigit
  rw [isBlank_eq_false (by omega)] at h
  cases h

theorem isAlpha_of_isBlank : c.isAlpha = false := by
  rw [Bool.eq_false_iff]
  intro halpha
  have := toNat_of_isAlpha halpha
  rw [isBlank_eq_false (by omega)] at h
  cases h

end Text

/-- Nothing follows, or a blank. -/
def BlankFirst (next : List Char) : Prop := ∀ c ∈ next.head?, Text.isBlank c

namespace BlankFirst

variable {next : List Char} (h : BlankFirst next)
include h

theorem isDigit_head? : ∀ c ∈ next.head?, c.isDigit = false := fun c hc => Text.isDigit_of_isBlank (h c hc)

theorem isAlpha_head? : ∀ c ∈ next.head?, c.isAlpha = false := fun c hc => Text.isAlpha_of_isBlank (h c hc)

end BlankFirst

theorem Numeral.EndsBefore.append {n : Numeral} {cs next : List Char} (h : n.EndsBefore cs) (hnext : BlankFirst next) :
    n.EndsBefore (cs ++ next) := by
  refine ⟨head?_append_of h.1 hnext.isDigit_head?, fun hn tail htail => ?_⟩
  cases cs with
  | nil =>
      have hpoint : Text.isBlank '.' := hnext '.' (by rw [← List.nil_append next, htail]; rfl)
      exact absurd hpoint (by decide)
  | cons c cs =>
      obtain ⟨rfl, rfl⟩ := List.cons.inj htail
      exact head?_append_of (h.2 hn cs rfl) hnext.isDigit_head?

namespace Latex

variable {offset k : Nat} {t? : Option Token} {word cs next : List Char} {ts : Tokens}

theorem WordEnds.append (h : WordEnds t? word cs) (hnext : BlankFirst next) : WordEnds t? word (cs ++ next) :=
  ⟨fun name hname hletters => head?_append_of (h.name name hname hletters) hnext.isAlpha_head?,
    fun n hn => (h.numeral n hn).append hnext⟩

/-- What is cut into words to its end is cut in the same way before a blank. -/
theorem Cut.before_blank (h : Cut [] offset cs ts) (hnext : BlankFirst next) : Cut next offset cs ts := by
  induction h with
  | nil => exact .nil
  | word hword hends _ ih =>
      rw [List.append_nil] at hends
      exact .word hword (hends.append hnext) ih

/-! ## Farther on in a text -/

/-- The same error with a position that is greater by `k`. -/
def Error.shift (k : Nat) : Error → Error
  | .unexpected position expected => .unexpected (k + position) expected
  | .invalidDenominator position => .invalidDenominator (k + position)
  | .tooDeep limit => .tooDeep limit

theorem command_shift (offset : Nat) (cs : List Char) :
    command (k + offset) cs = (command offset cs).mapError (Error.shift k) := by
  cases cs with
  | nil => rfl
  | cons c cs =>
      simp only [command]
      split
      · rfl
      · split
        · rfl
        · split <;> rfl

theorem lexeme_shift (offset : Nat) (cs : List Char) :
    lexeme (k + offset) cs = (lexeme offset cs).mapError (Error.shift k) := by
  unfold lexeme
  split
  · rfl
  · rename_i cs
    rw [command_shift]
    cases command offset cs <;> rfl
  · split
    · rfl
    · split <;> rfl

theorem tokenize_before_blank {front next : List Char} (hfront : tokenize front = .ok ts) (hnext : BlankFirst next) :
    tokenize (front ++ next) = (scan lexeme (Text.byteLength front) next).map (ts ++ ·) := by
  have hscanned := scanned_scan 0 front
  rw [← tokenize, hfront] at hscanned
  cases hscanned with
  | ok hcut =>
      rw [tokenize, scan_cut (hcut.before_blank hnext), Nat.zero_add]

/-- The tokens of two texts with blanks between them are those of the first text and those of the second one, moved on
by what stands before it. An error of the second text is moved on by as much. -/
theorem tokenize_separated {front gap back : List Char} (hfront : tokenize front = .ok ts) (hne : gap ≠ [])
    (hgap : ∀ c ∈ gap, Text.isBlank c) :
    (∀ us, tokenize back = .ok us →
      tokenize (front ++ gap ++ back) = .ok (ts ++ us.map (Placed.shift (Text.byteLength (front ++ gap))))) ∧
    ∀ e, tokenize back = .error e →
      ∃ position expected, e = .unexpected position expected ∧
        tokenize (front ++ gap ++ back) = .error (.unexpected (Text.byteLength (front ++ gap) + position) expected) := by
  have hblank : BlankFirst (gap ++ back) := by
    rw [BlankFirst, List.head?_append_of_ne_nil _ hne]
    exact fun c hc => hgap c (List.mem_of_mem_head? hc)
  have hback : scan lexeme (Text.byteLength (front ++ gap)) back =
      ((tokenize back).map (List.map (Placed.shift (Text.byteLength (front ++ gap))))).mapError
        (Error.shift (Text.byteLength (front ++ gap))) := scan_shift lexeme_shift 0 back
  have htokens : tokenize (front ++ gap ++ back) = (scan lexeme (Text.byteLength (front ++ gap)) back).map (ts ++ ·) := by
    rw [List.append_assoc, tokenize_before_blank hfront hblank, scan_blanks hgap, Text.byteLength_append]
  rw [htokens, hback]
  constructor
  · intro us hus
    rw [hus]
    rfl
  · intro e he
    obtain ⟨position, expected, rfl⟩ : ∃ position expected, e = .unexpected position expected := by
      obtain ⟨before, after, -, hlexeme⟩ := failsIn_of_scan lexeme_eq_append he
      obtain ⟨expected, rfl⟩ := lexeme_error hlexeme
      exact ⟨_, expected, rfl⟩
    rw [he]
    exact ⟨position, expected, rfl, rfl⟩

/-- A numeral does not go on with a point behind a blank, and an error keeps its place in the second text. -/
theorem tokenize_separated_point :
    tokenize "2".toList = .ok [⟨.number ⟨['2'], []⟩, 0⟩] ∧ [' ', '\u2003'] ≠ [] ∧
      (∀ c ∈ [' ', '\u2003'], Text.isBlank c) ∧
      tokenize ".5".toList = .ok [⟨.number ⟨[], ['5']⟩, 0⟩] ∧
      tokenize ("2".toList ++ [' ', '\u2003'] ++ ".5".toList) =
        .ok [⟨.number ⟨['2'], []⟩, 0⟩, ⟨.number ⟨[], ['5']⟩, 5⟩] ∧
      tokenize "x\\".toList = .error (.unexpected 1 .lexeme) ∧
      tokenize ("2".toList ++ [' ', '\u2003'] ++ "x\\".toList) = .error (.unexpected 6 .lexeme) := by
  have hfront : tokenize "2".toList = .ok [⟨.number ⟨['2'], []⟩, 0⟩] := by cbv
  have hgap : ∀ c ∈ [' ', '\u2003'], Text.isBlank c := by simp [Text.isBlank, Text.blankRuns]
  have hpoint : tokenize ".5".toList = .ok [⟨.number ⟨[], ['5']⟩, 0⟩] := by cbv
  have herror : tokenize "x\\".toList = .error (.unexpected 1 .lexeme) := by cbv
  obtain ⟨position, expected, he, hseparated⟩ := (tokenize_separated hfront (by simp) hgap).2 _ herror
  cases he
  exact ⟨hfront, by simp, hgap, hpoint, (tokenize_separated hfront (by simp) hgap).1 _ hpoint, herror, hseparated⟩

end Latex

end ExactAlgebra
