import ExactAlgebra.Proofs.Decimal.Repetition
import ExactAlgebra.Proofs.Latex.Spelling
import ExactAlgebra.Proofs.Outcome
import ExactAlgebra.Transformation
import Mathlib

/-!
# Converting decimals

Which texts with a point are decimals, and the number that each of them is converted to. The conversion and the test
that offers it read a text in their own ways, and both are compared with how the literal is written.
-/

namespace ExactAlgebra

/-- Nothing or one sign, and whether it is a minus. -/
inductive SignText : List Char → Bool → Prop
  | none : SignText [] false
  | plus : SignText ['+'] false
  | minus : SignText ['-'] true

/-- Between blanks stands nothing but a sign, digits, a point and digits, and there is a digit. -/
structure PointedLiteral (text : List Char) (negative : Bool) (whole fraction : List Char) : Prop where
  spelling : ∃ sign, SignText sign negative ∧ Text.trim text = sign ++ (whole ++ '.' :: fraction)
  digits : ∀ c ∈ whole ++ fraction, c.isDigit
  ne_nil : whole ++ fraction ≠ []

variable {text sign body whole fraction block : List Char} {negative : Bool}

/-! ## Signs, points and blanks -/

theorem Text.trim_eq_self {cs : List Char} (h : ∀ c ∈ cs, Text.isBlank c = false) : Text.trim cs = cs := by
  have hleft {ds : List Char} (hds : ∀ d ∈ ds, Text.isBlank d = false) : Text.trimLeft ds = ds := by
    rw [Text.trimLeft, List.dropWhile_eq_self_iff]
    intro hpos
    simp [hds]
  rw [Text.trim, Text.trimRight, hleft h, hleft (by simpa using h), List.reverse_reverse]

theorem Text.isBlank_of_isDigit {c : Char} (h : c.isDigit) : Text.isBlank c = false :=
  Text.isBlank_eq_false (by have := Text.toNat_of_isDigit h; omega)

theorem Text.splitAtFirst_point (h : ∀ c ∈ whole, c.isDigit) :
    Text.splitAtFirst '.' (whole ++ '.' :: fraction) = some (whole, fraction) :=
  Text.splitAtFirst_eq_some_iff.2 ⟨rfl, fun hmem => by cases h _ hmem⟩

namespace SignText

theorem isBlank (h : SignText sign negative) : ∀ c ∈ sign, Text.isBlank c = false := by
  cases h <;> simp [Text.isBlank_eq_false]

theorem point_notMem (h : SignText sign negative) : '.' ∉ sign := by
  cases h <;> decide

theorem splitSign_append (h : SignText sign negative) (hbody : ∀ c ∈ body.head?, c ≠ '-' ∧ c ≠ '+') :
    Decimal.splitSign (sign ++ body) = (negative, body) := by
  cases h with
  | none =>
      rw [List.nil_append]
      unfold Decimal.splitSign
      split
      · cases (hbody '-' rfl).1 rfl
      · cases (hbody '+' rfl).2 rfl
      · rfl
  | plus => rfl
  | minus => rfl

end SignText

theorem exists_sign_append (cs : List Char) :
    ∃ sign, SignText sign (Decimal.splitSign cs).1 ∧ cs = sign ++ (Decimal.splitSign cs).2 := by
  unfold Decimal.splitSign
  split
  · exact ⟨_, .minus, rfl⟩
  · exact ⟨_, .plus, rfl⟩
  · exact ⟨_, .none, rfl⟩

theorem ne_sign_of_isDigit {c : Char} (h : c.isDigit) : c ≠ '-' ∧ c ≠ '+' := by
  constructor <;> rintro rfl <;> cases h

/-- No sign stands where digits and a point begin. -/
theorem splitSign_pointed (hsign : SignText sign negative) (hdigits : ∀ c ∈ whole, c.isDigit) :
    Decimal.splitSign (sign ++ (whole ++ '.' :: fraction)) = (negative, whole ++ '.' :: fraction) := by
  refine hsign.splitSign_append fun c hc => ?_
  cases whole with
  | nil => cases hc; decide
  | cons d ds =>
      cases hc
      exact ne_sign_of_isDigit (hdigits _ (by simp))

theorem splitSign_digits (hdigits : ∀ c ∈ whole, c.isDigit) : Decimal.splitSign whole = (false, whole) := by
  exact SignText.none.splitSign_append fun c hc => ne_sign_of_isDigit (hdigits c (List.mem_of_mem_head? hc))

/-! ## Literals -/

namespace PointedLiteral

theorem digits_whole (h : PointedLiteral text negative whole fraction) : ∀ c ∈ whole, c.isDigit :=
  (List.forall_mem_append.1 h.digits).1

theorem splitSign_eq (h : PointedLiteral text negative whole fraction) :
    Decimal.splitSign (Text.trim text) = (negative, whole ++ '.' :: fraction) := by
  obtain ⟨sign, hsign, htext⟩ := h.spelling
  rw [htext, splitSign_pointed hsign h.digits_whole]

end PointedLiteral

/-- The parts of a literal are what it is split into at its sign and its first point. -/
theorem pointedLiteral_iff {sign : Bool} (hsplit : Decimal.splitSign (Text.trim text) = (sign, body)) :
    PointedLiteral text negative whole fraction ↔
      negative = sign ∧ Text.splitAtFirst '.' body = some (whole, fraction) ∧
        (∀ c ∈ whole ++ fraction, c.isDigit) ∧ whole ++ fraction ≠ [] := by
  constructor
  · intro h
    rw [h.splitSign_eq] at hsplit
    cases hsplit
    exact ⟨rfl, Text.splitAtFirst_point h.digits_whole, h.digits, h.ne_nil⟩
  · rintro ⟨rfl, hpoint, hdigits, hne⟩
    obtain ⟨rfl, -⟩ := Text.splitAtFirst_eq_some_iff.1 hpoint
    obtain ⟨signText, hsign, htext⟩ := exists_sign_append (Text.trim text)
    rw [hsplit] at hsign htext
    exact ⟨⟨signText, hsign, htext⟩, hdigits, hne⟩

theorem isPointed_iff :
    Decimal.isPointed text ↔ ∃ negative whole fraction, PointedLiteral text negative whole fraction := by
  rcases hsplit : Decimal.splitSign (Text.trim text) with ⟨sign, body⟩
  simp only [Decimal.isPointed, hsplit, pointedLiteral_iff hsplit]
  cases hpoint : Text.splitAtFirst '.' body with
  | none => simp
  | some parts =>
      obtain ⟨whole, fraction⟩ := parts
      obtain ⟨rfl, -⟩ := Text.splitAtFirst_eq_some_iff.1 hpoint
      have hlength : 1 < (whole ++ '.' :: fraction).length ↔ whole ++ fraction ≠ [] := by
        rw [← List.length_pos_iff, List.length_append, List.length_append, List.length_cons]
        omega
      simp only [Bool.and_eq_true, List.all_eq_true, decide_eq_true_eq, hlength, ← List.forall_mem_append]
      constructor
      · rintro ⟨hdigits, hne⟩
        exact ⟨sign, whole, fraction, rfl, rfl, hdigits, hne⟩
      · rintro ⟨_, _, _, -, hparts, hdigits, hne⟩
        cases hparts
        exact ⟨hdigits, hne⟩

namespace Decimal

theorem read?_of_parts {cs : List Char} {numeral : Numeral} (hblank : ∀ c ∈ cs, Text.isBlank c = false)
    (hsign : splitSign cs = (negative, body)) (hpoint : splitPoint body = numeral)
    (hdigits : ∀ c ∈ numeral.whole ++ numeral.fraction, c.isDigit) (hne : numeral.whole ++ numeral.fraction ≠ []) :
    read? cs = some ⟨negative, numeral⟩ := by
  have hempty : ¬ (numeral.whole.isEmpty && numeral.fraction.isEmpty) := by simpa using hne
  rw [read?, Text.trim_eq_self hblank, hsign]
  simp only [hpoint]
  rw [if_neg hempty, if_pos (List.all_eq_true.2 hdigits)]

theorem read?_pointed (hsign : SignText sign negative) (hdigits : ∀ c ∈ whole ++ fraction, c.isDigit)
    (hne : whole ++ fraction ≠ []) :
    read? (sign ++ (whole ++ '.' :: fraction)) = some ⟨negative, ⟨whole, fraction⟩⟩ := by
  obtain ⟨hwhole, hfraction⟩ := List.forall_mem_append.1 hdigits
  refine read?_of_parts ?_ (splitSign_pointed hsign hwhole) ?_ hdigits hne
  · simp only [List.forall_mem_append, List.forall_mem_cons]
    exact ⟨hsign.isBlank, fun c hc => Text.isBlank_of_isDigit (hwhole c hc), by decide,
      fun c hc => Text.isBlank_of_isDigit (hfraction c hc)⟩
  · rw [splitPoint, Text.splitAtFirst_point hwhole]

theorem read?_digits (hdigits : ∀ c ∈ whole, c.isDigit) (hne : whole ≠ []) :
    read? whole = some ⟨false, ⟨whole, []⟩⟩ := by
  have hpoint : Text.splitAtFirst '.' whole = none :=
    Text.splitAtFirst_eq_none_iff.2 fun hmem => by cases hdigits _ hmem
  refine read?_of_parts (fun c hc => Text.isBlank_of_isDigit (hdigits c hc)) (splitSign_digits hdigits) ?_
    (by simpa using hdigits) (by simpa using hne)
  rw [splitPoint, hpoint]

/-- A point alone is no literal, whatever the sign. -/
theorem read?_point (hsign : SignText sign negative) : read? (sign ++ ['.']) = none := by
  cases hsign <;> rfl

end Decimal

/-- The digits before the point, and those after it as parts of one. -/
theorem Numeral.value_eq (n : Numeral) :
    n.value = Text.natural n.whole + (Text.natural n.fraction : ℚ) / 10 ^ n.fraction.length := by
  have hpow : (10 : ℚ) ^ n.fraction.length ≠ 0 := by positivity
  have hcast : ((Nat.pow 10 n.fraction.length : ℕ) : ℚ) = 10 ^ n.fraction.length := Nat.cast_pow 10 _
  rw [value, digitsValue, natural_append, Rat.mkRat_eq_div, hcast]
  push_cast
  rw [add_div, mul_div_cancel_right₀ _ hpow]

/-! ## Conversion -/

/-- A number with the sign of a literal. -/
def withSign (negative : Bool) (magnitude : ℚ) : ℚ := if negative then -magnitude else magnitude

/-- The conversion divides by a power of ten, or by one less, for more digits than 32 bits count: those of the shortest
block that is repeated, or else all that follow the point. -/
inductive TooManyDigits (fraction : List Char) : Prop
  | block {block : List Char} :
      Repeats fraction → ShortestBlock block fraction → 2 ^ 32 ≤ block.length → TooManyDigits fraction
  | places : ¬ Repeats fraction → 2 ^ 32 ≤ fraction.length → TooManyDigits fraction

theorem not_tooManyDigits (hplaces : fraction.length < 2 ^ 32) : ¬ TooManyDigits fraction := by
  rintro (⟨⟨hlength, -⟩, hblock, hlong⟩ | ⟨-, hlong⟩)
  · have hne : fraction ≠ [] := List.length_pos_iff.1 (by omega)
    have := (hblock.repetition.length_mem hne).2
    omega
  · omega

namespace Transformation

theorem terminatingDecimal_pointed (hsign : SignText sign negative) (hdigits : ∀ c ∈ whole ++ fraction, c.isDigit)
    (hne : whole ++ fraction ≠ []) :
    terminatingDecimal (sign ++ (whole ++ '.' :: fraction)) =
      if fraction.length < 2 ^ 32 then
        .ok ⟨withSign negative (Text.natural whole + Text.natural fraction / 10 ^ fraction.length), none⟩
      else .error (.unexpected 0 .decimal) := by
  rw [terminatingDecimal, Rational.ofDecimal, String.toList_ofList, Decimal.read?_pointed hsign hdigits hne]
  simp only [Numeral.isScalable_iff, Decimal.value, Decimal.signed, Numeral.value_eq, withSign]
  split <;> rfl

theorem terminatingDecimal_point (hsign : SignText sign negative) :
    ∃ e, terminatingDecimal (sign ++ ['.']) = .error e := by
  rw [terminatingDecimal, Rational.ofDecimal, String.toList_ofList, Decimal.read?_point hsign]
  exact ⟨_, rfl⟩

theorem integerPart_digits (hdigits : ∀ c ∈ whole, c.isDigit) : integerPart whole = .ok (Text.natural whole : ℚ) := by
  cases whole with
  | nil => rfl
  | cons d ds =>
      rw [integerPart, Rational.ofDecimal, String.toList_ofList, Decimal.read?_digits hdigits (by simp)]
      simp [Numeral.isScalable_iff, Decimal.value, Decimal.signed, Numeral.value_eq, Text.natural]

theorem repeatingDecimal_digits (hdigits : ∀ c ∈ whole, c.isDigit) (hne : block ≠ []) :
    repeatingDecimal negative whole block =
      if block.length < 2 ^ 32 then
        .ok ⟨withSign negative (Text.natural whole + Text.natural block / (10 ^ block.length - 1)), some block⟩
      else .error (.tooComplex .repeatingBlock) := by
  have hpow : Int.pow 10 block.length = 10 ^ block.length := rfl
  have hnines : (10 : ℤ) ^ block.length - 1 ≠ 0 :=
    (sub_pos.2 (one_lt_pow₀ (by norm_num) (by simpa using hne))).ne'
  rw [repeatingDecimal, integerPart_digits hdigits, Outcome.ok_bind]
  simp only [Decimal.maxPlaces_lt_iff, ite_not, hpow, Rational.ofFraction, if_neg hnines, Rat.divInt_eq_div]
  split
  · push_cast
    rfl
  · rfl

/-! ### Texts with a point -/

theorem convertDecimal_eq_pointedDecimal
    (hsplit : Decimal.splitSign (Text.trim text) = (negative, whole ++ '.' :: fraction)) (hpoint : '.' ∉ whole) :
    convertDecimal text = pointedDecimal (Text.trim text) negative whole fraction := by
  have hparts : Text.splitAtFirst '.' (whole ++ '.' :: fraction) = some (whole, fraction) :=
    Text.splitAtFirst_eq_some_iff.2 ⟨rfl, hpoint⟩
  simp only [convertDecimal, hsplit, hparts]

theorem pointedDecimal_digits {literal : List Char} (hdigits : ∀ c ∈ whole ++ fraction, c.isDigit) :
    pointedDecimal literal negative whole fraction =
      (repeatingBlock? fraction).elim (terminatingDecimal literal) (repeatingDecimal negative whole) := by
  have hall : whole.all Char.isDigit && fraction.all Char.isDigit := by
    rwa [← List.all_append, List.all_eq_true]
  rw [pointedDecimal, if_pos hall]
  cases repeatingBlock? fraction <;> rfl

theorem convertDecimal_literal (h : PointedLiteral text negative whole fraction) :
    convertDecimal text =
      (repeatingBlock? fraction).elim (terminatingDecimal (Text.trim text)) (repeatingDecimal negative whole) := by
  have hpoint : '.' ∉ whole := fun hmem => by cases h.digits_whole _ hmem
  rw [convertDecimal_eq_pointedDecimal h.splitSign_eq hpoint, pointedDecimal_digits h.digits]

theorem convertDecimal_of_repeats (h : PointedLiteral text negative whole fraction) (hrepeats : Repeats fraction) :
    ∃ block, ShortestBlock block fraction ∧ (∀ b, ¬ Repetition b block) ∧ block.length ≤ fraction.length ∧
      convertDecimal text =
        if block.length < 2 ^ 32 then
          .ok ⟨withSign negative (Text.natural whole + Text.natural fraction / (10 ^ fraction.length - 1)),
            some block⟩
        else .error (.tooComplex .repeatingBlock) := by
  cases hblock : repeatingBlock? fraction with
  | none => exact absurd hrepeats (repeatingBlock?_eq_none_iff.1 hblock)
  | some block =>
      obtain ⟨hlength, -, hshortest⟩ := repeatingBlock?_eq_some_iff.1 hblock
      have hne : fraction ≠ [] := List.length_pos_iff.1 (by omega)
      obtain ⟨hpos, hle⟩ := hshortest.repetition.length_mem hne
      refine ⟨block, hshortest, hshortest.not_repetition hne, by omega, ?_⟩
      rw [convertDecimal_literal h, hblock, ← hshortest.repetition.nines hne]
      exact repeatingDecimal_digits h.digits_whole (List.length_pos_iff.1 hpos)

theorem convertDecimal_of_not_repeats (h : PointedLiteral text negative whole fraction)
    (hrepeats : ¬ Repeats fraction) :
    convertDecimal text =
      if fraction.length < 2 ^ 32 then
        .ok ⟨withSign negative (Text.natural whole + Text.natural fraction / 10 ^ fraction.length), none⟩
      else .error (.unexpected 0 .decimal) := by
  obtain ⟨sign, hsign, htext⟩ := h.spelling
  rw [convertDecimal_literal h, repeatingBlock?_eq_none_iff.2 hrepeats, htext]
  exact terminatingDecimal_pointed hsign h.digits h.ne_nil

/-- Nothing but the number of digits keeps a literal from being converted. -/
theorem exists_convertDecimal_iff (h : PointedLiteral text negative whole fraction) :
    (∃ c, convertDecimal text = .ok c) ↔ ¬ TooManyDigits fraction := by
  by_cases hrepeats : Repeats fraction
  · obtain ⟨block, hshortest, -, -, hconversion⟩ := convertDecimal_of_repeats h hrepeats
    rw [hconversion]
    split
    · rename_i hplaces
      refine iff_of_true ⟨_, rfl⟩ ?_
      rintro (⟨-, hblock, hlong⟩ | ⟨hnot, -⟩)
      · have := hblock.length_le block hshortest.repetition
        omega
      · exact hnot hrepeats
    · rename_i hplaces
      exact iff_of_false nofun (not_not.2 (.block hrepeats hshortest (not_lt.1 hplaces)))
  · rw [convertDecimal_of_not_repeats h hrepeats]
    split
    · rename_i hplaces
      exact iff_of_true ⟨_, rfl⟩ (not_tooManyDigits hplaces)
    · rename_i hplaces
      exact iff_of_false nofun (not_not.2 (.places hrepeats (not_lt.1 hplaces)))

theorem convertDecimal_of_not_literal (hpoint : '.' ∈ Text.trim text)
    (h : ∀ negative whole fraction, ¬ PointedLiteral text negative whole fraction) :
    ∃ e, convertDecimal text = .error e := by
  rcases hsplit : Decimal.splitSign (Text.trim text) with ⟨negative, body⟩
  obtain ⟨sign, hsign, htext⟩ := exists_sign_append (Text.trim text)
  rw [hsplit] at hsign htext
  cases hparts : Text.splitAtFirst '.' body with
  | none =>
      have hbody := Text.splitAtFirst_eq_none_iff.1 hparts
      rw [htext] at hpoint
      exact absurd hpoint (List.not_mem_append hsign.point_notMem hbody)
  | some parts =>
      obtain ⟨whole, fraction⟩ := parts
      obtain ⟨rfl, hwhole⟩ := Text.splitAtFirst_eq_some_iff.1 hparts
      rw [convertDecimal_eq_pointedDecimal hsplit hwhole]
      by_cases hdigits : ∀ c ∈ whole ++ fraction, c.isDigit
      · -- only digits, and yet no literal: the point stands alone
        have hempty : whole ++ fraction = [] :=
          not_not.1 fun hne => h _ _ _ ((pointedLiteral_iff hsplit).2 ⟨rfl, hparts, hdigits, hne⟩)
        obtain ⟨rfl, rfl⟩ := List.append_eq_nil_iff.1 hempty
        rw [pointedDecimal_digits hdigits, htext]
        exact terminatingDecimal_point hsign
      · rw [← List.all_eq_true, List.all_append] at hdigits
        exact ⟨_, if_neg hdigits⟩

/-- A text with a point in it is converted just when it is offered for it, and that is when it is a literal. What
follows the point is taken to repeat without end where it is some digits written at least twice. -/
theorem convertDecimal_pointed (text : List Char) (hpoint : '.' ∈ Text.trim text)
    (hplaces : ∀ negative whole fraction,
      PointedLiteral text negative whole fraction → fraction.length < 2 ^ 32) :
    ((∃ c, convertDecimal text = .ok c) ↔ Decimal.isPointed text) ∧
      (Decimal.isPointed text ↔ ∃ negative whole fraction, PointedLiteral text negative whole fraction) ∧
      ∀ negative whole fraction, PointedLiteral text negative whole fraction →
        (Repeats fraction → ∃ block, ShortestBlock block fraction ∧ (∀ b, ¬ Repetition b block) ∧
          convertDecimal text =
            .ok ⟨withSign negative (Text.natural whole + Text.natural fraction / (10 ^ fraction.length - 1)),
              some block⟩) ∧
        (¬ Repeats fraction →
          convertDecimal text =
            .ok ⟨withSign negative (Text.natural whole + Text.natural fraction / 10 ^ fraction.length), none⟩) := by
  refine ⟨?_, isPointed_iff, fun negative whole fraction h => ⟨fun hrepeats => ?_, fun hrepeats => ?_⟩⟩
  rotate_left
  · obtain ⟨block, hshortest, hblock, hle, hconversion⟩ := convertDecimal_of_repeats h hrepeats
    rw [if_pos (hle.trans_lt (hplaces _ _ _ h))] at hconversion
    exact ⟨block, hshortest, hblock, hconversion⟩
  · rw [convertDecimal_of_not_repeats h hrepeats, if_pos (hplaces _ _ _ h)]
  rw [isPointed_iff]
  constructor
  · rintro ⟨c, hc⟩
    by_contra hnone
    simp only [not_exists] at hnone
    obtain ⟨e, he⟩ := convertDecimal_of_not_literal hpoint hnone
    rw [he] at hc
    cases hc
  · rintro ⟨negative, whole, fraction, h⟩
    exact (exists_convertDecimal_iff h).2 (not_tooManyDigits (hplaces _ _ _ h))

theorem convertDecimal_pointed_repeating :
    '.' ∈ Text.trim "-1.1212".toList ∧
      (∀ negative whole fraction,
        PointedLiteral "-1.1212".toList negative whole fraction → fraction.length < 2 ^ 32) ∧
      convertDecimal "-1.1212".toList = .ok ⟨-37 / 33, some ['1', '2']⟩ := by
  have htrim : Text.trim "-1.1212".toList = "-1.1212".toList := by cbv
  have hpoint : '.' ∈ Text.trim "-1.1212".toList := by rw [htrim]; decide
  have hsplit : Decimal.splitSign (Text.trim "-1.1212".toList) = (true, "1.1212".toList) := by
    rw [htrim]
    rfl
  have hplaces : ∀ negative whole fraction,
      PointedLiteral "-1.1212".toList negative whole fraction → fraction.length < 2 ^ 32 := by
    intro negative whole fraction h
    obtain ⟨-, hparts, -⟩ := (pointedLiteral_iff hsplit).1 h
    cases hparts
    decide
  have hliteral : PointedLiteral "-1.1212".toList true ['1'] ['1', '2', '1', '2'] :=
    (pointedLiteral_iff hsplit).2 ⟨rfl, by rfl, by simp, by decide⟩
  have hrepeats : Repeats ['1', '2', '1', '2'] := ⟨by decide, by simp, ['1', '2'], 2, by decide, by decide⟩
  obtain ⟨block, hblock, -, hconversion⟩ :=
    ((convertDecimal_pointed _ hpoint hplaces).2.2 true _ _ hliteral).1 hrepeats
  have hsome : repeatingBlock? ['1', '2', '1', '2'] = some ['1', '2'] := by cbv
  rw [repeatingBlock?_eq_some_iff.2 ⟨hrepeats.1, hrepeats.2.1, hblock⟩] at hsome
  cases hsome
  refine ⟨hpoint, hplaces, hconversion.trans ?_⟩
  have hwhole : Text.natural ['1'] = 1 := by cbv
  have hfraction : Text.natural ['1', '2', '1', '2'] = 1212 := by cbv
  have hlength : ['1', '2', '1', '2'].length = 4 := by cbv
  rw [hwhole, hfraction, hlength, withSign]
  norm_num

end Transformation

end ExactAlgebra
