import ExactAlgebra.Proofs.Arithmetic.Positions
import ExactAlgebra.Proofs.Latex.Positions
import ExactAlgebra.Transformation

/-!
# Positions of errors of operations

A syntax error of an operation points into its text: the position comes from the parser or the evaluator of
calculations, or it is the beginning of a decimal. What happens after the text is read adds no other position.
-/

namespace ExactAlgebra

open Outcome (ErrorsSatisfy)

variable {limits : Limits} {text : List Char}

/-- The errors of an outcome have no position, or point to a boundary of characters of the text. -/
abbrev PointsInText (text : List Char) {α : Type} : Except Error α → Prop :=
  ErrorsSatisfy (PointsToBoundary Error.position? text)

namespace PointsInText

variable {α : Type}

theorem of_position?_eq_none {e : Error} (h : e.position? = none) :
    PointsInText text (.error e : Except Error α) := by
  refine .error fun position hposition => ?_
  rw [h] at hposition
  cases hposition

/-- Exceeding a limit has no position. -/
theorem mapError_tooComplex (x : Except Excess α) : PointsInText text (x.mapError .tooComplex) := by
  cases x with
  | ok a => exact .ok a
  | error excess => exact of_position?_eq_none rfl

/-- The error of a malformed decimal points to its beginning, and the other errors of rational numbers have no
position. -/
theorem mapError_ofRational (x : Except Rational.Error α) : PointsInText text (x.mapError .ofRational) := by
  cases x with
  | ok a => exact .ok a
  | error e =>
      cases e with
      | divisionByZero | invalidDenominator => exact of_position?_eq_none rfl
      | malformed literal =>
          refine .error ?_
          rintro _ ⟨⟩
          exact Text.isBoundary_zero text

/-- The operations keep the position of a syntax error, and leave out that of a denominator. -/
theorem mapError_ofLatex {x : Except Latex.Error α}
    (h : ErrorsSatisfy (PointsToBoundary Latex.Error.position? text) x) : PointsInText text (x.mapError .ofLatex) := by
  refine h.mapError fun e he => ?_
  cases e with
  | unexpected position expected => exact he
  | invalidDenominator position => exact nofun
  | tooDeep limit => exact nofun

end PointsInText

open PointsInText

/-! ## Expansion -/

namespace Polynomial

theorem divide_pointsInText (p q : Polynomial) : PointsInText text (p.divide q) := by
  unfold divide
  split
  · exact of_position?_eq_none rfl
  · split
    · exact mapError_ofRational (.error _)
    · exact .ok _

theorem power_pointsInText (p : Polynomial) (n : Int) : PointsInText text (p.power limits n) := by
  unfold power
  split
  · exact of_position?_eq_none rfl
  · split
    · exact mapError_tooComplex _
    · split
      · exact of_position?_eq_none rfl
      · split
        · exact (mapError_ofRational _).bind fun _ => (mapError_tooComplex _).bind fun _ => .ok _
        · exact of_position?_eq_none rfl

theorem sqrt_pointsInText (p : Polynomial) : PointsInText text p.sqrt := by
  unfold sqrt
  split
  · exact .ok _
  · exact of_position?_eq_none rfl

end Polynomial

theorem Operator.apply_pointsInText (op : Operator) (p q : Polynomial) : PointsInText text (op.apply limits p q) := by
  cases op with
  | add | sub => exact .ok _
  | mul => exact mapError_tooComplex _
  | div => exact p.divide_pointsInText q

namespace Expr

theorem expand_pointsInText (e : Expr) : PointsInText text (e.expand limits) := by
  induction e with
  | num value | var name => exact .ok _
  | binary op left right ihl ihr => exact ihl.bind fun p => ihr.bind fun q => op.apply_pointsInText p q
  | power base n ih => exact ih.bind fun p => p.power_pointsInText n
  | negate inner ih => exact ih.bind fun p => .ok _
  | group inner ih => exact ih
  | sqrt inner ih => exact ih.bind fun p => p.sqrt_pointsInText

theorem summandTerms_pointsInText (negated : Bool) (e : Expr) : PointsInText text (e.summandTerms limits negated) :=
  e.expand_pointsInText.bind fun _ => .ok _

theorem rawTermsSigned_pointsInText (negated : Bool) (e : Expr) :
    PointsInText text (e.rawTermsSigned limits negated) := by
  induction e generalizing negated with
  | binary op left right ihl ihr =>
      cases op with
      | add => exact (ihl negated).bind fun _ => (ihr negated).bind fun _ => .ok _
      | sub => exact (ihl negated).bind fun _ => (ihr (!negated)).bind fun _ => .ok _
      | mul | div => exact summandTerms_pointsInText negated _
  | negate inner ih => exact ih (!negated)
  | group inner ih => exact ih negated
  | num value => exact summandTerms_pointsInText negated _
  | var name => exact summandTerms_pointsInText negated _
  | power base n ih => exact summandTerms_pointsInText negated _
  | sqrt inner ih => exact summandTerms_pointsInText negated _

end Expr

/-! ## Indices -/

namespace Indices

theorem integerExponent_pointsInText (treatment : Treatment) (k : Rat) :
    PointsInText text (integerExponent limits treatment k) := by
  unfold integerExponent
  split
  · exact of_position?_eq_none rfl
  · split
    · exact .ok _
    · exact of_position?_eq_none rfl

theorem numberPower_pointsInText (treatment : Treatment) (value k : Rat) :
    PointsInText text (numberPower limits treatment value k) := by
  unfold numberPower
  split
  · exact .ok _
  · split
    · exact .ok _
    · exact (integerExponent_pointsInText treatment k).bind fun _ => (mapError_ofRational _).bind fun _ => .ok _

theorem chain_pointsInText (treatment : Treatment) (k : Rat) (e : Expr) :
    PointsInText text (chain limits treatment k e) := by
  induction e generalizing k with
  | num value => exact numberPower_pointsInText treatment value k
  | var name => exact .ok _
  | binary op left right ihl ihr =>
      cases op with
      | add | sub => exact of_position?_eq_none rfl
      | mul => exact (ihl k).bind fun _ => (ihr k).bind fun _ => .ok _
      | div => exact (ihl k).bind fun _ => (ihr (-k)).bind fun _ => .ok _
  | power base n ih => exact ih (k * n)
  | negate inner ih => exact (integerExponent_pointsInText treatment k).bind fun _ => (ih k).bind fun _ => .ok _
  | group inner ih => exact ih k
  | sqrt inner ih =>
      cases treatment with
      | kept => exact ih (k / 2)
      | folded => exact of_position?_eq_none rfl

end Indices

/-! ## Operations -/

theorem Expr.ofText_pointsInText (limits : Limits) (text : List Char) : PointsInText text (ofText limits text) :=
  mapError_ofLatex (Latex.parse_errors _ text)

theorem Polynomial.ofText_pointsInText (limits : Limits) (text : List Char) : PointsInText text (ofText limits text) :=
  (Expr.ofText_pointsInText limits text).bind fun e => e.expand_pointsInText

namespace Transformation

theorem expand_pointsInText (limits : Limits) (text : List Char) : PointsInText text (expand limits text) :=
  (Polynomial.ofText_pointsInText limits text).bind fun _ => .ok _

theorem reduce_pointsInText (limits : Limits) (text : List Char) : PointsInText text (reduce limits text) := by
  unfold reduce
  split
  · exact (mapError_ofRational _).bind fun _ => .ok _
  · exact expand_pointsInText limits text

theorem primeFactorize_pointsInText (limits : Limits) (text : List Char) :
    PointsInText text (primeFactorize limits text) := by
  refine (Polynomial.ofText_pointsInText limits text).bind fun p => ?_
  simp only
  split
  · exact of_position?_eq_none rfl
  · split
    · exact of_position?_eq_none rfl
    · split
      · exact of_position?_eq_none rfl
      · exact .ok _

theorem simplifyOneTerm_pointsInText (limits : Limits) (text : List Char) :
    PointsInText text (simplifyOneTerm limits text) := by
  refine (Expr.ofText_pointsInText limits text).bind fun e => (Indices.chain_pointsInText _ _ e).bind fun c => ?_
  split
  · exact of_position?_eq_none rfl
  · exact .ok _

theorem pointedDecimal_pointsInText (literal : List Char) (negative : Bool) (whole fraction : List Char) :
    PointsInText text (pointedDecimal literal negative whole fraction) := by
  have hinteger : PointsInText text (integerPart whole) := by
    unfold integerPart
    split
    · exact .ok _
    · exact mapError_ofRational _
  unfold pointedDecimal
  split
  · split
    · refine hinteger.bind fun _ => ?_
      split
      · exact of_position?_eq_none rfl
      · exact (mapError_ofRational _).bind fun _ => .ok _
    · exact (mapError_ofRational _).bind fun _ => .ok _
  · refine .error ?_
    rintro _ ⟨⟩
    exact Text.isBoundary_zero text

theorem decimalFraction_pointsInText (text : List Char) : PointsInText text (decimalFraction text) := by
  refine .map ?_ _
  unfold convertDecimal
  simp only
  split
  · exact (mapError_ofRational _).bind fun _ => .ok _
  · exact pointedDecimal_pointsInText _ _ _ _

end Transformation

theorem Operation.apply_pointsInText (limits : Limits) (op : Operation) (text : List Char) :
    PointsInText text (op.apply limits text) := by
  have htree := Expr.ofText_pointsInText limits text
  cases op with
  | combine => exact htree.bind fun e => (e.rawTermsSigned_pointsInText false).bind fun _ => .ok _
  | reduce => exact Transformation.reduce_pointsInText limits text
  | expand => exact Transformation.expand_pointsInText limits text
  | primeFactorize => exact Transformation.primeFactorize_pointsInText limits text
  | simplifyIndices => exact htree.bind fun e => (Indices.chain_pointsInText _ _ e).bind fun _ => .ok _
  | normalize => exact Transformation.expand_pointsInText limits text
  | decimalFraction => exact Transformation.decimalFraction_pointsInText text
  | simplifyOneTerm => exact Transformation.simplifyOneTerm_pointsInText limits text
  | numberCalculate => exact (Arithmetic.evaluate_errors limits text).map _

/-- A syntax error of an operation points to a boundary of characters of its text; the parser points to one of the
tokens or to the end. -/
theorem applyOperation_unexpected_position (limits : Limits) (text : List Char) :
    (∀ name position expected, applyOperation limits name text = .error (.unexpected position expected) →
        position ≤ Text.byteLength text ∧ Text.IsBoundary text position) ∧
      ∀ limit ts e, Latex.tokenize text = .ok ts → ts ≠ [] → Latex.parse limit text = .error e →
        ∀ position ∈ e.position?, (∃ t ∈ ts, t.offset = position) ∨ position = Text.byteLength text := by
  refine ⟨fun name position expected h => ?_, fun limit ts e hts hne h => Latex.parse_pointsInto hts hne h⟩
  unfold applyOperation at h
  split at h
  · rename_i op _
    have hboundary := op.apply_pointsInText limits text _ h position rfl
    exact ⟨hboundary.le, hboundary⟩
  · cases h

/-- Positions count bytes, of which the multiplication sign has two. -/
theorem applyOperation_unexpected_position_product :
    (applyOperation {} "expand" "2×(x+3\x7d".toList = .error (.unexpected 7 .closeParenthesis) ∧
        7 ≤ Text.byteLength "2×(x+3\x7d".toList ∧ Text.IsBoundary "2×(x+3\x7d".toList 7) ∧
      ∃ ts, Latex.tokenize "2×\\frac\x7bx\x7d\x7b0\x7d".toList = .ok ts ∧ ts ≠ [] ∧
        Latex.parse 8 "2×\\frac\x7bx\x7d\x7b0\x7d".toList = .error (.invalidDenominator 12) ∧
        ((∃ t ∈ ts, t.offset = 12) ∨ 12 = Text.byteLength "2×\\frac\x7bx\x7d\x7b0\x7d".toList) := by
  have hexpand : applyOperation {} "expand" "2×(x+3\x7d".toList = .error (.unexpected 7 .closeParenthesis) := by cbv
  have htokens : Latex.tokenize "2×\\frac\x7bx\x7d\x7b0\x7d".toList = .ok
      [⟨.number ⟨['2'], []⟩, 0⟩, ⟨.times, 1⟩, ⟨.frac, 3⟩, ⟨.openBrace, 8⟩, ⟨.letter 'x', 9⟩, ⟨.closeBrace, 10⟩,
        ⟨.openBrace, 11⟩, ⟨.number ⟨['0'], []⟩, 12⟩, ⟨.closeBrace, 13⟩] := by cbv
  have hparse : Latex.parse 8 "2×\\frac\x7bx\x7d\x7b0\x7d".toList = .error (.invalidDenominator 12) := by cbv
  exact ⟨⟨hexpand, (applyOperation_unexpected_position {} _).1 "expand" 7 _ hexpand⟩, _, htokens,
    List.cons_ne_nil _ _, hparse,
    (applyOperation_unexpected_position {} _).2 8 _ _ htokens (List.cons_ne_nil _ _) hparse 12 rfl⟩

end ExactAlgebra
