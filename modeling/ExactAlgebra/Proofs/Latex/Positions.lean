import ExactAlgebra.Latex.Parser
import ExactAlgebra.Proofs.Latex.Words
import ExactAlgebra.Proofs.Positions

/-!
# Positions of parse errors

Every error of the parser that has a position points to a token or to the end of the text, whichever reader it comes
from.
-/

namespace ExactAlgebra.Latex

open Outcome (ErrorsSatisfy)

/-- A reading of tokens from a text that ends at `f.stop` leaves a tail of `ts`, or points into `ts`. -/
abbrev Located (f : Frame) (ts : Tokens) {us : Tokens} {α : Type} : Except Error (Reading α us) → Prop :=
  ExactAlgebra.Located Error.position? f.stop ts

/-- The readers of the next level are located. -/
structure Deeper.Located (f : Frame) (deeper : Deeper) : Prop where
  expression : ∀ ts, Latex.Located f ts (deeper.expression ts)
  unary : ∀ ts, Latex.Located f ts (deeper.unary ts)
  exponent : ∀ ts, Latex.Located f ts (deeper.exponent ts)

variable {f : Frame} {ts us : Tokens} {α : Type}

/-! ## Single tokens -/

theorem isPlace_position (h : us ⊆ ts) : IsPlace f.stop ts (f.position us) := by
  cases us with
  | nil => exact .inr rfl
  | cons t us => exact .inl ⟨t, h List.mem_cons_self, rfl⟩

theorem pointsInto_unexpected {position : Nat} (h : IsPlace f.stop ts position) (expected : Expected) :
    PointsInto Error.position? f.stop ts (.unexpected position expected) := by
  rintro _ ⟨⟩
  exact h

theorem pointsInto_invalidDenominator {position : Nat} (h : IsPlace f.stop ts position) :
    PointsInto Error.position? f.stop ts (.invalidDenominator position) := by
  rintro _ ⟨⟩
  exact h

theorem pointsInto_tooDeep (limit : Nat) : PointsInto Error.position? f.stop ts (.tooDeep limit) := nofun

/-- Not finding something is an error at the next token. -/
theorem unexpected_located {vs : Tokens} (h : us <:+ ts) (expected : Expected) :
    Located f ts (.error (f.unexpected us expected) : Except Error (Reading α vs)) :=
  pointsInto_unexpected (isPlace_position h.subset) expected

theorem expect_located (token : Token) (expected : Expected) (ts : Tokens) :
    Located f ts (f.expect token expected ts) := by
  cases ts with
  | nil => exact unexpected_located List.suffix_rfl expected
  | cons t ts =>
      rw [Frame.expect]
      split
      · exact List.suffix_cons t ts
      · exact unexpected_located List.suffix_rfl expected

theorem argument_located {first last : Expected} {read : TokenReader α} (hread : ∀ ts, Located f ts (read ts))
    (ts : Tokens) : Located f ts (f.argument first last read ts) :=
  (expect_located _ _ ts).bind fun opened _ hopened =>
    ((hread opened.rest).mono hopened).bind fun inside _ hinside =>
      ((expect_located _ _ inside.rest).mono hinside).bind fun _ _ hclosed => hclosed

theorem tokens_of_argument {first last : Expected} {read : TokenReader α} {r : Reading (Frame.Argument α) ts}
    (h : f.argument first last read ts = .ok r) : r.value.tokens ⊆ ts := by
  obtain ⟨opened, hopened, h⟩ := Outcome.bind_eq_ok.1 h
  obtain ⟨inside, -, h⟩ := Outcome.bind_eq_ok.1 h
  obtain ⟨closed, -, h⟩ := Outcome.bind_eq_ok.1 h
  cases h
  have hlocated := expect_located (f := f) .openBrace first ts
  rw [hopened] at hlocated
  exact fun t ht => hlocated.subset (List.mem_of_mem_take ht)

/-! ## Exponents -/

theorem bracedExponent_located (negative : Bool) (ts : Tokens) : Located f ts (bracedExponent f negative ts) := by
  unfold bracedExponent
  split
  · split
    · exact ((expect_located _ _ _).mono (List.suffix_cons _ _)).bind fun _ _ hclosed => hclosed
    · exact unexpected_located List.suffix_rfl _
  · exact unexpected_located List.suffix_rfl _

theorem exponentDigits_located (ts : Tokens) : Located f ts (exponentDigits f ts) := by
  unfold exponentDigits
  split
  · exact ((bracedExponent_located true _).mono ((List.suffix_cons _ _).trans (List.suffix_cons _ _))).map fun _ => rfl
  · exact ((bracedExponent_located false _).mono (List.suffix_cons _ _)).map fun _ => rfl
  · split
    · exact List.suffix_cons _ _
    · exact unexpected_located List.suffix_rfl _
  · exact unexpected_located List.suffix_rfl _

theorem exponentLiteral_located (ts : Tokens) : Located f ts (exponentLiteral f ts) := by
  refine (exponentDigits_located ts).bind fun r _ hr => ?_
  split
  · exact hr
  · exact pointsInto_tooDeep _

theorem raise_errors {start : Nat} (hstart : IsPlace f.stop ts start) (base upper : Int) :
    ErrorsSatisfy (PointsInto Error.position? f.stop ts) (raise f start base upper) := by
  unfold raise
  split
  · split
    · exact .ok _
    · exact .error (pointsInto_tooDeep _)
  · exact .error (pointsInto_unexpected hstart _)

theorem exponentAbove_located {upper : TokenReader Int} (hupper : ∀ ts, Located f ts (upper ts)) (ts : Tokens) :
    Located f ts (exponentAbove f upper ts) := by
  refine (exponentLiteral_located ts).bind fun literal _ hliteral => Reading.extendOnce_located ?_ hliteral
  intro base us hus x hx
  simp only at hx
  split at hx
  · cases hx
    refine ((hupper _).mono ((List.suffix_cons _ _).trans hus)).bind fun above _ habove => ?_
    -- an upper exponent out of range is an error at the first token of the whole exponent
    have hstart : IsPlace f.stop ts (f.position ts) := isPlace_position (List.Subset.refl ts)
    exact .bind_step (raise_errors hstart _ _) fun _ => habove
  · cases hx

theorem exponent_located (depth : Nat) (ts : Tokens) : Located f ts (exponent f depth ts) := by
  induction depth generalizing ts with
  | zero =>
      have hupper (us : Tokens) : Located f us ((f.tooDeep : TokenReader Int) us) := pointsInto_tooDeep _
      exact exponentAbove_located hupper ts
  | succ depth ih => exact exponentAbove_located ih ts

/-! ## Atoms -/

theorem quotient_errors (numerator : Frame.Argument Expr) {denominator : Frame.Argument Expr}
    (hdenominator : denominator.tokens ⊆ ts) :
    ErrorsSatisfy (PointsInto Error.position? f.stop ts) (quotient f numerator denominator) := by
  unfold quotient
  split
  · exact .ok _
  · split
    · exact .error (pointsInto_invalidDenominator (isPlace_position hdenominator))
    · split
      · split
        · exact .ok _
        · exact .ok _
      · exact .ok _

theorem literalFraction_located {r : Reading LiteralFraction ts} (h : LiteralFraction.read? ts = some r) :
    r.rest <:+ ts ∧ IsPlace f.stop ts r.value.position := by
  unfold LiteralFraction.read? at h
  split at h
  · split at h
    · rename_i d position _ _ _
      cases h
      exact ⟨⟨_ :: _ :: _ :: _ :: _ :: _ :: [_], rfl⟩, .inl ⟨⟨.number d, position⟩, by simp, rfl⟩⟩
    · cases h
  · cases h

theorem afterNumeral_located (n : Numeral) (ts : Tokens) :
    ContinuationLocated Error.position? f.stop ts (afterNumeral n) := by
  intro whole us hus x hx
  unfold afterNumeral at hx
  split at hx
  · obtain ⟨part, hpart, rfl⟩ := Option.map_eq_some_iff.1 hx
    obtain ⟨hrest, hplace⟩ := literalFraction_located (f := f) hpart
    unfold mixedNumber
    split
    · exact pointsInto_invalidDenominator (hplace.mono hus.subset)
    · exact hrest.trans hus
  · cases hx

section Deeper

variable {deeper : Deeper} (hdeeper : deeper.Located f)
include hdeeper

theorem fractionArguments_located (ts : Tokens) : Located f ts (fractionArguments f deeper ts) := by
  refine (argument_located hdeeper.expression ts).bind fun numerator _ hnumerator => ?_
  refine ((argument_located hdeeper.expression numerator.rest).mono hnumerator).bind
    fun denominator hdenominator hrest => ?_
  have htokens : denominator.value.tokens ⊆ ts := List.Subset.trans (tokens_of_argument hdenominator) hnumerator.subset
  exact .bind_step (quotient_errors _ htokens) fun _ => hrest

theorem atom_located (ts : Tokens) : Located f ts (atom f deeper ts) := by
  have hsuffix {t : Placed Token} {rest : Tokens} : rest <:+ t :: rest := List.suffix_cons t rest
  unfold atom
  split
  · split
    · exact (Reading.extendOnce_located (afterNumeral_located _ _) hsuffix).bind fun _ _ hnumber => hnumber
    · exact unexpected_located List.suffix_rfl _
  · exact hsuffix
  · exact ((hdeeper.expression _).mono hsuffix).bind fun inside _ hinside =>
      ((expect_located _ _ inside.rest).mono hinside).bind fun _ _ hclosed => hclosed
  · exact ((hdeeper.expression _).mono hsuffix).bind fun inside _ hinside =>
      ((expect_located _ _ inside.rest).mono hinside).bind fun _ _ hclosed => hclosed
  · exact ((fractionArguments_located hdeeper _).mono hsuffix).map fun _ => rfl
  · exact ((argument_located hdeeper.expression _).mono hsuffix).bind fun _ _ hradicand => hradicand
  · exact unexpected_located List.suffix_rfl _

/-! ## Powers, terms and sums -/

theorem power_located (ts : Tokens) : Located f ts (power f deeper ts) := by
  refine (atom_located hdeeper ts).bind fun base _ hbase => Reading.extendOnce_located ?_ hbase
  intro base us hus x hx
  simp only at hx
  split at hx
  · cases hx
    exact ((hdeeper.exponent _).mono ((List.suffix_cons _ _).trans hus)).map fun _ => rfl
  · cases hx

theorem unary_located (ts : Tokens) : Located f ts (unary f deeper ts) := by
  unfold unary
  split
  · exact ((hdeeper.unary _).mono (List.suffix_cons _ _)).map fun _ => rfl
  · exact ((hdeeper.unary _).mono (List.suffix_cons _ _)).map fun _ => rfl
  · exact power_located hdeeper ts

theorem factor_located (ts : Tokens) : ContinuationLocated Error.position? f.stop ts (factor f deeper) := by
  intro left us hus x hx
  unfold factor at hx
  split at hx
  · cases hx
    exact ((unary_located hdeeper _).mono ((List.suffix_cons _ _).trans hus)).map fun _ => rfl
  · cases hx
    exact ((unary_located hdeeper _).mono ((List.suffix_cons _ _).trans hus)).map fun _ => rfl
  · split at hx
    · cases hx
      exact ((power_located hdeeper _).mono hus).map fun _ => rfl
    · cases hx
  · cases hx

theorem term_located (ts : Tokens) : Located f ts (term f deeper ts) :=
  (unary_located hdeeper ts).bind fun _ _ hfirst => Reading.extend_located (factor_located hdeeper ts) hfirst

theorem summand_located (ts : Tokens) : ContinuationLocated Error.position? f.stop ts (summand f deeper) := by
  intro left us hus x hx
  unfold summand at hx
  split at hx
  · cases hx
    exact ((term_located hdeeper _).mono ((List.suffix_cons _ _).trans hus)).map fun _ => rfl
  · cases hx
    exact ((term_located hdeeper _).mono ((List.suffix_cons _ _).trans hus)).map fun _ => rfl
  · cases hx

theorem sum_located (ts : Tokens) : Located f ts (sum f deeper ts) :=
  (term_located hdeeper ts).bind fun _ _ hfirst => Reading.extend_located (summand_located hdeeper ts) hfirst

end Deeper

/-! ## Nesting -/

theorem nested_located (depth : Nat) (nesting : Nesting) (ts : Tokens) : Located f ts (nested f depth nesting ts) := by
  induction depth generalizing nesting ts with
  | zero => exact pointsInto_tooDeep _
  | succ depth ih =>
      have hdeeper : Deeper.Located f ⟨nested f depth .expression, nested f depth .unary, exponent f depth⟩ :=
        ⟨ih .expression, ih .unary, exponent_located depth⟩
      cases nesting with
      | expression => exact sum_located hdeeper ts
      | unary => exact unary_located hdeeper ts

/-- An error of the parser points to one of the tokens or to the end of the text. -/
theorem expressionOf_errors (f : Frame) (ts : Tokens) :
    ErrorsSatisfy (PointsInto Error.position? f.stop ts) (expressionOf f ts) := by
  intro e he
  have hlocated := nested_located (f := f) f.limit .expression ts
  rcases Outcome.bind_eq_error.1 he with hread | ⟨r, hread, he⟩
  · rwa [hread] at hlocated
  · rw [hread] at hlocated
    split at he
    · cases he
    · rename_i hrest
      cases he
      exact pointsInto_unexpected (isPlace_position (hrest ▸ hlocated.subset)) _

/-- An error of a text with tokens points to one of them or to the end of the text. -/
theorem parse_pointsInto {limit : Nat} {text : List Char} (hts : tokenize text = .ok ts) (hne : ts ≠ []) {e : Error}
    (h : parse limit text = .error e) : PointsInto Error.position? (Text.byteLength text) ts e := by
  rw [parse, hts, Outcome.ok_bind, if_neg (by simpa using hne)] at h
  exact expressionOf_errors _ _ e h

/-! ## Places in the text -/

theorem lexeme_errors (offset : Nat) (cs : List Char) :
    ErrorsSatisfy (PointsTo Error.position? offset) (lexeme offset cs) := by
  intro e he
  obtain ⟨expected, rfl⟩ := lexeme_error he
  rintro _ ⟨⟩
  rfl

/-- Every position of an error of the parser is a boundary of characters of the text. -/
theorem parse_errors (limit : Nat) (text : List Char) :
    ErrorsSatisfy (PointsToBoundary Error.position? text) (parse limit text) := by
  have hempty : PointsTo Error.position? 0 (.unexpected 0 .expression) := by
    rintro _ ⟨⟩
    rfl
  exact scan_bind_errors lexeme_eq_append lexeme_errors hempty (expressionOf_errors _)

end ExactAlgebra.Latex
