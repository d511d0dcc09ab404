import ExactAlgebra.Arithmetic.Evaluate
import ExactAlgebra.Proofs.Limits.Agreement

/-!
# Parsing within smaller limits

The depth limit decides only how far readers may nest. A reader with fewer levels left has the outcome of one with
more levels, or it fails because the nesting is too deep.
-/

namespace ExactAlgebra

open Outcome (AgreesUnless)
open Reading (ContinuationsAgree extendOnce_agrees extend_agrees)

namespace Latex

/-- The nesting was too deep. -/
def Error.IsTooDeep (e : Error) : Prop := ∃ limit, e = .tooDeep limit

/-- The outcome is the other one, or the nesting is too deep. -/
abbrev Agrees {α : Type} : Except Error α → Except Error α → Prop := AgreesUnless Error.IsTooDeep

theorem agrees_tooDeep {α : Type} {limit : Nat} (y : Except Error α) : Agrees (.error (.tooDeep limit)) y :=
  .error ⟨limit, rfl⟩ y

/-- The readers of the next level agree. -/
structure Deeper.AgreesWith (deeper deeper' : Deeper) : Prop where
  expression : ∀ ts, Agrees (deeper.expression ts) (deeper'.expression ts)
  unary : ∀ ts, Agrees (deeper.unary ts) (deeper'.unary ts)
  exponent : ∀ ts, Agrees (deeper.exponent ts) (deeper'.exponent ts)

variable {f f' : Frame} {deeper deeper' : Deeper}

/-! ## Single tokens -/

theorem position_congr (hstop : f.stop = f'.stop) : f.position = f'.position := by
  funext ts
  cases ts with
  | nil => exact hstop
  | cons t ts => rfl

theorem unexpected_congr (hstop : f.stop = f'.stop) : f.unexpected = f'.unexpected := by
  funext ts expected
  rw [Frame.unexpected, Frame.unexpected, position_congr hstop]

theorem expect_congr (hstop : f.stop = f'.stop) : f.expect = f'.expect := by
  funext token expected ts
  cases ts with
  | nil => rw [Frame.expect, Frame.expect, unexpected_congr hstop]
  | cons t ts => rw [Frame.expect, Frame.expect, unexpected_congr hstop]

theorem argument_agrees {α : Type} (hstop : f.stop = f'.stop) {first last : Expected} {read read' : TokenReader α}
    (hread : ∀ ts, Agrees (read ts) (read' ts)) (ts : Tokens) :
    Agrees (f.argument first last read ts) (f'.argument first last read' ts) := by
  unfold Frame.argument
  rw [expect_congr hstop]
  exact (AgreesUnless.refl _).bind fun opened => (hread opened.rest).bind fun inside => .refl _

/-! ## Exponents -/

theorem exponentDigits_congr (hstop : f.stop = f'.stop) : exponentDigits f = exponentDigits f' := by
  have hbraced : bracedExponent f = bracedExponent f' := by
    funext negative ts
    unfold bracedExponent
    rw [expect_congr hstop, unexpected_congr hstop]
  funext ts
  unfold exponentDigits
  rw [hbraced, unexpected_congr hstop]

theorem exponentLiteral_agrees (hstop : f.stop = f'.stop) (ts : Tokens) :
    Agrees (exponentLiteral f ts) (exponentLiteral f' ts) := by
  unfold exponentLiteral
  rw [exponentDigits_congr hstop]
  refine (AgreesUnless.refl _).bind fun r => ?_
  split
  · exact .refl _
  · exact agrees_tooDeep _

theorem raise_agrees (start : Nat) (base upper : Int) :
    Agrees (raise f start base upper) (raise f' start base upper) := by
  unfold raise
  split
  · split
    · exact .refl _
    · exact agrees_tooDeep _
  · exact .refl _

theorem exponentAbove_agrees (hstop : f.stop = f'.stop) {upper upper' : TokenReader Int}
    (hupper : ∀ ts, Agrees (upper ts) (upper' ts)) (ts : Tokens) :
    Agrees (exponentAbove f upper ts) (exponentAbove f' upper' ts) := by
  unfold exponentAbove
  refine (exponentLiteral_agrees hstop ts).bind fun literal => extendOnce_agrees (fun base us => ?_) literal
  rw [position_congr hstop]
  split
  · exact .inr ⟨_, _, rfl, rfl, (hupper _).bind fun above => (raise_agrees _ _ _).bind fun value => .refl _⟩
  · exact .inl ⟨rfl, rfl⟩

theorem exponent_agrees (hstop : f.stop = f'.stop) {depth depth' : Nat} (hdepth : depth ≤ depth') (ts : Tokens) :
    Agrees (exponent f depth ts) (exponent f' depth' ts) := by
  induction depth generalizing depth' ts with
  | zero =>
      cases depth' with
      | zero => exact exponentAbove_agrees hstop (fun us => agrees_tooDeep _) ts
      | succ depth' => exact exponentAbove_agrees hstop (fun us => agrees_tooDeep _) ts
  | succ depth ih =>
      obtain ⟨k, rfl⟩ := Nat.exists_eq_add_of_le' hdepth
      exact exponentAbove_agrees hstop (fun us => ih (Nat.le_add_left _ _) us) ts

/-! ## Expressions -/

theorem quotient_congr (hstop : f.stop = f'.stop) : quotient f = quotient f' := by
  funext numerator denominator
  unfold quotient
  rw [position_congr hstop]

theorem atom_agrees (hstop : f.stop = f'.stop) (h : deeper.AgreesWith deeper') (ts : Tokens) :
    Agrees (atom f deeper ts) (atom f' deeper' ts) := by
  unfold atom fractionArguments
  rw [expect_congr hstop, unexpected_congr hstop, quotient_congr hstop]
  split
  · exact .refl _
  · exact .refl _
  · exact (h.expression _).bind fun inside => .refl _
  · exact (h.expression _).bind fun inside => .refl _
  · refine AgreesUnless.map _ ((argument_agrees hstop h.expression _).bind fun numerator => ?_)
    exact (argument_agrees hstop h.expression _).bind fun denominator => .refl _
  · exact (argument_agrees hstop h.expression _).bind fun radicand => .refl _
  · exact .refl _

theorem power_agrees (hstop : f.stop = f'.stop) (h : deeper.AgreesWith deeper') (ts : Tokens) :
    Agrees (power f deeper ts) (power f' deeper' ts) := by
  unfold power
  refine (atom_agrees hstop h ts).bind fun base => extendOnce_agrees (fun base us => ?_) base
  split
  · exact .inr ⟨_, _, rfl, rfl, (h.exponent _).map _⟩
  · exact .inl ⟨rfl, rfl⟩

theorem unary_agrees (hstop : f.stop = f'.stop) (h : deeper.AgreesWith deeper') (ts : Tokens) :
    Agrees (unary f deeper ts) (unary f' deeper' ts) := by
  unfold unary
  split
  · exact (h.unary _).map _
  · exact (h.unary _).map _
  · exact power_agrees hstop h ts

theorem factor_agrees (hstop : f.stop = f'.stop) (h : deeper.AgreesWith deeper') :
    ContinuationsAgree Error.IsTooDeep (factor f deeper) (factor f' deeper') := by
  intro left ts
  unfold factor
  split
  · exact .inr ⟨_, _, rfl, rfl, (unary_agrees hstop h _).map _⟩
  · exact .inr ⟨_, _, rfl, rfl, (unary_agrees hstop h _).map _⟩
  · split
    · exact .inr ⟨_, _, rfl, rfl, (power_agrees hstop h _).map _⟩
    · exact .inl ⟨rfl, rfl⟩
  · exact .inl ⟨rfl, rfl⟩

theorem term_agrees (hstop : f.stop = f'.stop) (h : deeper.AgreesWith deeper') (ts : Tokens) :
    Agrees (term f deeper ts) (term f' deeper' ts) :=
  (unary_agrees hstop h ts).bind fun first => extend_agrees (factor_agrees hstop h) first

theorem summand_agrees (hstop : f.stop = f'.stop) (h : deeper.AgreesWith deeper') :
    ContinuationsAgree Error.IsTooDeep (summand f deeper) (summand f' deeper') := by
  intro left ts
  unfold summand
  split
  · exact .inr ⟨_, _, rfl, rfl, (term_agrees hstop h _).map _⟩
  · exact .inr ⟨_, _, rfl, rfl, (term_agrees hstop h _).map _⟩
  · exact .inl ⟨rfl, rfl⟩

theorem sum_agrees (hstop : f.stop = f'.stop) (h : deeper.AgreesWith deeper') (ts : Tokens) :
    Agrees (sum f deeper ts) (sum f' deeper' ts) :=
  (term_agrees hstop h ts).bind fun first => extend_agrees (summand_agrees hstop h) first

theorem nested_agrees (hstop : f.stop = f'.stop) {depth depth' : Nat} (hdepth : depth ≤ depth') (nesting : Nesting)
    (ts : Tokens) : Agrees (nested f depth nesting ts) (nested f' depth' nesting ts) := by
  induction depth generalizing depth' nesting ts with
  | zero => exact agrees_tooDeep _
  | succ depth ih =>
      obtain ⟨k, rfl⟩ := Nat.exists_eq_add_of_le' hdepth
      have hk : depth ≤ k + depth := Nat.le_add_left _ _
      have hdeeper : Deeper.AgreesWith ⟨nested f depth .expression, nested f depth .unary, exponent f depth⟩
          ⟨nested f' (k + depth) .expression, nested f' (k + depth) .unary, exponent f' (k + depth)⟩ :=
        ⟨ih hk .expression, ih hk .unary, exponent_agrees hstop hk⟩
      cases nesting with
      | expression => exact sum_agrees hstop hdeeper ts
      | unary => exact unary_agrees hstop hdeeper ts

/-- A text parses in the same way within a larger depth limit, unless the smaller one is exceeded. -/
theorem parse_agrees {limit limit' : Nat} (h : limit ≤ limit') (text : List Char) :
    Agrees (parse limit text) (parse limit' text) := by
  refine (AgreesUnless.refl _).bind fun ts => ?_
  split
  · exact .refl _
  · generalize Text.byteLength text = stop
    have hstop : (⟨limit, stop⟩ : Frame).stop = (⟨limit', stop⟩ : Frame).stop := rfl
    refine AgreesUnless.bind (nested_agrees hstop h .expression ts) fun r => ?_
    rw [unexpected_congr hstop]
    exact .refl _

end Latex

/-- A limit was exceeded. -/
def Error.IsTooComplex (e : Error) : Prop := ∃ excess, e = .tooComplex excess

/-- The outcome is the other one, or a limit was exceeded. -/
abbrev Agrees {α : Type} : Except Error α → Except Error α → Prop := AgreesUnless Error.IsTooComplex

theorem agrees_tooComplex {α : Type} {excess : Excess} (y : Except Error α) :
    Agrees (.error (.tooComplex excess)) y :=
  .error ⟨excess, rfl⟩ y

/-! ## Calculations -/

namespace Arithmetic

/-- The readers of the next level agree. -/
structure Deeper.AgreesWith (deeper deeper' : Deeper) : Prop where
  sum : ∀ ts, Agrees (deeper.sum ts) (deeper'.sum ts)
  unary : ∀ ts, Agrees (deeper.unary ts) (deeper'.unary ts)

variable {stop : Nat} {deeper deeper' : Deeper}

theorem atom_agrees (h : deeper.AgreesWith deeper') (ts : Tokens) :
    Agrees (atom stop deeper ts) (atom stop deeper' ts) := by
  unfold atom
  split
  · exact .refl _
  · exact (h.sum _).bind fun inside => .refl _
  · exact .refl _

theorem unary_agrees (h : deeper.AgreesWith deeper') (ts : Tokens) :
    Agrees (unary stop deeper ts) (unary stop deeper' ts) := by
  unfold unary
  split
  · exact (h.unary _).map _
  · exact (h.unary _).map _
  · exact atom_agrees h ts

theorem factor_agrees (h : deeper.AgreesWith deeper') :
    ContinuationsAgree Error.IsTooComplex (factor stop deeper) (factor stop deeper') := by
  intro left ts
  unfold factor
  split
  · exact .inr ⟨_, _, rfl, rfl, (unary_agrees h _).map _⟩
  · exact .inr ⟨_, _, rfl, rfl, (unary_agrees h _).bind fun r => .refl _⟩
  · exact .inr ⟨_, _, rfl, rfl, (atom_agrees h _).map _⟩
  · exact .inl ⟨rfl, rfl⟩

theorem product_agrees (h : deeper.AgreesWith deeper') (ts : Tokens) :
    Agrees (product stop deeper ts) (product stop deeper' ts) :=
  (unary_agrees h ts).bind fun first => extend_agrees (factor_agrees h) first

theorem summand_agrees (h : deeper.AgreesWith deeper') :
    ContinuationsAgree Error.IsTooComplex (summand stop deeper) (summand stop deeper') := by
  intro left ts
  unfold summand
  split
  · exact .inr ⟨_, _, rfl, rfl, (product_agrees h _).map _⟩
  · exact .inr ⟨_, _, rfl, rfl, (product_agrees h _).map _⟩
  · exact .inl ⟨rfl, rfl⟩

theorem sum_agrees (h : deeper.AgreesWith deeper') (ts : Tokens) : Agrees (sum stop deeper ts) (sum stop deeper' ts) :=
  (product_agrees h ts).bind fun first => extend_agrees (summand_agrees h) first

theorem nested_agrees {limit limit' depth depth' : Nat} (hdepth : depth ≤ depth') (nesting : Nesting) (ts : Tokens) :
    Agrees (nested limit stop depth nesting ts) (nested limit' stop depth' nesting ts) := by
  induction depth generalizing depth' nesting ts with
  | zero => exact agrees_tooComplex _
  | succ depth ih =>
      obtain ⟨k, rfl⟩ := Nat.exists_eq_add_of_le' hdepth
      have hk : depth ≤ k + depth := Nat.le_add_left _ _
      have hdeeper : Deeper.AgreesWith ⟨nested limit stop depth .sum, nested limit stop depth .unary⟩
          ⟨nested limit' stop (k + depth) .sum, nested limit' stop (k + depth) .unary⟩ :=
        ⟨ih hk .sum, ih hk .unary⟩
      cases nesting with
      | sum => exact sum_agrees hdeeper ts
      | unary => exact unary_agrees hdeeper ts

/-- A calculation has the same value within a larger depth limit, unless the smaller one is exceeded. -/
theorem evaluate_agrees {limits limits' : Limits} (h : limits.maxDepth ≤ limits'.maxDepth) (text : List Char) :
    Agrees (evaluate limits text) (evaluate limits' text) := by
  have hdepth : limits.maxDepth.toNat ≤ limits'.maxDepth.toNat := UInt64.le_iff_toNat_le.1 h
  refine (AgreesUnless.refl _).bind fun ts => ?_
  split
  · exact .refl _
  · exact (sum_agrees ⟨nested_agrees hdepth .sum, nested_agrees hdepth .unary⟩ ts).bind fun r => .refl _

end Arithmetic

end ExactAlgebra
