import ExactAlgebra.Arithmetic.Evaluate
import ExactAlgebra.Proofs.Arithmetic.Literals
import ExactAlgebra.Proofs.Positions

/-!
# Positions of errors in calculations

The evaluator points to one of its tokens or to the end of the text, and its lexer to the beginning of a lexeme, so both
of them point to a boundary of characters.
-/

namespace ExactAlgebra.Arithmetic

open Outcome (ErrorsSatisfy)

/-- A reading of values from a text that ends at `stop` leaves a tail of `ts`, or points into `ts`. -/
abbrev Located (stop : Nat) (ts : Tokens) {us : Tokens} : Except Error (Reading Rat us) → Prop :=
  ExactAlgebra.Located Error.position? stop ts

/-- The readers of the next level are located. -/
structure Deeper.Located (stop : Nat) (deeper : Deeper) : Prop where
  sum : ∀ ts, Arithmetic.Located stop ts (deeper.sum ts)
  unary : ∀ ts, Arithmetic.Located stop ts (deeper.unary ts)

variable {stop : Nat} {ts us : Tokens}

/-- Not finding something is an error at the next token. -/
theorem unexpected_pointsInto (h : us ⊆ ts) (expected : Expected) :
    PointsInto Error.position? stop ts (unexpected stop us expected) := by
  cases us with
  | nil =>
      rintro _ ⟨⟩
      exact .inr rfl
  | cons t us =>
      rintro _ ⟨⟩
      exact .inl ⟨t, h List.mem_cons_self, rfl⟩

section Deeper

variable {deeper : Deeper} (hdeeper : deeper.Located stop)
include hdeeper

theorem atom_located (ts : Tokens) : Located stop ts (atom stop deeper ts) := by
  unfold atom
  split
  · exact List.suffix_cons _ _
  · refine ((hdeeper.sum _).mono (List.suffix_cons _ _)).bind fun inside _ hinside => ?_
    split
    · rename_i after hafter
      rw [hafter] at hinside
      exact (List.suffix_cons _ _).trans hinside
    · exact unexpected_pointsInto hinside.subset _
  · exact unexpected_pointsInto (List.Subset.refl _) _

theorem unary_located (ts : Tokens) : Located stop ts (unary stop deeper ts) := by
  unfold unary
  split
  · exact ((hdeeper.unary _).mono (List.suffix_cons _ _)).map fun _ => rfl
  · exact ((hdeeper.unary _).mono (List.suffix_cons _ _)).map fun _ => rfl
  · exact atom_located hdeeper ts

/-! ## Products and sums -/

omit hdeeper in
/-- Dividing by zero has no position. -/
theorem divide_errors (left right : Rat) :
    ErrorsSatisfy (PointsInto Error.position? stop ts) ((Rational.divide left right).mapError .ofRational) := by
  unfold Rational.divide
  split
  · exact .error nofun
  · exact .ok _

theorem factor_located (ts : Tokens) : ContinuationLocated Error.position? stop ts (factor stop deeper) := by
  intro left us hus x hx
  unfold factor at hx
  split at hx
  · cases hx
    exact ((unary_located hdeeper _).mono ((List.suffix_cons _ _).trans hus)).map fun _ => rfl
  · cases hx
    exact ((unary_located hdeeper _).mono ((List.suffix_cons _ _).trans hus)).bind fun _ _ hdivisor =>
      .bind_step (divide_errors _ _) fun _ => hdivisor
  · cases hx
    exact ((atom_located hdeeper _).mono hus).map fun _ => rfl
  · cases hx

theorem product_located (ts : Tokens) : Located stop ts (product stop deeper ts) :=
  (unary_located hdeeper ts).bind fun _ _ hfirst => Reading.extend_located (factor_located hdeeper ts) hfirst

theorem summand_located (ts : Tokens) : ContinuationLocated Error.position? stop ts (summand stop deeper) := by
  intro left us hus x hx
  unfold summand at hx
  split at hx
  · cases hx
    exact ((product_located hdeeper _).mono ((List.suffix_cons _ _).trans hus)).map fun _ => rfl
  · cases hx
    exact ((product_located hdeeper _).mono ((List.suffix_cons _ _).trans hus)).map fun _ => rfl
  · cases hx

theorem sum_located (ts : Tokens) : Located stop ts (sum stop deeper ts) :=
  (product_located hdeeper ts).bind fun _ _ hfirst => Reading.extend_located (summand_located hdeeper ts) hfirst

end Deeper

/-! ## Nesting -/

theorem nested_located (limit depth : Nat) (nesting : Nesting) (ts : Tokens) :
    Located stop ts (nested limit stop depth nesting ts) := by
  induction depth generalizing nesting ts with
  | zero =>
      intro position hposition
      cases hposition
  | succ depth ih =>
      have hdeeper : Deeper.Located stop ⟨nested limit stop depth .sum, nested limit stop depth .unary⟩ :=
        ⟨ih .sum, ih .unary⟩
      cases nesting with
      | sum => exact sum_located hdeeper ts
      | unary => exact unary_located hdeeper ts

/-- An error of the evaluator points to one of the tokens or to the end of the text. -/
theorem valueOf_errors (limit stop : Nat) (ts : Tokens) :
    ErrorsSatisfy (PointsInto Error.position? stop ts) (valueOf limit stop ts) := by
  intro e he
  have hdeeper : Deeper.Located stop ⟨nested limit stop limit .sum, nested limit stop limit .unary⟩ :=
    ⟨nested_located limit limit .sum, nested_located limit limit .unary⟩
  have hlocated := sum_located hdeeper ts
  rcases Outcome.bind_eq_error.1 he with hread | ⟨r, hread, he⟩
  · rwa [hread] at hlocated
  · rw [hread] at hlocated
    split at he
    · cases he
    · cases he
      exact unexpected_pointsInto hlocated.subset _

/-! ## Places in the text -/

/-- A literal with the denominator zero has an error without a position. -/
theorem literal_errors {p : Error → Prop} (hp : p .invalidDenominator) (literal : Literal) :
    ErrorsSatisfy p literal.value := by
  cases literal with
  | whole n => exact .ok _
  | fraction n d | mixed w n d =>
      rw [Literal.value]
      split
      · exact .error hp
      · exact .ok _

theorem lexeme_errors (offset : Nat) (cs : List Char) :
    ErrorsSatisfy (PointsTo Error.position? offset) (lexeme offset cs) := by
  unfold lexeme
  split
  · exact (literal_errors nofun _).map _
  · split
    · exact .ok _
    · refine .error ?_
      rintro _ ⟨⟩
      rfl

/-- Every position of an error of a calculation is a boundary of characters of the text. -/
theorem evaluate_errors (limits : Limits) (text : List Char) :
    ErrorsSatisfy (PointsToBoundary Error.position? text) (evaluate limits text) := by
  have hempty : PointsTo Error.position? 0 (.unexpected 0 .expression) := by
    rintro _ ⟨⟩
    rfl
  exact scan_bind_errors lexeme_eq_append lexeme_errors hempty (valueOf_errors _ _)

end ExactAlgebra.Arithmetic
