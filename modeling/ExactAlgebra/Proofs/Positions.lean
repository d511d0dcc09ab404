import ExactAlgebra.Error
import ExactAlgebra.Proofs.Scan

/-!
# Positions of errors

A reader of tokens leaves a tail of them, and where it fails, it points to one of them or to the end of the text. This
passes through sequences and loops of readings, so it has to be shown only where a single token is looked at.
-/

namespace ExactAlgebra

open Outcome (ErrorsSatisfy)

/-- The byte offset that an error of the parser points to. -/
def Latex.Error.position? : Latex.Error → Option Nat
  | .unexpected position _ => some position
  | .invalidDenominator position => some position
  | .tooDeep _ => none

/-- The byte offset that an error points to. -/
def Error.position? : Error → Option Nat
  | .unexpected position _ => some position
  | _ => none

variable {ε τ α β : Type}

/-- The position is the offset of one of the tokens, or the end of the text. -/
def IsPlace (stop : Nat) (ts : List (Placed τ)) (position : Nat) : Prop :=
  (∃ t ∈ ts, t.offset = position) ∨ position = stop

/-- An error has no position, or points to a place. -/
def PointsInto (position? : ε → Option Nat) (stop : Nat) (ts : List (Placed τ)) (e : ε) : Prop :=
  ∀ position ∈ position? e, IsPlace stop ts position

/-- The reading left a tail of the tokens, or its error points to a place. -/
def Located (position? : ε → Option Nat) (stop : Nat) (ts : List (Placed τ)) {us : List (Placed τ)} :
    Except ε (Reading α us) → Prop
  | .ok r => r.rest <:+ ts
  | .error e => PointsInto position? stop ts e

variable {position? : ε → Option Nat} {stop : Nat} {ts us vs : List (Placed τ)}

theorem IsPlace.mono {position : Nat} (h : IsPlace stop us position) (hus : us ⊆ ts) : IsPlace stop ts position := by
  rcases h with ⟨t, ht, hposition⟩ | hstop
  · exact .inl ⟨t, hus ht, hposition⟩
  · exact .inr hstop

namespace Located

theorem mono {x : Except ε (Reading α vs)} (h : Located position? stop us x) (hus : us <:+ ts) :
    Located position? stop ts x := by
  cases x with
  | ok r => exact h.trans hus
  | error e => exact fun position hposition => (h position hposition).mono hus.subset

theorem map {x : Except ε (Reading α us)} (h : Located position? stop ts x) {g : Reading α us → Reading β vs}
    (hg : ∀ r, (g r).rest = r.rest) : Located position? stop ts (x.map g) := by
  cases x with
  | ok r =>
      rw [Outcome.map_ok, Located, hg]
      exact h
  | error e => exact h

theorem bind {x : Except ε (Reading α us)} (h : Located position? stop ts x)
    {g : Reading α us → Except ε (Reading β vs)}
    (hg : ∀ r, x = .ok r → r.rest <:+ ts → Located position? stop ts (g r)) :
    Located position? stop ts (x >>= g) := by
  cases x with
  | ok r => exact hg r rfl h
  | error e => exact h

/-- A step that reads nothing may fail on the way. -/
theorem bind_step {x : Except ε α} (h : ErrorsSatisfy (PointsInto position? stop ts) x)
    {g : α → Except ε (Reading β vs)} (hg : ∀ a, Located position? stop ts (g a)) :
    Located position? stop ts (x >>= g) := by
  cases x with
  | ok a => exact hg a
  | error e => exact h e rfl

end Located

/-! ## Continued readings -/

/-- A continuation that starts in a tail of the tokens leaves a tail of them, or points to a place. -/
def ContinuationLocated (position? : ε → Option Nat) (stop : Nat) (ts : List (Placed τ))
    (next : Continuation ε (Placed τ) α) : Prop :=
  ∀ a us, us <:+ ts → ∀ x, next a us = some x → Located position? stop ts x

namespace Reading

variable {next : Continuation ε (Placed τ) α} (hnext : ContinuationLocated position? stop ts next)
include hnext

theorem extendOnce_located {r : Reading α us} (hr : r.rest <:+ ts) :
    Located position? stop ts (r.extendOnce next) := by
  rw [extendOnce]
  split
  · exact hr
  · rename_i step hstep
    exact (hnext _ _ hr _ hstep).map fun _ => rfl

theorem extend_located {r : Reading α us} (hr : r.rest <:+ ts) : Located position? stop ts (r.extend next) := by
  fun_induction extend next r with
  | case1 => exact hr
  | case2 r e he => exact hnext _ _ hr _ he
  | case3 r s hs ih => exact ih (hnext _ _ hr _ hs)

end Reading

/-! ## Places in the text -/

/-- An error has no position, or this one. -/
def PointsTo (position? : ε → Option Nat) (place : Nat) (e : ε) : Prop := ∀ position ∈ position? e, position = place

/-- An error has no position, or points to a boundary of characters of the text. -/
def PointsToBoundary (position? : ε → Option Nat) (text : List Char) (e : ε) : Prop :=
  ∀ position ∈ position? e, Text.IsBoundary text position

section Scan

variable {lexeme : LexemeReader ε τ} {text : List Char}
variable (hlexeme : ∀ {offset cs} {r : Reading (Option τ) cs}, lexeme offset cs = .ok r → ∃ front, cs = front ++ r.rest)
include hlexeme

theorem PointsInto.pointsToBoundary {e : ε} (hts : scan lexeme 0 text = .ok ts)
    (h : PointsInto position? (Text.byteLength text) ts e) : PointsToBoundary position? text e := by
  intro position hposition
  rcases h position hposition with ⟨t, ht, rfl⟩ | rfl
  · exact (carriedBy_of_mem_scan hlexeme hts ht).isBoundary
  · exact Text.isBoundary_end text

/-- The errors of a text that is cut into lexemes and then read point to boundaries, if the error of a lexeme points to
its beginning and that of a text without tokens to the beginning of the text. -/
theorem scan_bind_errors {read : List (Placed τ) → Except ε α} {empty : ε}
    (hlexemes : ∀ offset cs, ErrorsSatisfy (PointsTo position? offset) (lexeme offset cs))
    (hempty : PointsTo position? 0 empty)
    (hread : ∀ ts, ErrorsSatisfy (PointsInto position? (Text.byteLength text) ts) (read ts)) :
    ErrorsSatisfy (PointsToBoundary position? text)
      (scan lexeme 0 text >>= fun ts => if ts.isEmpty then .error empty else read ts) := by
  intro e he
  rcases Outcome.bind_eq_error.1 he with hscan | ⟨ts, hts, he⟩
  · obtain ⟨offset, after, hfails, hoffset⟩ := (failsIn_of_scan hlexeme hscan).exists_isBoundary
    intro position hposition
    rwa [hlexemes offset after e hfails position hposition]
  · split at he
    · cases he
      intro position hposition
      rw [hempty position hposition]
      exact Text.isBoundary_zero text
    · exact (hread ts e he).pointsToBoundary hlexeme hts

end Scan

end ExactAlgebra
