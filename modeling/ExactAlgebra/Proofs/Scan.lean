import ExactAlgebra.Proofs.Outcome
import ExactAlgebra.Scan

/-!
# Offsets of a scan

Where the lexemes of a scan stand: every token is carried by a lexeme of the text, and an error is that of a lexeme
which cannot be read. Farther on in a text, the same characters have the same tokens with greater offsets.
-/

namespace ExactAlgebra

/-! ## Boundaries of characters -/

namespace Text

/-- A character of the text begins at the byte offset, or the text ends there. -/
def IsBoundary (cs : List Char) (position : Nat) : Prop := String.Pos.Raw.IsValid (String.ofList cs) ⟨position⟩

theorem isBoundary_byteLength (front back : List Char) : IsBoundary (front ++ back) (byteLength front) := by
  rw [IsBoundary, String.Pos.Raw.isValid_iff_exists_append, byteLength_eq_utf8ByteSize]
  exact ⟨String.ofList front, String.ofList back, String.ofList_append, rfl⟩

theorem isBoundary_zero (cs : List Char) : IsBoundary cs 0 := isBoundary_byteLength [] cs

theorem isBoundary_end (cs : List Char) : IsBoundary cs (byteLength cs) := by
  simpa using isBoundary_byteLength cs []

theorem IsBoundary.le {cs : List Char} {position : Nat} (h : IsBoundary cs position) : position ≤ byteLength cs := by
  rw [byteLength_eq_utf8ByteSize]
  exact h.le_rawEndPos

end Text

variable {ε τ : Type} {lexeme : LexemeReader ε τ} {offset : Nat} {cs : List Char}

/-! ## Lexemes of a text -/

/-- A lexeme of the text, which begins at `offset`, carries the token. -/
def CarriedBy (lexeme : LexemeReader ε τ) (offset : Nat) (cs : List Char) (t : Placed τ) : Prop :=
  ∃ before after r, cs = before ++ after ∧ t.offset = offset + Text.byteLength before ∧
    lexeme t.offset after = .ok r ∧ r.value = some t.token

/-- At a place of the text, which begins at `offset`, a lexeme has the error. -/
def FailsIn (lexeme : LexemeReader ε τ) (offset : Nat) (cs : List Char) (e : ε) : Prop :=
  ∃ before after, cs = before ++ after ∧ lexeme (offset + Text.byteLength before) after = .error e

theorem CarriedBy.append (front : List Char) {t : Placed τ}
    (h : CarriedBy lexeme (offset + Text.byteLength front) cs t) : CarriedBy lexeme offset (front ++ cs) t := by
  obtain ⟨before, after, r, rfl, hoffset, hr⟩ := h
  exact ⟨front ++ before, after, r, (List.append_assoc ..).symm, by simp [hoffset, Nat.add_assoc], hr⟩

theorem FailsIn.append (front : List Char) {e : ε} (h : FailsIn lexeme (offset + Text.byteLength front) cs e) :
    FailsIn lexeme offset (front ++ cs) e := by
  obtain ⟨before, after, rfl, he⟩ := h
  exact ⟨front ++ before, after, (List.append_assoc ..).symm, by rwa [Text.byteLength_append, ← Nat.add_assoc]⟩

theorem CarriedBy.isBoundary {t : Placed τ} (h : CarriedBy lexeme 0 cs t) : Text.IsBoundary cs t.offset := by
  obtain ⟨before, after, r, rfl, hoffset, -⟩ := h
  rw [hoffset, Nat.zero_add]
  exact Text.isBoundary_byteLength before after

theorem FailsIn.exists_isBoundary {e : ε} (h : FailsIn lexeme 0 cs e) :
    ∃ position after, lexeme position after = .error e ∧ Text.IsBoundary cs position := by
  obtain ⟨before, after, rfl, he⟩ := h
  exact ⟨_, after, he, by rw [Nat.zero_add]; exact Text.isBoundary_byteLength before after⟩

/-- The width of what stands before a tail of the text. -/
theorem byteLength_sub {front rest : List Char} (h : cs = front ++ rest) :
    Text.byteLength cs - Text.byteLength rest = Text.byteLength front := by
  rw [h, Text.byteLength_append, Nat.add_sub_cancel]

section

variable (hlexeme : ∀ {offset cs} {r : Reading (Option τ) cs}, lexeme offset cs = .ok r → ∃ front, cs = front ++ r.rest)
include hlexeme

/-- Every token of a scan is carried by a lexeme, if what a lexeme leaves is a tail of the text. -/
theorem carriedBy_of_mem_scan {ts : List (Placed τ)} {t : Placed τ} (h : scan lexeme offset cs = .ok ts) (ht : t ∈ ts) :
    CarriedBy lexeme offset cs t := by
  have hrest {offset c cs} {s : Reading (Option τ) (c :: cs)} (hs : lexeme offset (c :: cs) = .ok s)
      (hcarried : CarriedBy lexeme (offset + (Text.byteLength (c :: cs) - Text.byteLength s.rest)) s.rest t) :
      CarriedBy lexeme offset (c :: cs) t := by
    obtain ⟨front, hfront⟩ := hlexeme hs
    rw [byteLength_sub hfront] at hcarried
    rw [hfront]
    exact hcarried.append front
  fun_induction scan lexeme offset cs generalizing ts with
  | case1 =>
      cases h
      cases ht
  | case2 offset c cs hblank ih => exact .append [c] (ih h ht)
  | case3 => cases h
  | case4 =>
      rename_i hs _ _ ih
      exact hrest hs (ih h ht)
  | case5 =>
      rename_i hs _ u hu ih
      obtain ⟨us, hus, rfl⟩ := Outcome.map_eq_ok.1 h
      rcases List.mem_cons.1 ht with rfl | ht
      · exact ⟨[], _, _, rfl, rfl, hs, hu⟩
      · exact hrest hs (ih hus ht)

/-- The error of a scan is that of a lexeme. -/
theorem failsIn_of_scan {e : ε} (h : scan lexeme offset cs = .error e) : FailsIn lexeme offset cs e := by
  have hrest {offset c cs} {s : Reading (Option τ) (c :: cs)} (hs : lexeme offset (c :: cs) = .ok s)
      (hfails : FailsIn lexeme (offset + (Text.byteLength (c :: cs) - Text.byteLength s.rest)) s.rest e) :
      FailsIn lexeme offset (c :: cs) e := by
    obtain ⟨front, hfront⟩ := hlexeme hs
    rw [byteLength_sub hfront] at hfails
    rw [hfront]
    exact hfails.append front
  fun_induction scan lexeme offset cs with
  | case1 => cases h
  | case2 offset c cs hblank ih => exact .append [c] (ih h)
  | case3 =>
      rename_i he
      cases h
      exact ⟨[], _, rfl, he⟩
  | case4 =>
      rename_i hs _ _ ih
      exact hrest hs (ih h)
  | case5 =>
      rename_i hs _ u hu ih
      exact hrest hs (ih (Outcome.map_eq_error.1 h))

end

/-! ## The tokens of a text -/

/-- The text has the given tokens, wherever it begins. -/
def ScansTo (lexeme : LexemeReader ε τ) (cs : List Char) (us : List τ) : Prop :=
  ∀ offset, ∃ ts, scan lexeme offset cs = .ok ts ∧ ts.map Placed.token = us

namespace ScansTo

variable {c : Char} {ds : List Char} {u : τ} {us vs : List τ}

theorem nil : ScansTo lexeme [] [] := fun _ => ⟨[], by rw [scan], rfl⟩

theorem blank (hc : Text.isBlank c) (h : ScansTo lexeme cs us) : ScansTo lexeme (c :: cs) us := by
  intro offset
  rw [scan, if_pos hc]
  exact h (offset + c.utf8Size)

theorem cons (hblank : Text.isBlank c = false)
    (hread : ∀ offset, ∃ r, lexeme offset (c :: cs) = .ok r ∧ r.value = some u ∧ r.rest = ds)
    (h : ScansTo lexeme ds us) : ScansTo lexeme (c :: cs) (u :: us) := by
  intro offset
  obtain ⟨r, hr, hvalue, rfl⟩ := hread offset
  obtain ⟨ts, hts, rfl⟩ := h (offset + (Text.byteLength (c :: cs) - Text.byteLength r.rest))
  refine ⟨⟨u, offset⟩ :: ts, ?_, rfl⟩
  rw [scan, if_neg (by simp [hblank]), hr]
  simp only [hvalue, hts]
  rfl

theorem unique (hu : ScansTo lexeme cs us) (hv : ScansTo lexeme cs vs) : us = vs := by
  obtain ⟨ts, hts, rfl⟩ := hu 0
  obtain ⟨ts', hts', rfl⟩ := hv 0
  rw [Except.ok.inj (hts.symm.trans hts')]

end ScansTo

/-! ## Farther on in a text -/

/-- The same token with an offset that is greater by `k`. -/
def Placed.shift (k : Nat) (t : Placed τ) : Placed τ := { t with offset := k + t.offset }

/-- Blanks before a text move its tokens on. -/
theorem scan_blanks {gap : List Char} (hgap : ∀ c ∈ gap, Text.isBlank c) (offset : Nat) (cs : List Char) :
    scan lexeme offset (gap ++ cs) = scan lexeme (offset + Text.byteLength gap) cs := by
  induction gap generalizing offset with
  | nil => rfl
  | cons c gap ih =>
      obtain ⟨hc, hgap⟩ := List.forall_mem_cons.1 hgap
      rw [List.cons_append, scan, if_pos hc, ih hgap, Text.byteLength_cons, Nat.add_assoc]

/-- A scan has the same outcome farther on, if this holds for each lexeme. -/
theorem scan_shift {k : Nat} {shiftError : ε → ε}
    (hlexeme : ∀ offset cs, lexeme (k + offset) cs = (lexeme offset cs).mapError shiftError) (offset : Nat)
    (cs : List Char) : scan lexeme (k + offset) cs =
      ((scan lexeme offset cs).map (List.map (Placed.shift k))).mapError shiftError := by
  fun_induction scan lexeme offset cs with
  | case1 =>
      rw [scan]
      rfl
  | case2 offset c cs hblank ih => rw [scan, if_pos hblank, Nat.add_assoc, ih]
  | case3 offset c cs hblank e he =>
      rw [scan, if_neg hblank, hlexeme, he]
      rfl
  | case4 offset c cs hblank r hr width hnone ih =>
      rw [scan, if_neg hblank, hlexeme, hr]
      simp only [Outcome.mapError_ok, hnone]
      rw [Nat.add_assoc, ih]
  | case5 offset c cs hblank r hr width t ht ih =>
      rw [scan, if_neg hblank, hlexeme, hr]
      simp only [Outcome.mapError_ok, ht]
      rw [Nat.add_assoc, ih]
      cases scan lexeme (offset + width) r.rest <;> rfl

end ExactAlgebra
