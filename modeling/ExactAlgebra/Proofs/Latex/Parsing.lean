import ExactAlgebra.Proofs.Latex.Completeness
import ExactAlgebra.Proofs.Latex.Layout
import Mathlib

/-!
# Parsing is the grammar

A text is an expression just when its tokens derive one, within the levels of nesting that the limit leaves.
-/

namespace ExactAlgebra.Latex

variable {f : Frame} {ts : Tokens} {e : Expr}

theorem expressionOf_eq_ok_iff :
    expressionOf f ts = .ok e ↔ ∃ d, f.limit = d + 1 ∧ Derives d .sum (plain ts) [] e := by
  constructor
  · intro h
    obtain ⟨r, hr, h⟩ := Outcome.bind_eq_ok.1 h
    obtain ⟨limit, stop⟩ := f
    cases limit with
    | zero => cases hr
    | succ d =>
        split at h
        · rename_i hrest
          cases h
          obtain ⟨front, hfront, hderives⟩ := nested_sound hr
          rw [hrest, plain_nil, List.append_nil] at hfront
          rw [hrest, plain_nil, ← hfront] at hderives
          exact ⟨d, rfl, hderives⟩
        · cases h
  · rintro ⟨d, hlimit, h⟩
    obtain ⟨r, hr, hrest, rfl⟩ := h.complete (f := f) nofun ts (List.append_nil _).symm
    have hread : nested f f.limit .expression ts = .ok r := by
      rw [hlimit]
      exact hr
    rw [expressionOf, hread, Outcome.ok_bind, plain_eq_nil hrest]
    rfl

/-- Tokens are of at most one expression. -/
theorem Derives.unique {d d' : Nat} {us : List Token} {e e' : Expr} (h : Derives d .sum us [] e)
    (h' : Derives d' .sum us [] e') : e = e' := by
  obtain ⟨ts, rfl⟩ : ∃ ts, plain ts = us := ⟨us.map (⟨·, 0⟩), by simp [plain, Function.comp_def]⟩
  have hread := expressionOf_eq_ok_iff (f := ⟨(plain ts).length + 1, 0⟩).2 ⟨_, rfl, h.nesting⟩
  have hread' := expressionOf_eq_ok_iff (f := ⟨(plain ts).length + 1, 0⟩).2 ⟨_, rfl, h'.nesting⟩
  exact Except.ok.inj (hread.symm.trans hread')

theorem Derives.ne_nil {d : Nat} {us : List Token} (h : Derives d .sum us [] e) : us ≠ [] := by
  rintro rfl
  obtain ⟨r, _⟩ := h.complete (f := ⟨0, 0⟩) nofun [] rfl
  exact absurd r.shorter (Nat.not_lt_zero _)

/-- The parser answers an expression just when the tokens of the text derive it in the levels that are left. -/
theorem parse_eq_ok_iff {limit : Nat} {text : List Char} :
    parse limit text = .ok e ↔
      ∃ ts d, tokenize text = .ok ts ∧ limit = d + 1 ∧ Derives d .sum (plain ts) [] e := by
  constructor
  · intro h
    obtain ⟨ts, hts, h⟩ := Outcome.bind_eq_ok.1 h
    split at h
    · cases h
    · obtain ⟨d, hlimit, hderives⟩ := expressionOf_eq_ok_iff.1 h
      exact ⟨ts, d, hts, hlimit, hderives⟩
  · rintro ⟨ts, d, hts, hlimit, h⟩
    have hne : ¬ ts.isEmpty := fun hempty => h.ne_nil (congrArg plain (List.isEmpty_iff.1 hempty))
    rw [parse, hts, Outcome.ok_bind, if_neg hne]
    exact expressionOf_eq_ok_iff.2 ⟨d, hlimit, h⟩

/-- A text is parsed to what its tokens derive. -/
theorem Spells.parse_eq_ok_iff {cs : List Char} {us : List Token} {limit : Nat} {e : Expr} (h : Spells cs us) :
    parse limit cs = .ok e ↔ ∃ d, limit = d + 1 ∧ Derives d .sum us [] e := by
  obtain ⟨ts, hts, rfl⟩ := h 0
  rw [Latex.parse_eq_ok_iff]
  constructor
  · rintro ⟨ts', d, hts', hlimit, hderives⟩
    rw [tokenize, hts] at hts'
    cases hts'
    exact ⟨d, hlimit, hderives⟩
  · rintro ⟨d, hlimit, hderives⟩
    exact ⟨ts, d, hts, hlimit, hderives⟩

/-! ## Lone numerals -/

theorem tokenize_numeral {n : Numeral} (hn : n.IsWritten) : tokenize n.text = .ok [⟨.number n, 0⟩] := by
  have hcut : Cut [] 0 (n.text ++ []) _ := .number hn nofun .nil
  rw [List.append_nil] at hcut
  exact tokenize_of_cut hcut

/-- A lone numeral is an expression just when its places can be counted. -/
theorem parse_numeral {n : Numeral} (hn : n.IsWritten) (depth : Nat) :
    parse (depth + 1) n.text = if n.isScalable then .ok (.num n.value) else .error (.unexpected 0 .number) := by
  split
  · rename_i hscalable
    have hatom : Derives depth .atom [.number n] [] (.num n.value) :=
      .A_Number hscalable fun h => not_beginsLiteralFraction_nil h.2
    exact parse_eq_ok_iff.2 ⟨_, depth, tokenize_numeral hn, rfl, .sum_of_atom hatom⟩
  · rename_i hlong
    have hsum (f : Frame) (deeper : Deeper) : sum f deeper [⟨.number n, 0⟩] = .error (.unexpected 0 .number) := by
      refine sum_eq_error (stops_cons rfl) ?_
      simp only [atom, hlong]
      rfl
    rw [parse, tokenize_numeral hn, Outcome.ok_bind, if_neg (by simp)]
    exact congrArg (· >>= _) (hsum _ _)

end ExactAlgebra.Latex
