import ExactAlgebra.Proofs.Latex.Spelling
import ExactAlgebra.Proofs.Scan
import ExactAlgebra.Arithmetic.Lexer

/-!
# Literals of calculations

Which characters are a literal and what number they denote. A literal token is the longest literal at the offset where
it stands.
-/

namespace ExactAlgebra

/-- A nonempty run of digits. -/
def Text.IsDigits (ds : List Char) : Prop := ds ≠ [] ∧ ∀ d ∈ ds, d.isDigit

theorem Text.digits?_eq_some {cs : List Char} {r : Reading (List Char) cs} (h : digits? cs = some r) :
    cs = r.value ++ r.rest ∧ IsDigits r.value := by
  obtain ⟨hcs, hne, hdigits, -⟩ := run?_eq_some h
  exact ⟨hcs, hne, hdigits⟩

/-- Characters that all satisfy `p` are taken by the run, which may be longer. -/
theorem run?_append_le {τ : Type} {p : τ → Bool} {front : List τ} (hne : front ≠ []) (hfront : ∀ t ∈ front, p t)
    (back : List τ) : ∃ r, run? p (front ++ back) = some r ∧ r.rest.length ≤ back.length := by
  have hsplit : front ++ back = (front ++ back.takeWhile p) ++ back.dropWhile p := by
    rw [List.append_assoc, List.takeWhile_append_dropWhile]
  have hstop : ∀ t ∈ (back.dropWhile p).head?, p t = false := by
    intro t ht
    have hnot := List.head?_dropWhile_not p back
    rw [Option.mem_def.1 ht] at hnot
    simpa using hnot
  obtain ⟨r, hr, -, hrest⟩ := run?_append (List.append_ne_nil_of_left_ne_nil hne (back.takeWhile p))
    (List.forall_mem_append.2 ⟨hfront, List.all_eq_true.1 List.all_takeWhile⟩) hstop
  rw [hsplit]
  exact ⟨r, hr, le_of_eq_of_le (congrArg List.length hrest) (List.dropWhile_suffix p).length_le⟩

namespace Arithmetic

/-- A nonempty run of spaces and tabs. -/
def IsGap (cs : List Char) : Prop := cs ≠ [] ∧ ∀ c ∈ cs, c = ' ' ∨ c = '\t'

/-- The characters are a literal for the number. -/
inductive LiteralText : List Char → Rat → Prop where
  | L_Whole {ns} : Text.IsDigits ns → LiteralText ns (Text.natural ns)
  | L_Fraction {ns ds} : Text.IsDigits ns → Text.IsDigits ds → Text.natural ds ≠ 0 →
      LiteralText (ns ++ '/' :: ds) (Text.natural ns / Text.natural ds)
  | L_Mixed {ws gap ns ds} : Text.IsDigits ws → IsGap gap → Text.IsDigits ns → Text.IsDigits ds → Text.natural ds ≠ 0 →
      LiteralText (ws ++ (gap ++ (ns ++ '/' :: ds))) (Text.natural ws + Text.natural ns / Text.natural ds)

/-! ## What is read is a literal -/

theorem fraction?_eq_some {cs : List Char} {r : Reading (Nat × Nat) cs} (h : fraction? cs = some r) :
    ∃ ns ds, cs = ns ++ '/' :: (ds ++ r.rest) ∧ Text.IsDigits ns ∧ Text.IsDigits ds ∧
      r.value = (Text.natural ns, Text.natural ds) := by
  obtain ⟨numerator, hnumerator, h⟩ := Option.bind_eq_some_iff.1 h
  obtain ⟨hcs, hns⟩ := Text.digits?_eq_some hnumerator
  split at h
  · rename_i tail htail
    obtain ⟨denominator, hdenominator, h⟩ := Option.bind_eq_some_iff.1 h
    obtain ⟨htail', hds⟩ := Text.digits?_eq_some hdenominator
    cases h
    exact ⟨numerator.value, denominator.value, by rw [← htail', ← htail, ← hcs], hns, hds, rfl⟩
  · cases h

theorem mixed?_eq_some {cs : List Char} {r : Reading Literal cs} (h : mixed? cs = some r) :
    ∃ ws gap ns ds, cs = ws ++ (gap ++ (ns ++ '/' :: (ds ++ r.rest))) ∧ Text.IsDigits ws ∧ IsGap gap ∧
      Text.IsDigits ns ∧ Text.IsDigits ds ∧ r.value = .mixed (Text.natural ws) (Text.natural ns) (Text.natural ds) := by
  obtain ⟨whole, hwhole, h⟩ := Option.bind_eq_some_iff.1 h
  obtain ⟨gap, hgap, h⟩ := Option.bind_eq_some_iff.1 h
  obtain ⟨part, hpart, h⟩ := Option.bind_eq_some_iff.1 h
  cases h
  obtain ⟨hcs, hws⟩ := Text.digits?_eq_some hwhole
  obtain ⟨hrest, hne, hblank, -⟩ := run?_eq_some hgap
  obtain ⟨ns, ds, hgap', hns, hds, hvalue⟩ := fraction?_eq_some hpart
  refine ⟨whole.value, gap.value, ns, ds, ?_, hws, ⟨hne, fun c hc => by simpa using hblank c hc⟩, hns, hds, ?_⟩
  · conv_lhs => rw [hcs, hrest, hgap']
    rfl
  · simp [hvalue]

theorem Literal.value_fraction_eq_ok {n d : Nat} {q : Rat} (h : (fraction n d).value = .ok q) :
    d ≠ 0 ∧ q = n / d := by
  rw [value] at h
  split at h
  · cases h
  · rename_i hd
    cases h
    exact ⟨hd, by rw [Rat.mkRat_eq_div]; simp⟩

/-- A mixed number is its whole and its fraction. -/
theorem Literal.value_mixed_eq_ok {w n d : Nat} {q : Rat} (h : (mixed w n d).value = .ok q) :
    ∃ q', (fraction n d).value = .ok q' ∧ q = w + q' := by
  rw [value] at h
  split at h
  · cases h
  · rename_i hd
    cases h
    exact ⟨mkRat n d, if_neg hd, rfl⟩

/-- What is read is a literal for its value. -/
theorem literal?_sound {cs : List Char} {r : Reading Literal cs} {q : Rat} (h : literal? cs = some r)
    (hq : r.value.value = .ok q) : ∃ lit, cs = lit ++ r.rest ∧ LiteralText lit q := by
  unfold literal? at h
  split at h
  · rename_i hmixed
    cases h
    obtain ⟨ws, gap, ns, ds, hcs, hws, hgap, hns, hds, hvalue⟩ := mixed?_eq_some hmixed
    rw [hvalue] at hq
    obtain ⟨q', hq', rfl⟩ := Literal.value_mixed_eq_ok hq
    obtain ⟨hd, rfl⟩ := Literal.value_fraction_eq_ok hq'
    exact ⟨ws ++ (gap ++ (ns ++ '/' :: ds)), by simpa using hcs, .L_Mixed hws hgap hns hds hd⟩
  · split at h
    · rename_i part hpart
      cases h
      obtain ⟨ns, ds, hcs, hns, hds, hvalue⟩ := fraction?_eq_some hpart
      rw [Reading.map_value, hvalue] at hq
      obtain ⟨hd, rfl⟩ := Literal.value_fraction_eq_ok hq
      exact ⟨ns ++ '/' :: ds, by simpa using hcs, .L_Fraction hns hds hd⟩
    · obtain ⟨digits, hdigits, rfl⟩ := Option.map_eq_some_iff.1 h
      obtain ⟨hcs, hns⟩ := Text.digits?_eq_some hdigits
      cases hq
      exact ⟨digits.value, hcs, .L_Whole hns⟩

/-! ## No literal is longer than what is read -/

variable {ws gap ns ds : List Char} (after : List Char)

/-- Digits end before a slash. -/
theorem digits?_slash (hns : Text.IsDigits ns) :
    ∃ r, Text.digits? (ns ++ '/' :: after) = some r ∧ r.value = ns ∧ r.rest = '/' :: after :=
  run?_append hns.1 hns.2 (by simp)

theorem fraction?_append (hns : Text.IsDigits ns) (hds : Text.IsDigits ds) :
    ∃ r, fraction? (ns ++ '/' :: (ds ++ after)) = some r ∧ r.rest.length ≤ after.length := by
  obtain ⟨numerator, hnumerator, -, hrest⟩ := digits?_slash (ds ++ after) hns
  obtain ⟨denominator, hdenominator, hle⟩ := run?_append_le hds.1 hds.2 after
  unfold fraction?
  rw [hnumerator]
  simp only [bind, Option.bind_some]
  split
  · rename_i tail htail
    obtain rfl : tail = ds ++ after := (List.cons.inj (htail.symm.trans hrest)).2
    simp only [Text.digits?, hdenominator, Option.bind_some]
    exact ⟨_, rfl, hle⟩
  · rename_i hslash
    exact absurd hrest (hslash _)

theorem mixed?_append (hws : Text.IsDigits ws) (hgap : IsGap gap) (hns : Text.IsDigits ns) (hds : Text.IsDigits ds) :
    ∃ r, mixed? (ws ++ (gap ++ (ns ++ '/' :: (ds ++ after)))) = some r ∧ r.rest.length ≤ after.length := by
  have hend : ∀ c ∈ (gap ++ (ns ++ '/' :: (ds ++ after))).head?, c.isDigit = false := by
    rw [List.head?_append_of_ne_nil _ hgap.1]
    intro c hc
    rcases hgap.2 c (List.mem_of_mem_head? hc) with rfl | rfl <;> rfl
  have hend' : ∀ c ∈ (ns ++ '/' :: (ds ++ after)).head?, (c == ' ' || c == '\t') = false := by
    rw [List.head?_append_of_ne_nil _ hns.1]
    intro c hc
    have := Text.toNat_of_isDigit (hns.2 c (List.mem_of_mem_head? hc))
    rw [Bool.or_eq_false_iff, beq_eq_false_iff_ne, beq_eq_false_iff_ne]
    constructor <;> rintro rfl <;> simp at this
  obtain ⟨⟨_, _, _⟩, hwhole, -, rfl⟩ := run?_append hws.1 hws.2 hend
  obtain ⟨⟨_, _, _⟩, hblank, -, rfl⟩ := run?_append hgap.1 (fun c hc => by simpa using hgap.2 c hc) hend'
  obtain ⟨part, hpart, hle⟩ := fraction?_append after hns hds
  unfold mixed?
  rw [Text.digits?, hwhole]
  simp only [bind, Option.bind_some, hblank, hpart]
  exact ⟨_, rfl, hle⟩

/-- A fraction is not the whole of a mixed number. -/
theorem mixed?_slash (hns : Text.IsDigits ns) : mixed? (ns ++ '/' :: after) = none := by
  obtain ⟨⟨_, _, _⟩, hwhole, -, rfl⟩ := digits?_slash after hns
  unfold mixed?
  rw [hwhole]
  rfl

/-- What is read takes at least the digits at the front. -/
theorem literal?_length_rest_le {cs : List Char} {r : Reading Literal cs} {digits : Reading (List Char) cs}
    (h : literal? cs = some r) (hdigits : Text.digits? cs = some digits) : r.rest.length ≤ digits.rest.length := by
  unfold literal? at h
  split at h
  · rename_i hmixed
    cases h
    obtain ⟨whole, hwhole, hmixed⟩ := Option.bind_eq_some_iff.1 hmixed
    obtain ⟨gap, -, hmixed⟩ := Option.bind_eq_some_iff.1 hmixed
    obtain ⟨part, -, hmixed⟩ := Option.bind_eq_some_iff.1 hmixed
    cases hmixed
    obtain rfl : digits = whole := Option.some.inj (hdigits.symm.trans hwhole)
    exact (part.shorter.trans gap.shorter).le
  · split at h
    · rename_i part hpart
      cases h
      obtain ⟨numerator, hnumerator, hpart⟩ := Option.bind_eq_some_iff.1 hpart
      obtain rfl : digits = numerator := Option.some.inj (hdigits.symm.trans hnumerator)
      split at hpart
      · rename_i tail htail
        obtain ⟨denominator, -, hpart⟩ := Option.bind_eq_some_iff.1 hpart
        cases hpart
        have hlength : digits.rest.length = tail.length + 1 := congrArg List.length htail
        exact (denominator.shorter.trans (hlength ▸ Nat.lt_succ_self _)).le
      · cases hpart
    · obtain ⟨digits', hdigits', rfl⟩ := Option.map_eq_some_iff.1 h
      obtain rfl : digits = digits' := Option.some.inj (hdigits.symm.trans hdigits')
      exact le_rfl

/-- What is read takes every literal at the front. -/
theorem LiteralText.length_rest_le {lit cs after : List Char} {q : Rat} {r : Reading Literal cs} (h : LiteralText lit q)
    (hcs : cs = lit ++ after) (hr : literal? cs = some r) : r.rest.length ≤ after.length := by
  cases h with
  | L_Whole hns =>
      subst hcs
      obtain ⟨digits, hdigits, hle⟩ := run?_append_le hns.1 hns.2 after
      exact (literal?_length_rest_le hr hdigits).trans hle
  | L_Fraction hns hds =>
      rw [List.append_assoc, List.cons_append] at hcs
      subst hcs
      obtain ⟨part, hpart, hle⟩ := fraction?_append after hns hds
      rw [literal?, mixed?_slash _ hns, hpart] at hr
      cases hr
      exact hle
  | L_Mixed hws hgap hns hds =>
      simp only [List.append_assoc, List.cons_append] at hcs
      subst hcs
      obtain ⟨number, hnumber, hle⟩ := mixed?_append after hws hgap hns hds
      rw [literal?, hnumber] at hr
      cases hr
      exact hle

/-! ## Tokens -/

theorem sign?_eq_some {cs : List Char} {r : Reading Token cs} (h : sign? cs = some r) :
    (∃ front, cs = front ++ r.rest) ∧ ∀ q, r.value ≠ .literal q := by
  unfold sign? at h
  split at h
  · cases h
    exact ⟨⟨"\\times".toList, rfl⟩, nofun⟩
  · cases h
    exact ⟨⟨"\\cdot".toList, rfl⟩, nofun⟩
  · cases h
    exact ⟨⟨"\\div".toList, rfl⟩, nofun⟩
  · rename_i c cs _ _ _
    obtain ⟨token, htoken, rfl⟩ := Option.map_eq_some_iff.1 h
    refine ⟨⟨[c], rfl⟩, ?_⟩
    split at htoken <;> cases htoken <;> exact nofun
  · cases h

theorem lexeme_eq_append {offset : Nat} {cs : List Char} {r : Reading (Option Token) cs}
    (h : lexeme offset cs = .ok r) : ∃ front, cs = front ++ r.rest := by
  unfold lexeme at h
  split at h
  · rename_i number hnumber
    obtain ⟨q, hq, rfl⟩ := Outcome.map_eq_ok.1 h
    obtain ⟨lit, hcs, -⟩ := literal?_sound hnumber hq
    exact ⟨lit, hcs⟩
  · split at h
    · rename_i sign hsign
      cases h
      exact (sign?_eq_some hsign).1
    · cases h

/-- At a byte offset of a text stands a literal for the number, and no literal there is longer. -/
def LiteralAt (text : List Char) (offset : Nat) (q : Rat) : Prop :=
  ∃ before lit after, text = before ++ (lit ++ after) ∧ Text.byteLength before = offset ∧ LiteralText lit q ∧
    ∀ longer q', LiteralText longer q' → longer <+: lit ++ after → longer.length ≤ lit.length

/-- A literal token has the value of the longest literal at its offset. -/
theorem literalAt_of_mem {text : List Char} {ts : List (Placed Token)} {q : Rat} {offset : Nat}
    (hts : tokenize text = .ok ts) (ht : ⟨.literal q, offset⟩ ∈ ts) : LiteralAt text offset q := by
  obtain ⟨before, cs, r, rfl, hoffset, hr, hvalue⟩ := carriedBy_of_mem_scan lexeme_eq_append hts ht
  simp only [lexeme] at hr
  split at hr
  · rename_i number hnumber
    obtain ⟨q', hq, rfl⟩ := Outcome.map_eq_ok.1 hr
    obtain rfl : q' = q := by simpa using hvalue
    obtain ⟨lit, hcs, hlit⟩ := literal?_sound hnumber hq
    refine ⟨before, lit, number.rest, by rw [← hcs], by simpa using hoffset.symm, hlit, ?_⟩
    rintro longer q' hlonger ⟨after, hafter⟩
    have hle := hlonger.length_rest_le (hcs.trans hafter.symm) hnumber
    have hlength := congrArg List.length hafter
    simp only [List.length_append] at hlength
    omega
  · split at hr
    · rename_i sign hsign
      cases hr
      exact absurd (Option.some.inj hvalue) ((sign?_eq_some hsign).2 q)
    · cases hr

end Arithmetic

end ExactAlgebra
