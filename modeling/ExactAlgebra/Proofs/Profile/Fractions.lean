import ExactAlgebra.Proofs.Latex.Marks
import ExactAlgebra.Proofs.Latex.Parsing
import ExactAlgebra.Proofs.Profile.Groups

/-!
# Counting fractions

The search for fractions in a text descends into the groups that follow a command, as many levels deep as it may. In a
text that is parsed it reaches every fraction command, and counts none of them twice.
-/

namespace ExactAlgebra.Profile

/-! ## Groups in braces -/

theorem marks_trimLeft (cs : List Char) : marks (Text.trimLeft cs) = marks cs := by
  have hblank : ∀ c ∈ cs.takeWhile Text.isBlank, Mark.mayBegin c = false := fun c hc =>
    Mark.mayBegin_eq_false rfl rfl rfl (List.all_eq_true.1 List.all_takeWhile c hc)
  conv_rhs => rw [← cs.takeWhile_append_dropWhile (p := Text.isBlank), marks_append hblank]
  rfl

theorem of_braceGroup {text inner rest : List Char} (h : braceGroup? text = some (inner, rest)) :
    Closes 0 inner ∧ marks text = .opening :: (marks inner ++ .closing :: marks rest) := by
  obtain ⟨htext, hinner⟩ := braceGroup?_eq_some_iff.1 h
  rw [← marks_trimLeft, htext, marks_opening, marks_append_closing]
  exact ⟨closes_zero_iff.2 hinner, rfl⟩

namespace Nests

variable {bound depth level level' : Nat} {inner rest text : List Char}

/-- A text that closes its own groups only, read inside a group, leaves that group open. Read on its own, each of its
fractions stands in one group less. -/
theorem lower (hinner : Closes depth inner) (h : Nests (bound + 1) (level + depth + 1) (marks inner) level') :
    level' = level + 1 ∧ Nests bound depth (marks inner) 0 := by
  induction hinner with
  | nil =>
      cases h
      exact ⟨rfl, .nil⟩
  | opening _ ih =>
      cases h with
      | opening h =>
          obtain ⟨hlevel, hlower⟩ := ih h
          exact ⟨hlevel, .opening hlower⟩
  | closing _ ih =>
      cases h with
      | closing h =>
          obtain ⟨hlevel, hlower⟩ := ih h
          exact ⟨hlevel, .closing hlower⟩
  | @other depth c cs hopen hclose _ ih =>
      have hmarks : marks (c :: cs) =
          (if beginsFraction (c :: cs) then some Mark.fraction else none).toList ++ marks cs := by
        rw [marks, Mark.ofBrace?, if_neg hopen, if_neg hclose]
      rw [hmarks] at h ⊢
      cases hbegins : beginsFraction (c :: cs) with
      | false =>
          rw [hbegins] at h
          exact ih h
      | true =>
          rw [hbegins] at h
          cases h with
          | fraction hbound h =>
              obtain ⟨hlevel, hlower⟩ := ih h
              exact ⟨hlevel, .fraction (by omega) hlower⟩

/-- On its own, the inside of a group has one group less around its fractions. -/
theorem of_braceGroup (hgroup : braceGroup? text = some (inner, rest))
    (h : Nests (bound + 1) level (marks text) level') :
    Nests bound 0 (marks inner) 0 ∧ Nests (bound + 1) level (marks rest) level' := by
  obtain ⟨hinner, hmarks⟩ := Profile.of_braceGroup hgroup
  rw [hmarks] at h
  cases h with
  | opening h =>
      obtain ⟨middle, hnumerator, h⟩ := h.of_append
      obtain ⟨rfl, hlower⟩ := lower hinner hnumerator
      cases h with
      | closing h => exact ⟨hlower, h⟩

theorem of_afterFraction (htail : afterFraction? text = some rest) (h : Nests bound level (marks text) level') :
    ∃ middle, Nests bound middle (marks rest) level' := by
  obtain ⟨gap, _, hmarks⟩ := marks_of_afterFraction htail
  rw [hmarks] at h
  obtain ⟨middle, _, h⟩ := h.of_append
  cases h with
  | fraction _ h => exact ⟨middle, h⟩

end Nests

namespace Fractions

variable {depth level level' : Nat} {text tail inner rest : List Char}

theorem count_marks_of_afterFraction (h : afterFraction? text = some tail) :
    (marks text).count .fraction = (marks tail).count .fraction + 1 := by
  obtain ⟨gap, hgap, hmarks⟩ := marks_of_afterFraction h
  rw [hmarks, List.count_append, List.count_eq_zero.2 hgap, List.count_cons_self, Nat.zero_add]

theorem count_marks_of_braceGroup (h : braceGroup? text = some (inner, rest)) :
    (marks text).count .fraction = (marks inner).count .fraction + (marks rest).count .fraction := by
  rw [(of_braceGroup h).2]
  simp

/-- Where the depth suffices, every fraction command is counted once. -/
theorem count_ofText (h : Nests (depth + 1) level (marks text) level') :
    (ofText depth text).count = (marks text).count .fraction := by
  -- any level will do, because the search goes on behind a command wherever that stands
  fun_induction ofText depth text generalizing level level' with
  | case1 depth text hnone => exact (List.count_eq_zero.2 (fraction_notMem_marks hnone)).symm
  | case2 depth text tail htail hgroup ih =>
      obtain ⟨middle, h⟩ := h.of_afterFraction htail
      rw [count_marks_of_afterFraction htail, ← ih h]
      exact Nat.add_comm 1 _
  | case3 depth text tail htail numerator rest hnumerator hdenominator inner ihn =>
      rename_i ihr
      obtain ⟨middle, h⟩ := h.of_afterFraction htail
      obtain ⟨hn, hr⟩ := h.of_braceGroup hnumerator
      have hinner : inner.count = (marks numerator).count .fraction := by
        cases depth with
        | zero => exact (List.count_eq_zero.2 hn.fraction_notMem).symm
        | succ depth => exact ihn depth hn
      rw [count_marks_of_afterFraction htail, count_marks_of_braceGroup hnumerator, ← hinner, ← ihr hr]
      exact Nat.add_right_comm ..
  | case4 depth text tail htail numerator afterNumerator hnumerator denominator rest hdenominator inner ihn ihd =>
      rename_i ihr
      obtain ⟨middle, h⟩ := h.of_afterFraction htail
      obtain ⟨hn, h⟩ := h.of_braceGroup hnumerator
      obtain ⟨hd, hr⟩ := h.of_braceGroup hdenominator
      have hinner : inner.count = (marks numerator).count .fraction + (marks denominator).count .fraction := by
        cases depth with
        | zero =>
            rw [List.count_eq_zero.2 hn.fraction_notMem, List.count_eq_zero.2 hd.fraction_notMem]
            rfl
        | succ depth =>
            rw [← ihn depth hn, ← ihd depth hd]
            rfl
      rw [count_marks_of_afterFraction htail, count_marks_of_braceGroup hnumerator,
        count_marks_of_braceGroup hdenominator, ← Nat.add_assoc, ← hinner, ← ihr hr]
      exact Nat.add_right_comm ..

/-- In a text that is parsed, as many fractions are counted as it has fraction tokens. The levels that the parser may
take suffice for the search. -/
theorem count_of_parse {limit : Nat} {e : Expr} (h : Latex.parse limit text = .ok e) :
    ∃ ts, Latex.tokenize text = .ok ts ∧ (ofText limit text).count = (Latex.plain ts).count .frac := by
  obtain ⟨ts, d, hts, rfl, hderives⟩ := Latex.parse_eq_ok_iff.1 h
  have hmarks := (Latex.lexes_of_scan hts).marks
  have hnests : Nests (d + 1 + 1) 0 (marks text) 0 := by
    rw [hmarks]
    exact hderives.nests.mono (Nat.le_succ _)
  refine ⟨ts, hts, ?_⟩
  rw [count_ofText hnests, hmarks, Latex.count_fraction]

theorem count_of_parse_nested :
    ∃ e ts, Latex.parse 3 "\\dfrac \x7b\\frac\x7bx\x7d\x7b2\x7d\x7d\\,\x7b3\x7d".toList = .ok e ∧
      Latex.tokenize "\\dfrac \x7b\\frac\x7bx\x7d\x7b2\x7d\x7d\\,\x7b3\x7d".toList = .ok ts ∧
      (ofText 3 "\\dfrac \x7b\\frac\x7bx\x7d\x7b2\x7d\x7d\\,\x7b3\x7d".toList).count =
        (Latex.plain ts).count .frac := by
  have h : Latex.parse 3 "\\dfrac \x7b\\frac\x7bx\x7d\x7b2\x7d\x7d\\,\x7b3\x7d".toList =
      .ok (.binary .div (.binary .div (.var "x") (.num 2)) (.num 3)) := by cbv
  obtain ⟨ts, hts, hcount⟩ := count_of_parse h
  exact ⟨_, ts, h, hts, hcount⟩

end Fractions

end ExactAlgebra.Profile
