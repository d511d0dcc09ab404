import ExactAlgebra.Profile.Fractions

/-!
# Fraction commands and braces

What the search for fractions sees of a text: where fraction commands begin and where braces stand. A list of these
marks is followed with the number of the groups that are open.
-/

namespace ExactAlgebra.Profile

/-- What stands at a place of a text: a fraction command begins, or there is a brace. -/
inductive Mark where
  | fraction
  | opening
  | closing
  deriving DecidableEq

/-! ## Nesting -/

/-- From `level` open groups, the marks lead to `level'`. Every fraction stands in fewer than `bound` groups, and every
closing brace closes a group. -/
inductive Nests (bound : Nat) : Nat → List Mark → Nat → Prop where
  | nil {level} : Nests bound level [] level
  | fraction {level ms level'} : level < bound → Nests bound level ms level' →
      Nests bound level (.fraction :: ms) level'
  | opening {level ms level'} : Nests bound (level + 1) ms level' → Nests bound level (.opening :: ms) level'
  | closing {level ms level'} : Nests bound level ms level' → Nests bound (level + 1) (.closing :: ms) level'

namespace Nests

variable {bound level level' : Nat} {ms ns : List Mark}

theorem append {level'' : Nat} (h : Nests bound level ms level') (h' : Nests bound level' ns level'') :
    Nests bound level (ms ++ ns) level'' := by
  induction h with
  | nil => exact h'
  | fraction hlevel _ ih => exact .fraction hlevel (ih h')
  | opening _ ih => exact .opening (ih h')
  | closing _ ih => exact .closing (ih h')

theorem of_append (h : Nests bound level (ms ++ ns) level') :
    ∃ middle, Nests bound level ms middle ∧ Nests bound middle ns level' := by
  induction ms generalizing level with
  | nil => exact ⟨level, .nil, h⟩
  | cons m ms ih =>
      cases h with
      | fraction hlevel h =>
          obtain ⟨middle, hms, hns⟩ := ih h
          exact ⟨middle, .fraction hlevel hms, hns⟩
      | opening h =>
          obtain ⟨middle, hms, hns⟩ := ih h
          exact ⟨middle, .opening hms, hns⟩
      | closing h =>
          obtain ⟨middle, hms, hns⟩ := ih h
          exact ⟨middle, .closing hms, hns⟩

/-- More groups may be allowed around fractions. -/
theorem mono {bound' : Nat} (h : Nests bound level ms level') (hbound : bound ≤ bound') :
    Nests bound' level ms level' := by
  induction h with
  | nil => exact .nil
  | fraction hlevel _ ih => exact .fraction (Nat.lt_of_lt_of_le hlevel hbound) ih
  | opening _ ih => exact .opening ih
  | closing _ ih => exact .closing ih

/-- The marks may stand in one more group. -/
theorem raise (h : Nests bound level ms level') : Nests (bound + 1) (level + 1) ms (level' + 1) := by
  induction h with
  | nil => exact .nil
  | fraction hlevel _ ih => exact .fraction (Nat.succ_lt_succ hlevel) ih
  | opening _ ih => exact .opening ih
  | closing _ ih => exact .closing ih

theorem enclose (h : Nests bound level ms level) : Nests (bound + 1) level (.opening :: (ms ++ [.closing])) level :=
  .opening (h.raise.append (.closing .nil))

/-- Where no groups are allowed around fractions, there are none. -/
theorem fraction_notMem (h : Nests 0 level ms level') : .fraction ∉ ms := by
  induction h with
  | nil => exact List.not_mem_nil
  | fraction hlevel => exact absurd hlevel (Nat.not_lt_zero _)
  | opening _ ih | closing _ ih => exact List.not_mem_cons_of_ne_of_not_mem nofun ih

end Nests

/-! ## Marks of a text -/

/-- The text begins with a fraction command. -/
def beginsFraction (text : List Char) : Bool := fractionCommands.any (·.isPrefixOf text)

/-- The mark of a brace. -/
def Mark.ofBrace? (c : Char) : Option Mark :=
  if c = '\x7b' then some .opening else if c = '\x7d' then some .closing else none

/-- The marks of a text from left to right. -/
def marks : List Char → List Mark
  | [] => []
  | c :: cs => (if beginsFraction (c :: cs) then some .fraction else Mark.ofBrace? c).toList ++ marks cs

variable {c : Char} {cs front rest tail : List Char}

theorem marks_opening (cs : List Char) : marks ('\x7b' :: cs) = .opening :: marks cs := rfl

theorem beginsFraction_iff : beginsFraction cs ↔ ∃ command ∈ fractionCommands, command <+: cs := by
  simp only [beginsFraction, List.any_eq_true, List.isPrefixOf_iff_prefix]

theorem of_mem_fractionCommands {command : List Char} (h : command ∈ fractionCommands) :
    (∃ name, command = '\\' :: name) ∧ '\x7d' ∉ command := by
  simp only [fractionCommands, List.mem_cons, List.not_mem_nil, or_false] at h
  rcases h with rfl | rfl | rfl <;> exact ⟨⟨_, rfl⟩, by decide⟩

theorem beginsFraction_cons (hc : c ≠ '\\') : beginsFraction (c :: cs) = false := by
  rw [Bool.eq_false_iff, Ne, beginsFraction_iff]
  rintro ⟨command, hmem, hprefix⟩
  obtain ⟨⟨name, rfl⟩, -⟩ := of_mem_fractionCommands hmem
  exact hc (List.cons_prefix_cons.1 hprefix).1.symm

/-! ### Characters without a mark -/

/-- A mark may begin with the character. -/
def Mark.mayBegin (c : Char) : Bool := c == '\x7b' || c == '\x7d' || c == '\\'

/-- What holds of neither brace and not of the backslash holds of no character that a mark may begin with. -/
theorem Mark.mayBegin_eq_false {p : Char → Bool} (hopen : p '\x7b' = false) (hclose : p '\x7d' = false)
    (hcommand : p '\\' = false) (hc : p c) : mayBegin c = false := by
  simp only [mayBegin, Bool.or_eq_false_iff, beq_eq_false_iff_ne]
  refine ⟨⟨?_, ?_⟩, ?_⟩
  · rintro rfl
    exact absurd hc (Bool.eq_false_iff.1 hopen)
  · rintro rfl
    exact absurd hc (Bool.eq_false_iff.1 hclose)
  · rintro rfl
    exact absurd hc (Bool.eq_false_iff.1 hcommand)

theorem marks_cons (hc : Mark.mayBegin c = false) : marks (c :: cs) = marks cs := by
  simp only [Mark.mayBegin, Bool.or_eq_false_iff, beq_eq_false_iff_ne] at hc
  obtain ⟨⟨hopen, hclose⟩, hcommand⟩ := hc
  rw [marks, beginsFraction_cons hcommand, Mark.ofBrace?, if_neg hopen, if_neg hclose]
  rfl

theorem marks_append (h : ∀ c ∈ front, Mark.mayBegin c = false) : marks (front ++ rest) = marks rest := by
  induction front with
  | nil => rfl
  | cons c front ih =>
      obtain ⟨hc, hfront⟩ := List.forall_mem_cons.1 h
      rw [List.cons_append, marks_cons hc, ih hfront]

/-! ### Braces -/

theorem isPrefixOf_append_cons {word : List Char} (h : c ∉ word) (cs rest : List Char) :
    word.isPrefixOf (cs ++ c :: rest) = word.isPrefixOf cs := by
  induction word generalizing cs with
  | nil => rw [List.isPrefixOf_nil_left, List.isPrefixOf_nil_left]
  | cons d word ih =>
      obtain ⟨hne, hword⟩ := List.ne_and_not_mem_of_not_mem_cons h
      cases cs with
      | nil => simp [List.isPrefixOf, hne.symm]
      | cons e cs => simp [List.isPrefixOf, ih hword]

/-- No command goes over a brace. -/
theorem beginsFraction_append_closing (cs rest : List Char) :
    beginsFraction (cs ++ '\x7d' :: rest) = beginsFraction cs := by
  rw [Bool.eq_iff_iff, beginsFraction, beginsFraction, List.any_eq_true, List.any_eq_true]
  refine exists_congr fun command => and_congr_right fun hmem => ?_
  rw [isPrefixOf_append_cons (of_mem_fractionCommands hmem).2]

theorem marks_append_closing (cs rest : List Char) :
    marks (cs ++ '\x7d' :: rest) = marks cs ++ .closing :: marks rest := by
  induction cs with
  | nil => rfl
  | cons c cs ih =>
      rw [marks, List.append_assoc, ← ih, ← beginsFraction_append_closing (c :: cs)]
      rfl

/-! ### Searching for a fraction -/

theorem marks_fractionCommand {command : List Char} (h : command ∈ fractionCommands) (tail : List Char) :
    marks (command ++ tail) = .fraction :: marks tail := by
  simp only [fractionCommands, List.mem_cons, List.not_mem_nil, or_false] at h
  rcases h with rfl | rfl | rfl <;> rfl

theorem Mark.ofBrace?_ne_fraction (c : Char) : ofBrace? c ≠ some .fraction := by
  unfold ofBrace?
  split
  · nofun
  · split <;> nofun

theorem beginsFraction_eq_false (h : (fractionCommands.findSome? fun command => Text.after? command cs) = none) :
    beginsFraction cs = false := by
  rw [Bool.eq_false_iff, Ne, beginsFraction_iff]
  rintro ⟨command, hmem, tail, htail⟩
  have hafter := List.findSome?_eq_none_iff.1 h command hmem
  rw [Text.after?_eq_some_iff.2 htail.symm] at hafter
  cases hafter

/-- Where no command begins, the first mark is no fraction. -/
theorem marks_cons_of_beginsFraction (h : beginsFraction (c :: cs) = false) :
    ∃ gap, .fraction ∉ gap ∧ marks (c :: cs) = gap ++ marks cs := by
  refine ⟨(Mark.ofBrace? c).toList, fun hmem => Mark.ofBrace?_ne_fraction c (Option.mem_toList.1 hmem), ?_⟩
  rw [marks, h]
  rfl

/-- A text in which no command is found has no fraction. -/
theorem fraction_notMem_marks (h : afterFraction? cs = none) : .fraction ∉ marks cs := by
  induction cs with
  | nil => exact List.not_mem_nil
  | cons c cs ih =>
      rw [afterFraction?] at h
      split at h
      · cases h
      · rename_i hnone
        obtain ⟨gap, hgap, hmarks⟩ := marks_cons_of_beginsFraction (beginsFraction_eq_false hnone)
        rw [hmarks, List.mem_append, not_or]
        exact ⟨hgap, ih h⟩

/-- No fraction stands before the first command that is found, and the text after it has the other ones. -/
theorem marks_of_afterFraction (h : afterFraction? cs = some tail) :
    ∃ gap, .fraction ∉ gap ∧ marks cs = gap ++ .fraction :: marks tail := by
  induction cs with
  | nil => cases h
  | cons c cs ih =>
      rw [afterFraction?] at h
      split at h
      · rename_i hfound
        cases h
        obtain ⟨command, hmem, hafter⟩ := List.exists_of_findSome?_eq_some hfound
        rw [Text.after?_eq_some_iff.1 hafter]
        exact ⟨[], List.not_mem_nil, marks_fractionCommand hmem tail⟩
      · rename_i hnone
        obtain ⟨gap, hgap, hmarks⟩ := marks_cons_of_beginsFraction (beginsFraction_eq_false hnone)
        obtain ⟨gap', hgap', hrest⟩ := ih h
        refine ⟨gap ++ gap', ?_, ?_⟩
        · rw [List.mem_append, not_or]
          exact ⟨hgap, hgap'⟩
        · rw [hmarks, hrest, List.append_assoc]

end ExactAlgebra.Profile
