import ExactAlgebra.Profile.Fractions
import ExactAlgebra.Proofs.Outcome

/-!
# Groups in braces

The group that is cut off a text is the only one with as many opening as closing braces of which no front closes more
than it opens. The cut is found by counting: the counter stands at one or more within the group, so that it never has to
go below zero.
-/

namespace ExactAlgebra.Profile

/-! ## Closing a group -/

/-- The text closes `depth` groups that are open before it, and all those that it opens. -/
inductive Closes : Nat → List Char → Prop where
  | nil : Closes 0 []
  | opening {depth cs} : Closes (depth + 1) cs → Closes depth ('\x7b' :: cs)
  | closing {depth cs} : Closes depth cs → Closes (depth + 1) ('\x7d' :: cs)
  | other {depth c cs} : c ≠ '\x7b' → c ≠ '\x7d' → Closes depth cs → Closes depth (c :: cs)

variable {depth : Nat} {c : Char} {cs text inner rest : List Char}

theorem closeGroup?_opening : closeGroup? depth ('\x7b' :: cs) =
    (closeGroup? (depth + 1) cs).map fun parts => ('\x7b' :: parts.1, parts.2) := by
  rw [closeGroup?.eq_def depth]
  rfl

theorem closeGroup?_closing : closeGroup? (depth + 1) ('\x7d' :: cs) =
    (closeGroup? depth cs).map fun parts => ('\x7d' :: parts.1, parts.2) := rfl

theorem closeGroup?_other (hopening : c ≠ '\x7b') (hclosing : c ≠ '\x7d') :
    closeGroup? depth (c :: cs) = (closeGroup? depth cs).map fun parts => (c :: parts.1, parts.2) := by
  rw [closeGroup?.eq_def depth (c :: cs)]
  simp only [if_neg hclosing, if_neg hopening]

theorem of_closeGroup (h : closeGroup? depth cs = some (inner, rest)) :
    cs = inner ++ '\x7d' :: rest ∧ Closes depth inner := by
  induction cs generalizing depth inner with
  | nil => cases h
  | cons c cs ih =>
      have hstep {depth : Nat} :
          (closeGroup? depth cs).map (fun parts => (c :: parts.1, parts.2)) = some (inner, rest) →
          ∃ inner', inner = c :: inner' ∧ cs = inner' ++ '\x7d' :: rest ∧ Closes depth inner' := by
        intro hmap
        obtain ⟨⟨inner', _⟩, hgroup, heq⟩ := Option.map_eq_some_iff.1 hmap
        cases heq
        exact ⟨inner', rfl, ih hgroup⟩
      by_cases hopening : c = '\x7b'
      · subst hopening
        rw [closeGroup?_opening] at h
        obtain ⟨inner', rfl, rfl, hinner⟩ := hstep h
        exact ⟨rfl, .opening hinner⟩
      · by_cases hclosing : c = '\x7d'
        · subst hclosing
          cases depth with
          | zero =>
              cases h
              exact ⟨rfl, .nil⟩
          | succ depth =>
              rw [closeGroup?_closing] at h
              obtain ⟨inner', rfl, rfl, hinner⟩ := hstep h
              exact ⟨rfl, .closing hinner⟩
        · rw [closeGroup?_other hopening hclosing] at h
          obtain ⟨inner', rfl, rfl, hinner⟩ := hstep h
          exact ⟨rfl, .other hopening hclosing hinner⟩

theorem closeGroup?_append (h : Closes depth inner) :
    closeGroup? depth (inner ++ '\x7d' :: rest) = some (inner, rest) := by
  induction h with
  | nil => rfl
  | opening _ ih => rw [List.cons_append, closeGroup?_opening, ih, Option.map_some]
  | closing _ ih => rw [List.cons_append, closeGroup?_closing, ih, Option.map_some]
  | other hopening hclosing _ ih => rw [List.cons_append, closeGroup?_other hopening hclosing, ih, Option.map_some]

theorem closeGroup?_eq_some_iff :
    closeGroup? depth cs = some (inner, rest) ↔ cs = inner ++ '\x7d' :: rest ∧ Closes depth inner := by
  refine ⟨of_closeGroup, ?_⟩
  rintro ⟨rfl, hinner⟩
  exact closeGroup?_append hinner

/-! ## Braces in fronts of a text -/

/-- No front of the text closes more groups than were open before it and are opened in it. -/
def StaysOpen (depth : Nat) (cs : List Char) : Prop :=
  ∀ front, front <+: cs → front.count '\x7d' ≤ depth + front.count '\x7b'

theorem staysOpen_nil : StaysOpen depth [] := by
  intro front hfront
  rw [List.prefix_nil.1 hfront]
  exact Nat.zero_le _

theorem staysOpen_cons : StaysOpen depth (c :: cs) ↔
    ∀ front, front <+: cs → (c :: front).count '\x7d' ≤ depth + (c :: front).count '\x7b' := by
  constructor
  · exact fun h front hfront => h _ (List.cons_prefix_cons.2 ⟨rfl, hfront⟩)
  · intro h front hfront
    rcases List.prefix_cons_iff.1 hfront with rfl | ⟨front, rfl, hfront'⟩
    · exact Nat.zero_le _
    · exact h front hfront'

theorem staysOpen_opening : StaysOpen depth ('\x7b' :: cs) ↔ StaysOpen (depth + 1) cs := by
  rw [staysOpen_cons]
  refine forall₂_congr fun front _ => ?_
  rw [List.count_cons_self, List.count_cons_of_ne (by decide)]
  omega

theorem not_staysOpen_closing : ¬ StaysOpen 0 ('\x7d' :: cs) := by
  intro h
  have := staysOpen_cons.1 h [] List.nil_prefix
  simp at this

theorem staysOpen_closing : StaysOpen (depth + 1) ('\x7d' :: cs) ↔ StaysOpen depth cs := by
  rw [staysOpen_cons]
  refine forall₂_congr fun front _ => ?_
  rw [List.count_cons_self, List.count_cons_of_ne (by decide)]
  omega

theorem staysOpen_other (hopening : c ≠ '\x7b') (hclosing : c ≠ '\x7d') :
    StaysOpen depth (c :: cs) ↔ StaysOpen depth cs := by
  rw [staysOpen_cons]
  refine forall₂_congr fun front _ => ?_
  rw [List.count_cons_of_ne hopening, List.count_cons_of_ne hclosing]

/-- A text closes its groups just when its fronts do not close too many and the whole of it closes enough. -/
theorem closes_iff : Closes depth cs ↔ StaysOpen depth cs ∧ depth + cs.count '\x7b' = cs.count '\x7d' := by
  constructor
  · intro h
    induction h with
    | nil => exact ⟨staysOpen_nil, rfl⟩
    | opening _ ih =>
        refine ⟨staysOpen_opening.2 ih.1, ?_⟩
        rw [List.count_cons_self, List.count_cons_of_ne (by decide), ← ih.2]
        omega
    | closing _ ih =>
        refine ⟨staysOpen_closing.2 ih.1, ?_⟩
        rw [List.count_cons_self, List.count_cons_of_ne (by decide), ← ih.2]
        omega
    | other hopening hclosing _ ih =>
        refine ⟨(staysOpen_other hopening hclosing).2 ih.1, ?_⟩
        rw [List.count_cons_of_ne hopening, List.count_cons_of_ne hclosing, ih.2]
  · rintro ⟨hopen, hcount⟩
    induction cs generalizing depth with
    | nil =>
        obtain rfl : depth = 0 := hcount
        exact .nil
    | cons c cs ih =>
        by_cases hopening : c = '\x7b'
        · subst hopening
          rw [List.count_cons_self, List.count_cons_of_ne (by decide)] at hcount
          exact .opening (ih (staysOpen_opening.1 hopen) (by omega))
        · by_cases hclosing : c = '\x7d'
          · subst hclosing
            rw [List.count_cons_self, List.count_cons_of_ne (by decide)] at hcount
            cases depth with
            | zero => exact absurd hopen not_staysOpen_closing
            | succ depth => exact .closing (ih (staysOpen_closing.1 hopen) (by omega))
          · rw [List.count_cons_of_ne hopening, List.count_cons_of_ne hclosing] at hcount
            exact .other hopening hclosing (ih ((staysOpen_other hopening hclosing).1 hopen) hcount)

/-- No group is cut off just when the one that is open now stays open. -/
theorem closeGroup?_eq_none_iff : closeGroup? depth cs = none ↔ StaysOpen depth cs := by
  induction cs generalizing depth with
  | nil => exact iff_of_true rfl staysOpen_nil
  | cons c cs ih =>
      by_cases hopening : c = '\x7b'
      · subst hopening
        rw [closeGroup?_opening, Option.map_eq_none_iff, ih, staysOpen_opening]
      · by_cases hclosing : c = '\x7d'
        · subst hclosing
          cases depth with
          | zero => exact iff_of_false (Option.some_ne_none _) not_staysOpen_closing
          | succ depth => rw [closeGroup?_closing, Option.map_eq_none_iff, ih, staysOpen_closing]
        · rw [closeGroup?_other hopening hclosing, Option.map_eq_none_iff, ih, staysOpen_other hopening hclosing]

/-- The text opens as many groups as it closes, and no front of it closes more than it opens. -/
structure Balanced (cs : List Char) : Prop where
  whole : cs.count '\x7b' = cs.count '\x7d'
  fronts : ∀ front, front <+: cs → front.count '\x7d' ≤ front.count '\x7b'

theorem closes_zero_iff : Closes 0 cs ↔ Balanced cs := by
  simp only [closes_iff, StaysOpen, Nat.zero_add]
  exact ⟨fun h => ⟨h.2, h.1⟩, fun h => ⟨h.fronts, h.whole⟩⟩

/-! ## Groups behind blanks -/

/-- Behind blanks, the text is a group in braces around `inner` with `rest` after it. -/
structure IsGroup (text inner rest : List Char) : Prop where
  text_eq : Text.trimLeft text = '\x7b' :: (inner ++ '\x7d' :: rest)
  balanced : Balanced inner

theorem braceGroup?_of_opening (h : Text.trimLeft text = '\x7b' :: cs) : braceGroup? text = closeGroup? 0 cs := by
  rw [braceGroup?, h]
  exact if_pos rfl

theorem braceGroup?_of_not_opening (h : ∀ cs, Text.trimLeft text ≠ '\x7b' :: cs) : braceGroup? text = none := by
  unfold braceGroup?
  split
  · rename_i c cs hcs
    refine if_neg ?_
    rintro rfl
    exact h cs hcs
  · rfl

theorem braceGroup?_eq_some_iff : braceGroup? text = some (inner, rest) ↔ IsGroup text inner rest := by
  by_cases hopening : ∃ cs, Text.trimLeft text = '\x7b' :: cs
  · obtain ⟨cs, hcs⟩ := hopening
    rw [braceGroup?_of_opening hcs, closeGroup?_eq_some_iff, closes_zero_iff]
    constructor
    · rintro ⟨rfl, hinner⟩
      exact ⟨hcs, hinner⟩
    · rintro ⟨htext, hinner⟩
      exact ⟨(List.cons.inj (hcs.symm.trans htext)).2, hinner⟩
  · rw [braceGroup?_of_not_opening (not_exists.1 hopening)]
    exact iff_of_false nofun fun h => hopening ⟨_, h.text_eq⟩

theorem braceGroup?_eq_none_iff : braceGroup? text = none ↔
    (∀ cs, Text.trimLeft text ≠ '\x7b' :: cs) ∨ ∃ cs, Text.trimLeft text = '\x7b' :: cs ∧ StaysOpen 0 cs := by
  by_cases hopening : ∃ cs, Text.trimLeft text = '\x7b' :: cs
  · obtain ⟨cs, hcs⟩ := hopening
    rw [braceGroup?_of_opening hcs, closeGroup?_eq_none_iff, hcs]
    simp
  · exact iff_of_true (braceGroup?_of_not_opening (not_exists.1 hopening)) (.inl (not_exists.1 hopening))

/-! ## The counter -/

/-- The counter of open groups is zero and should go down. -/
inductive BelowZero where
  | belowZero

/-- The counter after one more character. -/
def countBrace (opened : Nat) (c : Char) : Except BelowZero Nat :=
  if c = '\x7b' then .ok (opened + 1)
  else if c = '\x7d' then
    match opened with
    | 0 => .error .belowZero
    | opened + 1 => .ok opened
  else .ok opened

/-- The text up to the brace that takes the counter to zero and the text after it. -/
def countGroup (opened : Nat) : List Char → Except BelowZero (Option (List Char × List Char))
  | [] => .ok none
  | c :: cs => do
      let opened ← countBrace opened c
      if c = '\x7d' ∧ opened = 0 then return some ([], cs)
      else return (← countGroup opened cs).map fun parts => (c :: parts.1, parts.2)

/-- The group after leading blanks with its opening brace counted like all others. -/
def countBraceGroup (text : List Char) : Except BelowZero (Option (List Char × List Char)) :=
  match Text.trimLeft text with
  | c :: cs =>
      if c = '\x7b' then (countGroup 0 (c :: cs)).map (Option.map fun parts => (parts.1.tail, parts.2))
      else .ok none
  | [] => .ok none

/-- Inside a group the counter does not go below zero, and it is zero where the group is closed. -/
theorem countGroup_succ : countGroup (depth + 1) cs = .ok (closeGroup? depth cs) := by
  -- the counter counts the group itself too, so it is one more than the depth inside of it
  induction cs generalizing depth with
  | nil => rfl
  | cons c cs ih =>
      by_cases hopening : c = '\x7b'
      · subst hopening
        rw [closeGroup?_opening]
        simp [countGroup, countBrace, ih]
      · by_cases hclosing : c = '\x7d'
        · subst hclosing
          cases depth with
          | zero => rfl
          | succ depth =>
              rw [closeGroup?_closing]
              simp [countGroup, countBrace, ih]
        · rw [closeGroup?_other hopening hclosing]
          simp [countGroup, countBrace, hopening, hclosing, ih]

theorem countGroup_opening :
    countGroup 0 ('\x7b' :: cs) = .ok ((closeGroup? 0 cs).map fun parts => ('\x7b' :: parts.1, parts.2)) := by
  simp [countGroup, countBrace, countGroup_succ]

theorem countBraceGroup_eq (text : List Char) : countBraceGroup text = .ok (braceGroup? text) := by
  unfold countBraceGroup braceGroup?
  cases Text.trimLeft text with
  | nil => rfl
  | cons c cs =>
      by_cases hc : c = '\x7b'
      · subst hc
        simp [countGroup_opening, Function.comp_def]
      · simp [hc]

/-- A group is cut off a text just when there is one that balances, and no text has two of them. Otherwise there is no
opening brace, or no end to its group. Whatever the text, the counter of open groups does not go below zero. -/
theorem braceGroup?_split (text : List Char) :
    countBraceGroup text = .ok (braceGroup? text) ∧
      (∀ inner rest, braceGroup? text = some (inner, rest) ↔ IsGroup text inner rest) ∧
      (∀ inner rest inner' rest', IsGroup text inner rest → IsGroup text inner' rest' →
        inner = inner' ∧ rest = rest') ∧
      (braceGroup? text = none ↔ (∀ cs, Text.trimLeft text ≠ '\x7b' :: cs) ∨
        ∃ cs, Text.trimLeft text = '\x7b' :: cs ∧ StaysOpen 0 cs) := by
  refine ⟨countBraceGroup_eq text, fun _ _ => braceGroup?_eq_some_iff, ?_, braceGroup?_eq_none_iff⟩
  intro inner rest inner' rest' h h'
  rw [← braceGroup?_eq_some_iff] at h h'
  simpa using h.symm.trans h'

theorem braceGroup?_split_nested :
    braceGroup? " \u2003\x7ba\x7bb\x7dc\x7drest".toList = some ("a\x7bb\x7dc".toList, "rest".toList) ∧
      ∀ inner rest, IsGroup " \u2003\x7ba\x7bb\x7dc\x7drest".toList inner rest →
        inner = "a\x7bb\x7dc".toList ∧ rest = "rest".toList := by
  have hgroup : braceGroup? " \u2003\x7ba\x7bb\x7dc\x7drest".toList =
      some ("a\x7bb\x7dc".toList, "rest".toList) := by decide
  obtain ⟨-, hgroups, hunique, -⟩ := braceGroup?_split " \u2003\x7ba\x7bb\x7dc\x7drest".toList
  exact ⟨hgroup, fun _ _ h => hunique _ _ _ _ h ((hgroups _ _).1 hgroup)⟩

end ExactAlgebra.Profile
