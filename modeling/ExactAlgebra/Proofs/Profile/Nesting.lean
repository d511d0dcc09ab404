import ExactAlgebra.Proofs.Profile.Fractions
import ExactAlgebra.Proofs.Profile.Levels

/-!
# Nesting of fractions

The level that the search finds in a text. The search takes a group for an argument if nothing but blanks stands before
it, so what it sees of a text is where the marks are and where something else than blanks is between them.
-/

namespace ExactAlgebra.Profile

/-! ## What the search sees -/

/-- The words that a mark stands for. -/
def Mark.words : Mark → List (List Char)
  | fraction => fractionCommands
  | opening => [['\x7b']]
  | closing => [['\x7d']]

/-- The character is not blank, and no mark begins here. -/
structure Unmarked (c : Char) (cs : List Char) : Prop where
  blank : Text.isBlank c = false
  brace : Mark.ofBrace? c = none
  fraction : beginsFraction (c :: cs) = false

/-- The marks of a text, and between them the characters that are not blank. -/
inductive Seen : List Char → List (Option Mark) → Prop where
  | nil : Seen [] []
  | blank {c cs us} : Text.isBlank c → Seen cs us → Seen (c :: cs) us
  | mark {m word cs us} : word ∈ m.words → Seen cs us → Seen (word ++ cs) (some m :: us)
  | other {c cs us} : Unmarked c cs → Seen cs us → Seen (c :: cs) (none :: us)

variable {c : Char} {word cs text tail inner rest : List Char} {m : Mark} {us : List (Option Mark)}
  {bound depth level : Nat}

theorem marks_of_mem_words (h : word ∈ m.words) (cs : List Char) : marks (word ++ cs) = m :: marks cs := by
  cases m with
  | fraction => exact marks_fractionCommand h cs
  | opening | closing =>
      obtain rfl := List.mem_singleton.1 h
      rfl

theorem closing_of_mem_words (h : word ∈ m.words) (hword : '\x7d' ∈ word) : m = .closing ∧ word = ['\x7d'] := by
  cases m with
  | fraction => exact absurd hword (of_mem_fractionCommands h).2
  | opening =>
      obtain rfl := List.mem_singleton.1 h
      exact absurd hword (by decide)
  | closing => exact ⟨rfl, List.mem_singleton.1 h⟩

theorem beginsFraction_blank (hc : Text.isBlank c) : beginsFraction (c :: cs) = false := by
  apply beginsFraction_cons
  rintro rfl
  exact absurd hc (by decide)

theorem Seen.marks (h : Seen cs us) : Profile.marks cs = us.reduceOption := by
  induction h with
  | nil => rfl
  | blank hc _ ih => rw [marks_cons (Mark.mayBegin_eq_false rfl rfl rfl hc), ih]
  | mark hword _ ih => rw [marks_of_mem_words hword, ih, List.reduceOption_cons_of_some]
  | other hc _ ih =>
      rw [Profile.marks, hc.fraction, hc.brace, ih]
      rfl

/-! ### Commands -/

theorem afterFraction?_cons (h : beginsFraction (c :: cs) = false) : afterFraction? (c :: cs) = afterFraction? cs := by
  have hnone : (fractionCommands.findSome? fun command => Text.after? command (c :: cs)) = none := by
    rw [List.findSome?_eq_none_iff]
    intro command hcommand
    rw [beginsFraction, List.any_eq_false] at h
    rw [Text.after?, if_neg (h command hcommand)]
  rw [afterFraction?, hnone]

theorem Seen.of_afterFraction (h : Seen cs us) (htail : afterFraction? cs = some tail) :
    ∃ front vs, us = front ++ some .fraction :: vs ∧ some .fraction ∉ front ∧ Seen tail vs := by
  induction h with
  | nil => cases htail
  | blank hc _ ih =>
      rw [afterFraction?_cons (beginsFraction_blank hc)] at htail
      exact ih htail
  | @mark m word cs us hword h ih =>
      cases m with
      | fraction =>
          have hafter : afterFraction? (word ++ cs) = some cs := by
            simp only [Mark.words, fractionCommands, List.mem_cons, List.not_mem_nil, or_false] at hword
            rcases hword with rfl | rfl | rfl <;> rfl
          obtain rfl : cs = tail := Option.some.inj (hafter.symm.trans htail)
          exact ⟨[], us, rfl, List.not_mem_nil, h⟩
      | opening | closing =>
          obtain rfl := List.mem_singleton.1 hword
          rw [List.singleton_append, afterFraction?_cons (beginsFraction_cons (by decide))] at htail
          obtain ⟨front, vs, rfl, hfront, hvs⟩ := ih htail
          exact ⟨_ :: front, vs, rfl, by simpa using hfront, hvs⟩
  | other hc _ ih =>
      rw [afterFraction?_cons hc.fraction] at htail
      obtain ⟨front, vs, rfl, hfront, hvs⟩ := ih htail
      exact ⟨none :: front, vs, rfl, by simpa using hfront, hvs⟩

/-! ### Groups -/

theorem braceGroup?_blank (hc : Text.isBlank c) : braceGroup? (c :: cs) = braceGroup? cs := by
  unfold braceGroup? Text.trimLeft
  rw [List.dropWhile_cons_of_pos hc]

theorem braceGroup?_cons (hc : Text.isBlank c = false) :
    braceGroup? (c :: cs) = if c = '\x7b' then closeGroup? 0 cs else none := by
  unfold braceGroup? Text.trimLeft
  rw [List.dropWhile_cons_of_neg (by simp [hc])]

theorem append_eq_append_cons {τ : Type} {a : τ} {word front back tail : List τ} (ha : a ∉ word)
    (h : word ++ tail = front ++ a :: back) : ∃ middle, front = word ++ middle ∧ tail = middle ++ a :: back := by
  rcases List.append_eq_append_iff.1 h with h | ⟨middle, rfl, hback⟩
  · exact h
  · cases middle with
    | nil => exact ⟨[], by simp, hback.symm⟩
    | cons b middle =>
        obtain ⟨rfl, -⟩ := List.cons.inj hback
        exact absurd (by simp) ha

/-- What is seen of a text that goes over a closing brace is what is seen before and behind. -/
theorem Seen.of_closing (h : Seen (inner ++ '\x7d' :: rest) us) :
    ∃ vs ws, us = vs ++ some .closing :: ws ∧ Seen inner vs ∧ Seen rest ws := by
  generalize htext : inner ++ '\x7d' :: rest = text at h
  induction h generalizing inner with
  | nil => simp at htext
  | @blank c cs us hc h ih =>
      cases inner with
      | nil =>
          cases htext
          exact absurd hc (by decide)
      | cons d inner =>
          cases htext
          obtain ⟨vs, ws, rfl, hvs, hws⟩ := ih rfl
          exact ⟨vs, ws, rfl, .blank hc hvs, hws⟩
  | @mark m word cs us hword h ih =>
      by_cases hclosing : '\x7d' ∈ word
      · obtain ⟨rfl, rfl⟩ := closing_of_mem_words hword hclosing
        cases inner with
        | nil =>
            cases htext
            exact ⟨[], us, rfl, .nil, h⟩
        | cons d inner =>
            cases htext
            obtain ⟨vs, ws, rfl, hvs, hws⟩ := ih rfl
            exact ⟨some .closing :: vs, ws, rfl, .mark hword hvs, hws⟩
      · obtain ⟨inner', rfl, rfl⟩ := append_eq_append_cons hclosing htext.symm
        obtain ⟨vs, ws, rfl, hvs, hws⟩ := ih rfl
        exact ⟨some m :: vs, ws, rfl, .mark hword hvs, hws⟩
  | @other c cs us hc h ih =>
      cases inner with
      | nil =>
          cases htext
          exact absurd hc.brace (by decide)
      | cons d inner =>
          cases htext
          obtain ⟨vs, ws, rfl, hvs, hws⟩ := ih rfl
          have hfraction := beginsFraction_append_closing (c :: inner) rest
          exact ⟨none :: vs, ws, rfl, .other ⟨hc.blank, hc.brace, hfraction ▸ hc.fraction⟩ hvs, hws⟩

theorem Seen.of_braceGroup (h : Seen text us) (hgroup : braceGroup? text = some (inner, rest)) :
    ∃ vs ws, us = some .opening :: (vs ++ some .closing :: ws) ∧ Seen inner vs ∧ Seen rest ws := by
  induction h with
  | nil => cases hgroup
  | blank hc _ ih =>
      rw [braceGroup?_blank hc] at hgroup
      exact ih hgroup
  | @mark m word cs us hword h =>
      cases m with
      | fraction =>
          obtain ⟨⟨name, rfl⟩, -⟩ := of_mem_fractionCommands hword
          cases hgroup
      | opening =>
          obtain rfl := List.mem_singleton.1 hword
          obtain ⟨rfl, -⟩ := of_closeGroup hgroup
          obtain ⟨vs, ws, rfl, hvs, hws⟩ := h.of_closing
          exact ⟨vs, ws, rfl, hvs, hws⟩
      | closing =>
          obtain rfl := List.mem_singleton.1 hword
          cases hgroup
  | other hc =>
      rw [braceGroup?_cons hc.blank] at hgroup
      split at hgroup
      · rename_i hc'
        subst hc'
        exact absurd hc.brace (by decide)
      · cases hgroup

/-- Where all groups are closed, the group that is open now is closed. -/
theorem closeGroup?_ne_none (h : Nests bound (level + depth + 1) (marks cs) 0) : closeGroup? depth cs ≠ none := by
  induction cs generalizing depth with
  | nil => cases h
  | cons c cs ih =>
      unfold closeGroup?
      split
      · rename_i hclosing
        subst hclosing
        cases depth with
        | zero => exact Option.some_ne_none _
        | succ depth =>
            cases h with
            | closing h => exact mt Option.map_eq_none_iff.1 (ih h)
      · rename_i hclosing
        split
        · rename_i hopening
          subst hopening
          cases h with
          | opening h => exact mt Option.map_eq_none_iff.1 (ih h)
        · rename_i hopening
          rw [Ne, Option.map_eq_none_iff]
          rw [marks, Mark.ofBrace?, if_neg hopening, if_neg hclosing] at h
          split at h
          · cases h with
            | fraction _ h => exact ih h
          · exact ih h

/-- Where no group is found, none is opened next. -/
theorem Seen.head?_ne (h : Seen text us) (hnests : Nests bound level (Profile.marks text) 0)
    (hgroup : braceGroup? text = none) : us.head? ≠ some (some .opening) := by
  induction h with
  | nil | other => exact nofun
  | blank hc _ ih =>
      rw [braceGroup?_blank hc] at hgroup
      rw [marks_cons (Mark.mayBegin_eq_false rfl rfl rfl hc)] at hnests
      exact ih hnests hgroup
  | @mark m word cs us hword =>
      cases m with
      | fraction | closing => exact nofun
      | opening =>
          obtain rfl := List.mem_singleton.1 hword
          cases hnests with
          | opening hnests =>
              have hclosed : closeGroup? 0 cs ≠ none := closeGroup?_ne_none hnests
              exact absurd hgroup hclosed

theorem Seen.fraction_notMem (h : Seen text us) (hmarks : .fraction ∉ Profile.marks text) :
    some .fraction ∉ us := by
  rwa [h.marks, List.reduceOption_mem_iff] at hmarks

/-! ## The level of a text -/

namespace Fractions

theorem deepest_fraction (ns ms : List Nat) :
    deepest (1 :: (ns.map (· + 1) ++ ms)) = max (deepest ns + 1) (deepest ms) := by
  rw [← List.cons_append, deepest_append, deepest_around]

/-- Where the depth suffices, the level is the deepest one of what is seen. -/
theorem level_ofText {p : Place} (hseen : Seen text us) (h : Nests (depth + 1) level (marks text) 0)
    (hp : p.IsOutside) : (ofText depth text).level = deepest (p.levels us) := by
  -- the place is outside of arguments, because what is in them is searched on its own
  fun_induction ofText depth text generalizing level us p with
  | case1 depth text hnone =>
      rw [Place.levels_eq_nil (hseen.fraction_notMem (fraction_notMem_marks hnone))]
      rfl
  | case2 depth text tail htail hgroup ih =>
      obtain ⟨front, us, rfl, hfront, hus⟩ := hseen.of_afterFraction htail
      obtain ⟨middle, h⟩ := h.of_afterFraction htail
      have hq := hp.run hfront
      have hq' : Place.IsOutside ⟨(p.run front).opened, .other⟩ := ⟨hq.depth, rfl⟩
      have hlevels : (p.run front).levels (some .fraction :: us) =
          1 :: Place.levels ⟨(p.run front).opened, .other⟩ us := by
        rw [Place.levels, hq.depth, Place.after, Place.levels_next (hus.head?_ne h hgroup) .other]
        rfl
      rw [Place.levels_append, Place.levels_eq_nil hfront, hlevels, List.nil_append]
      exact congrArg (max 1) (ih hus h hq')
  | case3 depth text tail htail numerator rest hnumerator hdenominator inner ihn =>
      rename_i ihr
      obtain ⟨front, us, rfl, hfront, hus⟩ := hseen.of_afterFraction htail
      obtain ⟨vs, ws, rfl, hvs, hws⟩ := hus.of_braceGroup hnumerator
      obtain ⟨middle, h⟩ := h.of_afterFraction htail
      obtain ⟨hn, hr⟩ := h.of_braceGroup hnumerator
      have hq := hp.run hfront
      have hq' : Place.IsOutside ⟨(p.run front).opened, .other⟩ := ⟨hq.depth, rfl⟩
      have hinner : inner.level = deepest (Place.start.levels vs) := by
        cases depth with
        | zero =>
            rw [Place.levels_eq_nil (hvs.fraction_notMem hn.fraction_notMem)]
            rfl
        | succ depth => exact ihn depth hvs hn Place.start_isOutside
      rw [Place.levels_append, Place.levels_eq_nil hfront, List.nil_append,
        Place.levels_numerator hq.depth (hvs.marks ▸ hn), Place.levels_next (hws.head?_ne hr hdenominator) .other,
        deepest_fraction, ← hinner, ← ihr hws hr hq']
      rfl
  | case4 depth text tail htail numerator afterNumerator hnumerator denominator rest hdenominator inner ihn ihd =>
      rename_i ihr
      obtain ⟨front, us, rfl, hfront, hus⟩ := hseen.of_afterFraction htail
      obtain ⟨vs, us, rfl, hvs, hus⟩ := hus.of_braceGroup hnumerator
      obtain ⟨ws, us, rfl, hws, hus⟩ := hus.of_braceGroup hdenominator
      obtain ⟨middle, h⟩ := h.of_afterFraction htail
      obtain ⟨hn, h⟩ := h.of_braceGroup hnumerator
      obtain ⟨hd, hr⟩ := h.of_braceGroup hdenominator
      have hq := hp.run hfront
      have hq' : Place.IsOutside ⟨(p.run front).opened, .other⟩ := ⟨hq.depth, rfl⟩
      have hinner : inner.level = deepest (Place.start.levels vs ++ Place.start.levels ws) := by
        cases depth with
        | zero =>
            rw [Place.levels_eq_nil (hvs.fraction_notMem hn.fraction_notMem),
              Place.levels_eq_nil (hws.fraction_notMem hd.fraction_notMem)]
            rfl
        | succ depth =>
            rw [deepest_append, ← ihn depth hvs hn Place.start_isOutside, ← ihd depth hws hd Place.start_isOutside]
            rfl
      rw [Place.levels_append, Place.levels_eq_nil hfront, List.nil_append,
        Place.levels_numerator hq.depth (hvs.marks ▸ hn), Place.levels_denominator hq.depth (hws.marks ▸ hd),
        ← List.append_assoc, ← List.map_append, deepest_fraction, ← hinner, ← ihr hus hr hq']
      rfl

end Fractions

end ExactAlgebra.Profile
