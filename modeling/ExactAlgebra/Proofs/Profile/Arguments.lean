import ExactAlgebra.Proofs.Latex.Layout
import ExactAlgebra.Proofs.Profile.Nesting

/-!
# Arguments of fractions

The level that is reported for a text that is parsed. The search takes a group for an argument if nothing but blanks
stands before it, where the parser also allows spacing and sizing commands. So the level is right if only blanks stand
before arguments. Else it may be too small, but it is never too great.
-/

namespace ExactAlgebra

namespace Latex

open Profile

variable {text cs front word gap : List Char} {c : Char} {t : Token} {t? : Option Token} {us : List (Option Mark)}
  {ps : List Piece} {place place' : Place}

/-- The levels of the fractions among tokens. -/
def fractionLevels (us : List Token) : List Nat := Place.start.levels (us.map Token.mark?)

/-- A piece without a gap. -/
def Piece.tight (h : Word (some t) word) : Piece := ⟨[], word, t, .nil, h⟩

/-- Only blanks stand before the token. -/
def Piece.isTight (p : Piece) : Bool := p.gap.all Text.isBlank

/-- What the search sees of a piece. -/
def Piece.strokes (p : Piece) : List (Option Mark) :=
  if p.isTight then [p.token.mark?] else [none, p.token.mark?]

/-- Only blanks stand before the arguments of fractions. -/
def ArgumentsTight (place : Place) : List Piece → Prop
  | [] => True
  | p :: ps => (p.token = .openBrace → place.next.isArgument → p.isTight) ∧
      ArgumentsTight (place.after p.token.mark?) ps

theorem Layout.fractionLevels_tokens (l : Layout text) :
    fractionLevels (plain l.tokens) = Place.start.levels (l.pieces.map fun p => p.token.mark?) := by
  rw [fractionLevels, Layout.tokens, plain_placed, List.map_map]
  rfl

/-! ## What is seen of words -/

theorem Token.mark?_eq_opening_iff : t.mark? = some .opening ↔ t = .openBrace := by
  cases t <;> simp [mark?]

theorem Token.mark?_eq_closing_iff : t.mark? = some .closing ↔ t = .closeBrace := by
  cases t <;> simp [mark?]

/-- The word of a token with a mark stands for this mark. -/
theorem Word.mem_words {m : Mark} (h : Word (some t) word) (hm : t.mark? = some m) : word ∈ m.words := by
  cases m with
  | fraction =>
      obtain rfl := Token.mark?_eq_fraction_iff.1 hm
      cases h with
      | command hname =>
          simp only [commandNames, List.mem_cons, List.not_mem_nil, or_false] at hname
          rcases hname with rfl | rfl | rfl <;> decide
      | sign hc => cases hc
  | opening =>
      obtain rfl := Token.mark?_eq_opening_iff.1 hm
      cases h with
      | command hname => cases hname
      | sign hc =>
          obtain rfl := List.mem_singleton.1 hc
          exact List.mem_singleton.2 rfl
  | closing =>
      obtain rfl := Token.mark?_eq_closing_iff.1 hm
      cases h with
      | command hname => cases hname
      | sign hc =>
          obtain rfl := List.mem_singleton.1 hc
          exact List.mem_singleton.2 rfl

theorem Word.marks (h : Word t? word) (cs : List Char) :
    Profile.marks (word ++ cs) = t?.toList.filterMap Token.mark? ++ Profile.marks cs := by
  cases h with
  | blank hc => exact marks_cons (Mark.mayBegin_eq_false rfl rfl rfl hc)
  | spacing hc => exact marks_spacing hc cs
  | command hname => exact marks_command (commandToken?_eq_some_iff.2 (by rwa [String.ofList_toList])) cs
  | number hn => exact marks_append fun c hc => Mark.mayBegin_eq_false rfl rfl rfl (hn.continues c hc)
  | letter hc => exact marks_character (characterToken?_eq_some_iff.2 (.inr ⟨hc, rfl⟩)) cs
  | sign hc => exact marks_character (characterToken?_eq_some_iff.2 (.inl hc)) cs

/-- No mark can begin inside of a word. -/
theorem Word.mayBegin_tail (h : Word t? word) : ∀ c ∈ word.tail, Mark.mayBegin c = false := by
  cases h with
  | blank | letter | sign => simp
  | spacing hc => simpa using Mark.mayBegin_eq_false rfl rfl rfl hc
  | command hname =>
      exact fun c hc => Mark.mayBegin_eq_false rfl rfl rfl ((letters_of_mem_commandNames hname).2 c hc)
  | number hn =>
      exact fun c hc => Mark.mayBegin_eq_false rfl rfl rfl (hn.continues c (List.mem_of_mem_tail hc))

theorem unmarked_of_marks (hblank : Text.isBlank c = false) (h : marks (c :: cs) = marks cs) : Unmarked c cs := by
  rw [marks, List.append_left_eq_self, Option.toList_eq_nil_iff] at h
  split at h
  · cases h
  · rename_i hfraction
    exact ⟨hblank, h, by simpa using hfraction⟩

/-- More characters without a mark make no difference behind one. -/
theorem seen_append (hfront : ∀ c ∈ front, Mark.mayBegin c = false) (hcs : Seen cs us) :
    ∃ vs, Seen (front ++ cs) vs ∧ ∀ place : Place, place.levels (none :: vs) = place.levels (none :: us) := by
  induction front with
  | nil => exact ⟨us, hcs, fun _ => rfl⟩
  | cons c front ih =>
      obtain ⟨hc, hfront⟩ := List.forall_mem_cons.1 hfront
      obtain ⟨vs, hvs, hlevels⟩ := ih hfront
      cases hblank : Text.isBlank c with
      | true => exact ⟨vs, .blank hblank hvs, hlevels⟩
      | false => exact ⟨none :: vs, .other (unmarked_of_marks hblank (marks_cons hc)) hvs, hlevels⟩

theorem Word.seen_none (h : Word t? word) (hmark : t?.toList.filterMap Token.mark? = [])
    (hblank : ∀ c ∈ word.head?, Text.isBlank c = false) (hcs : Seen cs us) :
    ∃ vs, Seen (word ++ cs) vs ∧ ∀ place : Place, place.levels vs = place.levels (none :: us) := by
  obtain ⟨c, front, rfl⟩ := List.exists_cons_of_ne_nil h.ne_nil
  have hfront : ∀ d ∈ front, Mark.mayBegin d = false := h.mayBegin_tail
  obtain ⟨vs, hvs, hlevels⟩ := seen_append hfront hcs
  have hmarks : Profile.marks (c :: (front ++ cs)) = Profile.marks (front ++ cs) := by
    rw [← List.cons_append, h.marks, hmark, marks_append hfront]
    rfl
  exact ⟨none :: vs, .other (unmarked_of_marks (hblank c rfl) hmarks) hvs, hlevels⟩

theorem Word.seen (h : Word (some t) word) (hcs : Seen cs us) :
    ∃ vs, Seen (word ++ cs) vs ∧ ∀ place : Place, place.levels vs = place.levels (t.mark? :: us) := by
  cases hm : t.mark? with
  | some m => exact ⟨some m :: us, .mark (h.mem_words hm) hcs, fun _ => rfl⟩
  | none =>
      refine h.seen_none (List.filterMap_cons_none hm) (fun c hc => ?_) hcs
      rw [Bool.eq_false_iff]
      exact fun hblank => absurd (h.isBlank_head hc hblank).1 nofun

theorem Gap.seen (h : Gap gap) (hcs : Seen cs us) :
    ∃ vs, Seen (gap ++ cs) vs ∧
      ∀ place : Place, place.levels vs = place.levels (if gap.all Text.isBlank then us else none :: us) := by
  induction h with
  | nil => exact ⟨us, hcs, fun _ => rfl⟩
  | @cons word gap hword _ ih =>
      obtain ⟨vs, hvs, hlevels⟩ := ih
      obtain ⟨c, front, rfl⟩ := List.exists_cons_of_ne_nil hword.ne_nil
      cases hblank : Text.isBlank c with
      | true =>
          obtain ⟨-, hfront⟩ := hword.isBlank_head rfl hblank
          obtain rfl : front = [] := (List.cons.inj hfront).2
          exact ⟨vs, .blank hblank hvs, by simpa [hblank] using hlevels⟩
      | false =>
          obtain ⟨ws, hws, hlevels'⟩ := hword.seen_none rfl (by simpa using hblank) hvs
          rw [List.append_assoc]
          refine ⟨ws, hws, fun place => ?_⟩
          have hloose : (c :: front ++ gap).all Text.isBlank = false := by simp [hblank]
          rw [hloose]
          calc place.levels ws
            _ = (place.after none).levels vs := hlevels' place
            _ = (place.after none).levels (if gap.all Text.isBlank then us else none :: us) := hlevels _
            _ = place.levels (none :: us) := by split <;> rfl

/-! ## What is seen of pieces -/

theorem Piece.seen (p : Piece) (hcs : Seen cs us) :
    ∃ vs, Seen (p.text ++ cs) vs ∧ ∀ place : Place, place.levels vs = place.levels (p.strokes ++ us) := by
  obtain ⟨vs, hvs, hlevels⟩ := p.writes.seen hcs
  obtain ⟨ws, hws, hlevels'⟩ := p.isGap.seen hvs
  rw [Piece.text, List.append_assoc]
  refine ⟨ws, hws, fun place => ?_⟩
  rw [hlevels', Piece.strokes, Piece.isTight]
  split
  · exact hlevels place
  · exact hlevels (place.after none)

theorem Layout.seen (l : Layout text) :
    ∃ vs, Seen text vs ∧ Place.start.levels vs = Place.start.levels (l.pieces.flatMap Piece.strokes) := by
  obtain ⟨ps, last, hlast, rfl⟩ := l
  suffices h : ∃ vs, Seen (ps.flatMap Piece.text ++ last) vs ∧
      ∀ place : Place, place.levels vs = place.levels (ps.flatMap Piece.strokes) by
    obtain ⟨vs, hvs, hlevels⟩ := h
    exact ⟨vs, hvs, hlevels .start⟩
  induction ps with
  | nil =>
      obtain ⟨vs, hvs, hlevels⟩ := hlast.seen .nil
      rw [List.append_nil] at hvs
      refine ⟨vs, hvs, fun place => (hlevels place).trans ?_⟩
      split <;> rfl
  | cons p ps ih =>
      obtain ⟨vs, hvs, hlevels⟩ := ih
      obtain ⟨ws, hws, hlevels'⟩ := p.seen hvs
      rw [List.flatMap_cons, List.append_assoc]
      refine ⟨ws, hws, fun place => ?_⟩
      rw [hlevels', List.flatMap_cons, Place.levels_append, Place.levels_append, hlevels]

/-! ## Arguments -/

theorem argumentsTight_of_forall (h : ∀ p ∈ ps, p.isTight) : ArgumentsTight place ps := by
  induction ps generalizing place with
  | nil => trivial
  | cons p ps ih =>
      obtain ⟨hp, hps⟩ := List.forall_mem_cons.1 h
      exact ⟨fun _ _ => hp, ih hps⟩

theorem levels_of_argumentsTight (h : ArgumentsTight place ps) :
    place.levels (ps.flatMap Piece.strokes) = place.levels (ps.map fun p => p.token.mark?) := by
  induction ps generalizing place with
  | nil => rfl
  | cons p ps ih =>
      obtain ⟨hp, hps⟩ := h
      rw [List.flatMap_cons, List.map_cons, Piece.strokes]
      split
      · rw [List.singleton_append, Place.levels, Place.levels, ih hps]
      · rename_i hloose
        -- behind more than blanks no argument is opened, and a mark that opens no group is read the same
        have hafter : (place.after none).after p.token.mark? = place.after p.token.mark? := by
          refine Place.after_loose fun hopening => ?_
          exact Bool.eq_false_iff.2 (mt (hp (Token.mark?_eq_opening_iff.1 hopening)) hloose)
        rw [Place.levels, ← ih hps, ← hafter]
        rfl

theorem levels_strokes_le (h : place'.Below place) (ps : List Piece) :
    List.Forall₂ (· ≤ ·) (place'.levels (ps.flatMap Piece.strokes))
      (place.levels (ps.map fun p => p.token.mark?)) := by
  induction ps generalizing place place' with
  | nil => exact .nil
  | cons p ps ih =>
      have hcons {q : Place} (hq : q.Below place) :
          List.Forall₂ (· ≤ ·) (q.levels (p.token.mark? :: ps.flatMap Piece.strokes))
            (place.levels (p.token.mark? :: ps.map fun p => p.token.mark?)) := by
        rw [Place.levels, Place.levels]
        refine List.rel_append ?_ (ih (hq.after _))
        split
        · exact .cons (Nat.succ_le_succ hq.depth_le) .nil
        · exact .nil
      rw [List.flatMap_cons, List.map_cons, Piece.strokes]
      split
      · exact hcons h
      · exact hcons h.loosen

end Latex

namespace Profile.Fractions

open Latex

/-- The level of a text that is parsed is the deepest one of its fractions, where a group behind more than blanks does
not count as an argument. -/
theorem level_of_parse {limit : Nat} {text : List Char} {e : Expr} (h : parse limit text = .ok e) :
    ∃ ts, tokenize text = .ok ts ∧ (ofText limit text).level ≤ deepest (fractionLevels (plain ts)) ∧
      (∃ l : Layout text, l.tokens = ts) ∧ ∀ l : Layout text, l.tokens = ts →
        (ofText limit text).level = deepest (Place.start.levels (l.pieces.flatMap Piece.strokes)) ∧
        (ArgumentsTight .start l.pieces →
          (ofText limit text).level = deepest (fractionLevels (plain ts)) ∧
          ((ofText limit text).nested ↔ ∃ n ∈ fractionLevels (plain ts), 1 < n)) := by
  obtain ⟨ts, d, hts, rfl, hderives⟩ := parse_eq_ok_iff.1 h
  have hnests : Nests (d + 1 + 1) 0 (marks text) 0 := by
    rw [(lexes_of_scan hts).marks]
    exact hderives.nests.mono (Nat.le_succ _)
  have hlevel (l : Layout text) :
      (ofText (d + 1) text).level = deepest (Place.start.levels (l.pieces.flatMap Piece.strokes)) := by
    obtain ⟨us, hus, hlevels⟩ := l.seen
    rw [level_ofText hus hnests Place.start_isOutside, hlevels]
  obtain ⟨l, rfl⟩ := exists_layout hts
  refine ⟨l.tokens, hts, ?_, ⟨l, rfl⟩, fun m hm => ⟨hlevel m, fun htight => ?_⟩⟩
  · rw [hlevel l, l.fractionLevels_tokens]
    exact deepest_le_of_forall₂ (levels_strokes_le (.refl _) l.pieces)
  · have hlevel := hlevel m
    rw [levels_of_argumentsTight htight, ← m.fractionLevels_tokens, hm] at hlevel
    refine ⟨hlevel, ?_⟩
    rw [nested, hlevel, decide_eq_true_iff, lt_deepest_iff]

theorem level_of_parse_nested :
    ∃ e ts, parse 3 "\\frac\x7b\\frac\x7bx\x7d\x7by\x7d\x7d\x7bz\x7d".toList = .ok e ∧
      tokenize "\\frac\x7b\\frac\x7bx\x7d\x7by\x7d\x7d\x7bz\x7d".toList = .ok ts ∧
      (ofText 3 "\\frac\x7b\\frac\x7bx\x7d\x7by\x7d\x7d\x7bz\x7d".toList).level =
        deepest (fractionLevels (plain ts)) ∧ deepest (fractionLevels (plain ts)) = 2 := by
  have h : parse 3 "\\frac\x7b\\frac\x7bx\x7d\x7by\x7d\x7d\x7bz\x7d".toList =
      .ok (.binary .div (.binary .div (.var "x") (.var "y")) (.var "z")) := by cbv
  have frac : Word (some .frac) ('\\' :: "frac".toList) := .command (by decide)
  have opening : Word (some .openBrace) ['\x7b'] := .sign (by decide)
  have closing : Word (some .closeBrace) ['\x7d'] := .sign (by decide)
  have x : Word (some (.letter 'x')) ['x'] := .letter (by decide)
  have y : Word (some (.letter 'y')) ['y'] := .letter (by decide)
  have z : Word (some (.letter 'z')) ['z'] := .letter (by decide)
  let l : Layout "\\frac\x7b\\frac\x7bx\x7d\x7by\x7d\x7d\x7bz\x7d".toList :=
    ⟨[.tight frac, .tight opening, .tight frac, .tight opening, .tight x, .tight closing, .tight opening, .tight y,
      .tight closing, .tight closing, .tight opening, .tight z, .tight closing], [], .nil, rfl⟩
  have htokens : tokenize "\\frac\x7b\\frac\x7bx\x7d\x7by\x7d\x7d\x7bz\x7d".toList = .ok l.tokens := by cbv
  obtain ⟨ts, hts, -, -, hlevel⟩ := level_of_parse h
  obtain rfl : l.tokens = ts := Except.ok.inj (htokens.symm.trans hts)
  have htight : ArgumentsTight .start l.pieces := argumentsTight_of_forall (by simp [l, Piece.isTight, Piece.tight])
  exact ⟨_, _, h, hts, ((hlevel l rfl).2 htight).1, rfl⟩

/-- Behind a spacing command an argument is not taken for one. -/
theorem level_of_spaced_argument :
    ∃ e ts, parse 3 "\\frac\\,\x7b\\frac\x7bx\x7d\x7by\x7d\x7d\x7bz\x7d".toList = .ok e ∧
      tokenize "\\frac\\,\x7b\\frac\x7bx\x7d\x7by\x7d\x7d\x7bz\x7d".toList = .ok ts ∧
      deepest (fractionLevels (plain ts)) = 2 ∧
      (ofText 3 "\\frac\\,\x7b\\frac\x7bx\x7d\x7by\x7d\x7d\x7bz\x7d".toList).level = 1 ∧
      (ofText 3 "\\frac\\,\x7b\\frac\x7bx\x7d\x7by\x7d\x7d\x7bz\x7d".toList).nested = false := by
  have h : parse 3 "\\frac\\,\x7b\\frac\x7bx\x7d\x7by\x7d\x7d\x7bz\x7d".toList =
      .ok (.binary .div (.binary .div (.var "x") (.var "y")) (.var "z")) := by cbv
  have hts : tokenize "\\frac\\,\x7b\\frac\x7bx\x7d\x7by\x7d\x7d\x7bz\x7d".toList =
      .ok [⟨.frac, 0⟩, ⟨.openBrace, 7⟩, ⟨.frac, 8⟩, ⟨.openBrace, 13⟩, ⟨.letter 'x', 14⟩, ⟨.closeBrace, 15⟩,
        ⟨.openBrace, 16⟩, ⟨.letter 'y', 17⟩, ⟨.closeBrace, 18⟩, ⟨.closeBrace, 19⟩, ⟨.openBrace, 20⟩,
        ⟨.letter 'z', 21⟩, ⟨.closeBrace, 22⟩] := by cbv
  have hfractions : ofText 3 "\\frac\\,\x7b\\frac\x7bx\x7d\x7by\x7d\x7d\x7bz\x7d".toList = ⟨2, 1⟩ := by decide +kernel
  exact ⟨_, _, h, hts, rfl, by rw [hfractions], by rw [hfractions]; rfl⟩

end Profile.Fractions

end ExactAlgebra
