import ExactAlgebra.Proofs.Latex.Parsing

/-!
# Towers of exponents

A variable that is raised to a row of literals, each one in the exponent of the one before. The row is worked out from
its end, in words: what stands in an exponent has to be a word of 32 bits without sign, and every value a word of 64
bits with sign. What fails first from the end decides the error.
-/

namespace ExactAlgebra.Latex

/-! ## Values -/

/-- The value of a tower: each number is raised to the value of what stands above it. -/
def tower : List Int → Int
  | [] => 1
  | n :: ns => n ^ (tower ns).toNat

/-- The number may stand in the exponent of another one. -/
def IsUpper (n : Int) : Prop := 0 ≤ n ∧ n < 4294967296

/-- In each part of the tower, the value may stand in an exponent. -/
def AllUpper (ns : List Int) : Prop := ∀ s, s <:+ ns → IsUpper (tower s)

variable {f : Frame} {start pos : Nat} {n v base upper : Int} {ns : List Int} {expected : Expected}

theorem isWord64_iff : isWord64 n ↔ -9223372036854775808 ≤ n ∧ n ≤ 9223372036854775807 := by
  rw [isWord64, Bool.and_eq_true, decide_eq_true_iff, decide_eq_true_iff]

theorem IsUpper.isWord64 (h : IsUpper n) : isWord64 n := by
  unfold IsUpper at h
  rw [isWord64_iff]
  omega

theorem isUpper_one : IsUpper 1 := ⟨by decide, by decide⟩

theorem allUpper_nil : AllUpper [] := by
  intro s hs
  rw [List.suffix_nil.1 hs]
  exact isUpper_one

theorem allUpper_iff : AllUpper ns ↔ IsUpper (tower ns) ∧ AllUpper ns.tail := by
  cases ns with
  | nil => simp [allUpper_nil, tower, isUpper_one]
  | cons n ns => simp [AllUpper, List.suffix_cons_iff, forall_eq_or_imp]

/-! ## Words -/

theorem raise_of_isUpper (h : IsUpper upper) :
    raise f start base upper =
      if isWord64 (base ^ upper.toNat) then .ok (base ^ upper.toNat) else .error (.tooDeep f.limit) := by
  unfold IsUpper at h
  rw [raise, if_pos h]
  split
  · rename_i value hvalue
    obtain ⟨hword, rfl⟩ := wordPower?_eq_some_iff.1 hvalue
    rw [if_pos hword]
  · rename_i hnone
    rw [if_neg]
    intro hword
    rw [wordPower?_eq_some_iff.2 ⟨hword, rfl⟩] at hnone
    cases hnone

theorem raise_of_not_isUpper (h : ¬ IsUpper upper) :
    raise f start base upper = .error (.unexpected start .nonnegativeExponent) := if_neg h

theorem raise_one (h : isWord64 base) : raise f start base 1 = .ok base := by
  rw [raise_of_isUpper isUpper_one, Int.toNat_one, pow_one, if_pos h]

theorem raise_eq_tooDeep_iff :
    raise f start base upper = .error (.tooDeep f.limit) ↔ IsUpper upper ∧ ¬ isWord64 (base ^ upper.toNat) := by
  by_cases h : IsUpper upper
  · rw [raise_of_isUpper h]
    split <;> simp_all
  · simp [raise_of_not_isUpper h, h]

theorem raise_eq_unexpected_iff :
    raise f start base upper = .error (.unexpected pos expected) ↔
      ¬ IsUpper upper ∧ start = pos ∧ .nonnegativeExponent = expected := by
  by_cases h : IsUpper upper
  · rw [raise_of_isUpper h]
    split <;> simp [h]
  · simp [raise_of_not_isUpper h, h]

/-- Works out a tower from its end, where each number is given with its place. -/
def climb (f : Frame) : List (Nat × Int) → Except Error Int
  | [] => .ok 1
  | (start, n) :: above => do
      let upper ← climb f above
      raise f start n upper

variable {places : List (Nat × Int)}

theorem climb_eq_ok_iff :
    climb f places = .ok v ↔ AllUpper (places.map Prod.snd).tail ∧ isWord64 (tower (places.map Prod.snd)) ∧
      v = tower (places.map Prod.snd) := by
  induction places generalizing v with
  | nil =>
      have hword : isWord64 1 := rfl
      simp [climb, tower, allUpper_nil, hword, eq_comm]
  | cons place places ih =>
      rw [climb, Outcome.bind_eq_ok, List.map_cons, List.tail_cons, allUpper_iff]
      constructor
      · rintro ⟨upper, hclimb, hraise⟩
        obtain ⟨hall, -, rfl⟩ := ih.1 hclimb
        obtain ⟨hupper, hword⟩ := raise_eq_ok_iff.1 hraise
        exact ⟨⟨hupper, hall⟩, hword⟩
      · rintro ⟨⟨hupper, hall⟩, hword⟩
        exact ⟨_, ih.2 ⟨hall, hupper.isWord64, rfl⟩, raise_eq_ok_iff.2 ⟨hupper, hword⟩⟩

/-- The last value that is no word, seen from the end, is too much. -/
theorem climb_eq_tooDeep_iff :
    climb f places = .error (.tooDeep f.limit) ↔
      ∃ s, s <:+ places.map Prod.snd ∧ ¬ isWord64 (tower s) ∧ AllUpper s.tail := by
  induction places with
  | nil =>
      have hword : isWord64 1 := rfl
      simp [climb, tower, hword]
  | cons place places ih =>
      rw [climb, Outcome.bind_eq_error, ih, List.map_cons]
      constructor
      · rintro (⟨s, hs, htower⟩ | ⟨upper, hclimb, hraise⟩)
        · exact ⟨s, hs.trans (List.suffix_cons _ _), htower⟩
        · obtain ⟨hall, -, rfl⟩ := climb_eq_ok_iff.1 hclimb
          obtain ⟨hupper, hword⟩ := raise_eq_tooDeep_iff.1 hraise
          exact ⟨_, List.suffix_rfl, hword, allUpper_iff.2 ⟨hupper, hall⟩⟩
      · rintro ⟨s, hs, hword, hall⟩
        rcases List.suffix_cons_iff.1 hs with rfl | hs
        · obtain ⟨hupper, hall⟩ := allUpper_iff.1 hall
          exact .inr ⟨_, climb_eq_ok_iff.2 ⟨hall, hupper.isWord64, rfl⟩, raise_eq_tooDeep_iff.2 ⟨hupper, hword⟩⟩
        · exact .inl ⟨s, hs, hword, hall⟩

/-- A value that may not stand in an exponent is refused at the number below it. -/
theorem climb_eq_unexpected_iff :
    climb f places = .error (.unexpected pos expected) ↔
      ∃ front place above, places = front ++ place :: above ∧ place.1 = pos ∧ .nonnegativeExponent = expected ∧
        AllUpper (above.map Prod.snd).tail ∧ isWord64 (tower (above.map Prod.snd)) ∧
        ¬ IsUpper (tower (above.map Prod.snd)) := by
  induction places with
  | nil => simp [climb]
  | cons place places ih =>
      rw [climb, Outcome.bind_eq_error, ih]
      constructor
      · rintro (⟨front, p, above, rfl, h⟩ | ⟨upper, hclimb, hraise⟩)
        · exact ⟨place :: front, p, above, rfl, h⟩
        · obtain ⟨hall, hword, rfl⟩ := climb_eq_ok_iff.1 hclimb
          obtain ⟨hupper, hstart, hexpected⟩ := raise_eq_unexpected_iff.1 hraise
          exact ⟨[], place, places, rfl, hstart, hexpected, hall, hword, hupper⟩
      · rintro ⟨front, p, above, hsplit, hstart, hexpected, hall, hword, hupper⟩
        cases front with
        | nil =>
            cases hsplit
            exact .inr ⟨_, climb_eq_ok_iff.2 ⟨hall, hword, rfl⟩, raise_eq_unexpected_iff.2 ⟨hupper, hstart, hexpected⟩⟩
        | cons q front =>
            cases hsplit
            exact .inl ⟨front, p, above, rfl, hstart, hexpected, hall, hword, hupper⟩

/-! ## Literals -/

/-- How an exponent is written: bare, in braces, or in braces with a minus sign. -/
inductive ExponentForm where
  | bare
  | braced
  | negative

/-- An integer literal that is written as an exponent and is a word. -/
structure WrittenExponent where
  form : ExponentForm
  digits : List Char
  ne_nil : digits ≠ []
  isDigit : ∀ c ∈ digits, c.isDigit
  le : Numeral.digitsValue ⟨digits, []⟩ ≤ maxExponent

namespace WrittenExponent

def numeral (e : WrittenExponent) : Numeral := ⟨e.digits, []⟩

def value (e : WrittenExponent) : Int :=
  match e.form with
  | .bare | .braced => e.numeral.digitsValue
  | .negative => -e.numeral.digitsValue

def text (e : WrittenExponent) : List Char :=
  match e.form with
  | .bare => e.digits
  | .braced => '\x7b' :: (e.digits ++ ['\x7d'])
  | .negative => '\x7b' :: '-' :: (e.digits ++ ['\x7d'])

/-- The tokens of the literal at `offset`. -/
def tokens (offset : Nat) (e : WrittenExponent) : Tokens :=
  match e.form with
  | .bare => [⟨.number e.numeral, offset⟩]
  | .braced => [⟨.openBrace, offset⟩, ⟨.number e.numeral, offset + 1⟩,
      ⟨.closeBrace, offset + 1 + Text.byteLength e.digits⟩]
  | .negative => [⟨.openBrace, offset⟩, ⟨.minus, offset + 1⟩, ⟨.number e.numeral, offset + 2⟩,
      ⟨.closeBrace, offset + 2 + Text.byteLength e.digits⟩]

variable {e : WrittenExponent} {es : List WrittenExponent} {offset depth : Nat} {cs next : List Char} {ts : Tokens}

theorem isInteger_numeral : e.numeral.isInteger := rfl

theorem isWritten_numeral : e.numeral.IsWritten :=
  ⟨by simpa [numeral] using e.ne_nil, by simpa [numeral] using e.isDigit⟩

theorem isWord64_value : isWord64 e.value := by
  have hle : e.numeral.digitsValue ≤ maxExponent := e.le
  rw [maxExponent] at hle
  rw [isWord64_iff, value]
  split <;> omega

theorem position_tokens (f : Frame) (ts : Tokens) : f.position (e.tokens offset ++ ts) = offset := by
  unfold tokens
  split <;> rfl

/-- The literal is read, and nothing else. -/
theorem exponentLiteral_tokens (e : WrittenExponent) (f : Frame) (offset : Nat) (ts : Tokens) :
    ∃ r, exponentLiteral f (e.tokens offset ++ ts) = .ok r ∧ r.value = e.value ∧ r.rest = ts := by
  have hle : e.numeral.digitsValue ≤ maxExponent := e.le
  unfold tokens value
  split <;> simp [exponentLiteral, exponentDigits, bracedExponent, Frame.expect, isInteger_numeral, hle]

/-- Where a literal is followed by no more digits and no point, its tokens come first. -/
theorem cut (e : WrittenExponent) (hnext : ∀ c ∈ (cs ++ next).head?, Numeral.continues c = false)
    (h : Cut next (offset + Text.byteLength e.text) cs ts) : Cut next offset (e.text ++ cs) (e.tokens offset ++ ts) := by
  have hn := e.isWritten_numeral
  have hbrace : ∀ c ∈ ('\x7d' :: cs ++ next).head?, Numeral.continues c = false := by
    rintro c ⟨⟩
    rfl
  unfold text tokens at *
  split at h
  · exact .number hn hnext h
  · rw [Text.byteLength_cons, Text.byteLength_append, ← Nat.add_assoc, ← Nat.add_assoc] at h
    have hclosed : Cut next (offset + 1 + Text.byteLength e.digits) ('\x7d' :: cs) _ :=
      .sign (t := .closeBrace) List.mem_cons_self h
    have hdigits : Cut next (offset + 1) (e.digits ++ '\x7d' :: cs) _ := .number hn hbrace hclosed
    simpa using Cut.sign (t := .openBrace) List.mem_cons_self hdigits
  · rw [Text.byteLength_cons, Text.byteLength_cons, Text.byteLength_append, ← Nat.add_assoc, ← Nat.add_assoc,
      ← Nat.add_assoc] at h
    have hclosed : Cut next (offset + 2 + Text.byteLength e.digits) ('\x7d' :: cs) _ :=
      .sign (t := .closeBrace) List.mem_cons_self h
    have hdigits : Cut next (offset + 2) (e.digits ++ '\x7d' :: cs) _ := .number hn hbrace hclosed
    have hminus : Cut next (offset + 1) ('-' :: (e.digits ++ '\x7d' :: cs)) _ :=
      .sign (t := .minus) List.mem_cons_self hdigits
    simpa using Cut.sign (t := .openBrace) List.mem_cons_self hminus

end WrittenExponent

open WrittenExponent

variable {es : List WrittenExponent} {e : WrittenExponent} {offset depth limit : Nat} {name : Char}

/-- A row of exponents, each behind a caret. -/
def carets (es : List WrittenExponent) : List Char := es.flatMap fun e => '^' :: e.text

/-- The tokens of a row of exponents that begins at `offset`. -/
def caretTokens (offset : Nat) : List WrittenExponent → Tokens
  | [] => []
  | e :: es => ⟨.caret, offset⟩ :: (e.tokens (offset + 1) ++
      caretTokens (offset + 1 + Text.byteLength e.text) es)

/-- The places of the exponents in a row that begins at `offset`. -/
def caretPlaces (offset : Nat) : List WrittenExponent → List (Nat × Int)
  | [] => []
  | e :: es => (offset + 1, e.value) :: caretPlaces (offset + 1 + Text.byteLength e.text) es

theorem cut_carets (offset : Nat) (es : List WrittenExponent) : Cut [] offset (carets es) (caretTokens offset es) := by
  induction es generalizing offset with
  | nil => exact .nil
  | cons e es ih =>
      have hnext : ∀ c ∈ (carets es ++ []).head?, Numeral.continues c = false := by
        cases es with
        | nil => nofun
        | cons e' es =>
            rintro c ⟨⟩
            rfl
      exact .sign (t := .caret) List.mem_cons_self (e.cut hnext (ih _))

theorem exponentAbove_last (upper : TokenReader Int) :
    (exponentAbove f upper (e.tokens offset ++ [])).map (fun r => (r.value, r.rest)) = .ok (e.value, []) := by
  obtain ⟨⟨value, rest, hshorter⟩, hread, rfl, rfl⟩ := e.exponentLiteral_tokens f offset []
  simp only [exponentAbove, hread, Outcome.ok_bind]
  rfl

theorem exponentAbove_caret (upper : TokenReader Int) (ts : Tokens) :
    (exponentAbove f upper (e.tokens offset ++ ⟨.caret, pos⟩ :: ts)).map (fun r => (r.value, r.rest)) = (do
      let above ← (upper ts).map fun r => (r.value, r.rest)
      let value ← raise f offset e.value above.1
      return (value, above.2)) := by
  obtain ⟨⟨value, rest, hshorter⟩, hread, rfl, rfl⟩ := e.exponentLiteral_tokens f offset (⟨.caret, pos⟩ :: ts)
  simp only [exponentAbove, hread, Outcome.ok_bind, Reading.extendOnce, position_tokens]
  cases upper ts with
  | error => rfl
  | ok above =>
      simp only [Outcome.ok_bind, Outcome.map_ok]
      cases raise f offset e.value above.value <;> rfl

/-- Reading exponents works out their tower. -/
theorem exponent_caretTokens (f : Frame) (h : es.length ≤ depth) :
    (exponent f depth (e.tokens offset ++ caretTokens (offset + Text.byteLength e.text) es)).map
        (fun r => (r.value, r.rest)) =
      (climb f ((offset, e.value) :: caretPlaces (offset + Text.byteLength e.text) es)).map (·, []) := by
  induction es generalizing e offset depth with
  | nil =>
      have hclimb : climb f [(offset, e.value)] = .ok e.value := by
        rw [climb, climb, Outcome.ok_bind, raise_one isWord64_value]
      rw [caretPlaces, hclimb]
      cases depth <;> exact exponentAbove_last _
  | cons e' es ih =>
      cases depth with
      | zero => cases h
      | succ depth =>
          rw [caretTokens, exponent, exponentAbove_caret, ih (Nat.le_of_succ_le_succ h), caretPlaces]
          conv_rhs => rw [climb]
          cases climb f _ with
          | error => rfl
          | ok upper =>
              simp only [Outcome.ok_bind, Outcome.map_ok]
              cases raise f offset e.value upper <;> rfl

/-- A variable with an exponent is read as a power. -/
theorem expressionOf_power {ts : Tokens} {outcome : Except Error Int} (hlimit : f.limit = depth + 1)
    (h : (exponent f depth ts).map (fun r => (r.value, r.rest)) = outcome.map (·, [])) :
    expressionOf f (⟨.letter name, start⟩ :: ⟨.caret, pos⟩ :: ts) =
      outcome.map (.power (.var (String.singleton name))) := by
  rcases Outcome.eq_or_of_map_eq h with ⟨e, he, rfl⟩ | ⟨r, n, hr, rfl, heq⟩
  · rw [expressionOf, hlimit, nested]
    simp [sum, term, unary, power, atom, Reading.extendOnce, he]
    rfl
  · obtain ⟨rfl, hrest⟩ := Prod.mk.inj heq
    obtain ⟨front, hfront, hexponent⟩ := exponent_sound hr
    rw [hrest, plain_nil, List.append_nil] at hfront
    have hletter : Derives depth .atom [.letter name] (.caret :: (front ++ [])) (.var (String.singleton name)) :=
      .A_Letter
    have hpower : Derives depth .power (.letter name :: .caret :: front) [] _ := .P_Raised hletter hexponent
    refine expressionOf_eq_ok_iff.2 ⟨depth, hlimit, ?_⟩
    rw [plain_cons, plain_cons, hfront]
    exact (Derives.U_Power hpower).term_of_unary.sum_of_term

/-- A variable with a row of exponents is parsed to the power that the row works out to. -/
theorem parse_carets (hname : name.isAlpha) (hes : es ≠ []) (hlimit : es.length ≤ limit) :
    parse limit (name :: carets es) =
      (climb ⟨limit, Text.byteLength (name :: carets es)⟩ (caretPlaces name.utf8Size es)).map
        (.power (.var (String.singleton name))) := by
  have hcut : Cut [] 0 (name :: carets es) (⟨.letter name, 0⟩ :: caretTokens (0 + name.utf8Size) es) :=
    .word (.letter hname) (wordEnds_letter hname) (cut_carets _ es)
  rw [Nat.zero_add] at hcut
  obtain ⟨e, es, rfl⟩ := List.exists_cons_of_ne_nil hes
  cases limit with
  | zero => cases hlimit
  | succ depth =>
      rw [parse, tokenize_of_cut hcut, Outcome.ok_bind]
      exact expressionOf_power rfl (exponent_caretTokens _ (Nat.le_of_succ_le_succ hlimit))

/-! ## Places -/

theorem map_snd_caretPlaces (offset : Nat) (es : List WrittenExponent) :
    (caretPlaces offset es).map Prod.snd = es.map value := by
  induction es generalizing offset with
  | nil => rfl
  | cons e es ih => rw [caretPlaces, List.map_cons, List.map_cons, ih]

theorem byteLength_carets_cons (e : WrittenExponent) (es : List WrittenExponent) :
    Text.byteLength (carets (e :: es)) = 1 + Text.byteLength e.text + Text.byteLength (carets es) := by
  rw [carets, List.flatMap_cons, Text.byteLength_append, Text.byteLength_cons]
  rfl

theorem byteLength_caret (name : Char) (es : List WrittenExponent) :
    Text.byteLength (name :: carets es ++ ['^']) = name.utf8Size + Text.byteLength (carets es) + 1 := by
  rw [Text.byteLength_append, Text.byteLength_cons]
  rfl

theorem caretPlaces_append (offset : Nat) (front es : List WrittenExponent) :
    caretPlaces offset (front ++ es) =
      caretPlaces offset front ++ caretPlaces (offset + Text.byteLength (carets front)) es := by
  induction front generalizing offset with
  | nil => rfl
  | cons e front ih =>
      rw [List.cons_append, caretPlaces, ih, caretPlaces, byteLength_carets_cons, List.cons_append, ← Nat.add_assoc,
        ← Nat.add_assoc]

theorem caretPlaces_eq_append_cons {front above : List (Nat × Int)} {place : Nat × Int}
    (h : caretPlaces offset es = front ++ place :: above) :
    ∃ front' e above', es = front' ++ e :: above' ∧ place.1 = offset + Text.byteLength (carets front') + 1 ∧
      above.map Prod.snd = above'.map value := by
  induction es generalizing offset front with
  | nil => simp [caretPlaces] at h
  | cons e es ih =>
      cases front with
      | nil =>
          cases h
          exact ⟨[], e, es, rfl, rfl, map_snd_caretPlaces _ es⟩
      | cons q front =>
          obtain ⟨front', e', above', rfl, hplace, habove⟩ := ih (List.cons.inj h).2
          refine ⟨e :: front', e', above', rfl, ?_, habove⟩
          rw [hplace, byteLength_carets_cons]
          omega

/-- A row of exponents is worked out from its end. It gives a power if what stands in exponents is in the range for
exponents and the whole is a word. Otherwise the part at which this fails first decides: if its value is no word, that
is too much, and if it may only not stand in an exponent, the number below it is said to need a non-negative one. -/
theorem parse_tower {limit : Nat} {name : Char} {es : List WrittenExponent} (hname : name.isAlpha) (hes : es ≠ [])
    (hlimit : es.length ≤ limit) :
    (∀ e, parse limit (name :: carets es) = .ok e ↔
      AllUpper (es.map value).tail ∧ isWord64 (tower (es.map value)) ∧
        e = .power (.var (String.singleton name)) (tower (es.map value))) ∧
    (parse limit (name :: carets es) = .error (.tooDeep limit) ↔
      ∃ s, s <:+ es.map value ∧ ¬ isWord64 (tower s) ∧ AllUpper s.tail) ∧
    (∀ pos expected, parse limit (name :: carets es) = .error (.unexpected pos expected) ↔
      ∃ front e above, es = front ++ e :: above ∧ pos = Text.byteLength (name :: carets front ++ ['^']) ∧
        expected = .nonnegativeExponent ∧ AllUpper (above.map value).tail ∧
        isWord64 (tower (above.map value)) ∧ ¬ IsUpper (tower (above.map value))) := by
  rw [parse_carets hname hes hlimit]
  refine ⟨fun e => ?_, ?_, fun pos expected => ?_⟩
  · simp only [Outcome.map_eq_ok, climb_eq_ok_iff, map_snd_caretPlaces]
    constructor
    · rintro ⟨v, ⟨hall, hword, rfl⟩, rfl⟩
      exact ⟨hall, hword, rfl⟩
    · rintro ⟨hall, hword, rfl⟩
      exact ⟨_, ⟨hall, hword, rfl⟩, rfl⟩
  · rw [Outcome.map_eq_error, ← map_snd_caretPlaces name.utf8Size es]
    exact climb_eq_tooDeep_iff
  · rw [Outcome.map_eq_error, climb_eq_unexpected_iff]
    constructor
    · rintro ⟨front, place, above, hsplit, rfl, rfl, hall, hword, hupper⟩
      obtain ⟨front', e, above', rfl, hplace, habove⟩ := caretPlaces_eq_append_cons hsplit
      rw [habove] at hall hword hupper
      exact ⟨front', e, above', rfl, hplace.trans (byteLength_caret name front').symm, rfl, hall, hword, hupper⟩
    · rintro ⟨front, e, above, rfl, rfl, rfl, hall, hword, hupper⟩
      refine ⟨_, _, _, caretPlaces_append _ front (e :: above), (byteLength_caret name front).symm, rfl, ?_⟩
      rw [map_snd_caretPlaces]
      exact ⟨hall, hword, hupper⟩

theorem parse_tower_nested : parse 3 "x^2^\x7b3\x7d^2".toList = .ok (.power (.var "x") 512) ∧ tower [2, 3, 2] = 512 := by
  let es : List WrittenExponent := [⟨.bare, ['2'], nofun, List.all_eq_true.1 rfl, by decide⟩,
    ⟨.braced, ['3'], nofun, List.all_eq_true.1 rfl, by decide⟩,
    ⟨.bare, ['2'], nofun, List.all_eq_true.1 rfl, by decide⟩]
  have hall : AllUpper [3, 2] := by simp [AllUpper, List.suffix_cons_iff, tower, IsUpper]
  have hes : es ≠ [] := List.cons_ne_nil _ _
  have hlimit : es.length ≤ 3 := Nat.le_refl 3
  have hname : 'x'.isAlpha := rfl
  have htower : tower [2, 3, 2] = 512 := rfl
  exact ⟨((parse_tower hname hes hlimit).1 _).2 ⟨hall, rfl, rfl⟩, htower⟩

/-- A value of more than 32 bits is refused in an exponent although it is not negative. -/
theorem parse_tower_of_large_exponent :
    tower [1, 4294967296] = 1 ∧
      parse 64 "x^1^4294967296".toList = .error (.unexpected 2 .nonnegativeExponent) := by
  let es : List WrittenExponent := [⟨.bare, ['1'], nofun, List.all_eq_true.1 rfl, by decide⟩,
    ⟨.bare, "4294967296".toList, nofun, List.all_eq_true.1 rfl, by decide⟩]
  have hes : es ≠ [] := List.cons_ne_nil _ _
  have hlimit : es.length ≤ 64 := by decide
  have hname : 'x'.isAlpha := rfl
  have hclimb (f : Frame) : climb f [(2, 1), (4, 4294967296)] = .error (.unexpected 2 .nonnegativeExponent) := by
    have hword : isWord64 4294967296 := rfl
    have hupper : ¬ IsUpper 4294967296 := fun h => absurd h.2 (Int.lt_irrefl _)
    rw [climb, climb, climb, Outcome.ok_bind, raise_one hword, Outcome.ok_bind, raise_of_not_isUpper hupper]
  refine ⟨one_pow _, (parse_carets hname hes hlimit).trans ?_⟩
  have hplaces : caretPlaces 'x'.utf8Size es = [(2, 1), (4, 4294967296)] := rfl
  rw [hplaces, hclimb, Outcome.map_error]

end ExactAlgebra.Latex
