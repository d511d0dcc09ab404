import ExactAlgebra.Proofs.Latex.Spelling

/-!
# Words of a text

The units that a text is cut into: numerals, letters, signs and commands, which write tokens, and blanks, spacing and
sizing commands, which write none. Which unit stands at a place depends on the characters behind it, because a command
takes all letters and a numeral all digits that follow.
-/

namespace ExactAlgebra

namespace Latex

/-! ## Words -/

/-- The names of the commands that write a token, or of those that write none. -/
def commandNames : Option Token → List String
  | none => ["left", "right"]
  | some .times => ["times", "cdot"]
  | some .divide => ["div"]
  | some .frac => ["frac", "dfrac", "tfrac"]
  | some .sqrt => ["sqrt"]
  | some _ => []

/-- The signs that write a token. -/
def Token.signs : Token → List Char
  | plus => ['+']
  | minus => ['-', '−']
  | times => ['*', '×']
  | divide => ['/', '÷']
  | caret => ['^']
  | openBrace => ['\x7b']
  | closeBrace => ['\x7d']
  | openParen => ['(']
  | closeParen => [')']
  | _ => []

/-- The word writes the token, or is left out. -/
inductive Word : Option Token → List Char → Prop where
  | blank {c} : Text.isBlank c → Word none [c]
  | spacing {c} : isSpacing c → Word none ['\\', c]
  | command {t? name} : name ∈ commandNames t? → Word t? ('\\' :: name.toList)
  | number {n} : n.IsWritten → Word (some (.number n)) n.text
  | letter {c} : c.isAlpha → Word (some (.letter c)) [c]
  | sign {t c} : c ∈ t.signs → Word (some t) [c]

/-- If the word is a command with a name, no letter comes next. -/
def WholeName (word next : List Char) : Prop :=
  ∀ name, word = '\\' :: name → (∀ c ∈ name, c.isAlpha) → ∀ c ∈ next.head?, c.isAlpha = false

/-- The word does not go on into the characters `next`. -/
structure WordEnds (t? : Option Token) (word next : List Char) : Prop where
  name : WholeName word next
  numeral : ∀ n, t? = some (.number n) → n.EndsBefore next

/-- A word stands at the beginning. -/
def BeginsWord (text : List Char) : Prop :=
  ∃ t? word next, text = word ++ next ∧ Word t? word ∧ WholeName word next

variable {offset : Nat} {t? : Option Token} {c : Char} {word name front next cs : List Char} {ts : Tokens}

theorem WordEnds.shorten (h : WordEnds t? word next) (hfront : front <+: next) : WordEnds t? word front :=
  ⟨fun name hname hletters => head?_of_front (h.name name hname hletters) hfront,
    fun n hn => (h.numeral n hn).shorten hfront⟩

theorem commandToken?_eq_some_iff : commandToken? name = some t? ↔ String.ofList name ∈ commandNames t? := by
  constructor
  · intro h
    unfold commandToken? at h
    split at h <;> rename_i hname <;> cases h <;> simp [commandNames, hname]
  · intro h
    unfold commandNames at h
    split at h <;> simp only [List.mem_cons, List.not_mem_nil, or_false] at h
    · rcases h with h | h <;> simp [commandToken?, h]
    · rcases h with h | h <;> simp [commandToken?, h]
    · simp [commandToken?, h]
    · rcases h with h | h | h <;> simp [commandToken?, h]
    · simp [commandToken?, h]

theorem characterToken?_eq_some_iff {t : Token} :
    characterToken? c = some t ↔ c ∈ t.signs ∨ c.isAlpha ∧ t = .letter c := by
  constructor
  · intro h
    unfold characterToken? at h
    split at h <;> first
      | (cases h; simp [Token.signs])
      | (obtain ⟨hc, rfl⟩ : c.isAlpha ∧ .letter c = t := by simpa using h
         exact .inr ⟨hc, rfl⟩)
  · rintro (h | ⟨hc, rfl⟩)
    · cases t <;> simp [Token.signs] at h <;> rcases h with rfl | rfl <;> rfl
    · unfold characterToken?
      split <;> first | exact absurd hc (by decide) | exact if_pos hc

theorem letters_of_mem_commandNames {known : String} (h : known ∈ commandNames t?) :
    known.toList ≠ [] ∧ ∀ c ∈ known.toList, c.isAlpha := by
  unfold commandNames at h
  split at h <;> simp only [List.mem_cons, List.not_mem_nil, or_false] at h
  · rcases h with rfl | rfl <;> simp
  · rcases h with rfl | rfl <;> simp
  · simp [h]
  · rcases h with rfl | rfl | rfl <;> simp
  · simp [h]

theorem Word.ne_nil (h : Word t? word) : word ≠ [] := by
  cases h with
  | number hn => exact hn.text_ne_nil
  | _ => simp

theorem of_mem_signs {t : Token} (h : c ∈ t.signs) :
    Text.isBlank c = false ∧ c ≠ '\\' ∧ Numeral.continues c = false := by
  cases t <;> simp [Token.signs] at h <;> rcases h with rfl | rfl <;> decide

/-- Only a blank begins with a blank. -/
theorem Word.isBlank_head (h : Word t? word) (hc : c ∈ word.head?) (hblank : Text.isBlank c) :
    t? = none ∧ word = [c] := by
  cases h with
  | blank => simpa using hc
  | spacing | command =>
      obtain rfl : '\\' = c := by simpa using hc
      exact absurd hblank (by decide)
  | number hn =>
      have := Numeral.toNat_of_continues (hn.continues c (List.mem_of_mem_head? hc))
      exact absurd hblank (by simp [Text.isBlank_eq_false (c := c) (by omega)])
  | @letter d hd =>
      obtain rfl : d = c := by simpa using hc
      have := Text.toNat_of_isAlpha hd
      exact absurd hblank (by simp [Text.isBlank_eq_false (c := d) (by omega)])
  | @sign t d hd =>
      obtain rfl : d = c := by simpa using hc
      exact absurd hblank (by simp [(of_mem_signs hd).1])

theorem wholeName_of_head (h : word.head? ≠ some '\\') : WholeName word next := by
  rintro name rfl
  exact absurd rfl h

theorem WholeName.wordEnds (h : WholeName word next) : WordEnds none word next := by
  refine ⟨h, ?_⟩
  rintro n hn
  cases hn

theorem wordEnds_sign {t : Token} (h : c ∈ t.signs) : WordEnds (some t) [c] next := by
  refine ⟨wholeName_of_head (by simpa using (of_mem_signs h).2.1), ?_⟩
  rintro n hn
  cases hn
  cases h

theorem wordEnds_letter (h : c.isAlpha) : WordEnds (some (.letter c)) [c] next := by
  refine ⟨wholeName_of_head ?_, nofun⟩
  rintro hc
  obtain rfl : c = '\\' := by simpa using hc
  cases h

/-! ## Lexemes -/

theorem command_sound {r : Reading (Option Token) cs} (h : command offset cs = .ok r) :
    ∃ word, '\\' :: cs = word ++ r.rest ∧ Word r.value word ∧ WordEnds r.value word r.rest := by
  unfold command at h
  split at h
  · cases h
  · rename_i c cs
    split at h
    · rename_i hspacing
      cases h
      have hname : WholeName ['\\', c] cs := by
        rintro name hname hletters
        obtain rfl : [c] = name := (List.cons.inj hname).2
        exact absurd hspacing (by simp [isSpacing_of_isAlpha (hletters c (by simp))])
      exact ⟨['\\', c], rfl, .spacing hspacing, hname.wordEnds⟩
    · split at h
      · cases h
      · rename_i name hname
        split at h
        · cases h
        · rename_i t? ht
          cases h
          obtain ⟨hcs, hne, hletters, hstop⟩ := run?_eq_some hname
          have hknown := commandToken?_eq_some_iff.1 ht
          have hword := Word.command hknown
          rw [String.toList_ofList] at hword
          refine ⟨'\\' :: name.value, congrArg ('\\' :: ·) hcs, hword, fun _ _ _ => hstop, ?_⟩
          rintro n rfl
          simp [commandNames] at hknown

/-- What is read as a lexeme is a word. -/
theorem lexeme_sound {r : Reading (Option Token) cs} (h : lexeme offset cs = .ok r) :
    ∃ word, cs = word ++ r.rest ∧ Word r.value word ∧ WordEnds r.value word r.rest := by
  unfold lexeme at h
  split at h
  · cases h
  · obtain ⟨s, hs, rfl⟩ := Outcome.map_eq_ok.1 h
    exact command_sound hs
  · rename_i c cs _
    split at h
    · rename_i numeral hnumeral
      cases h
      obtain ⟨hcs, -⟩ := Numeral.read?_eq_some hnumeral
      obtain ⟨hn, hends⟩ := Numeral.read?_sound hnumeral
      refine ⟨numeral.value.text, hcs, .number hn, wholeName_of_head hn.head?_ne, ?_⟩
      rintro n hn'
      cases hn'
      exact hends
    · split at h
      · rename_i t ht
        cases h
        rcases characterToken?_eq_some_iff.1 ht with hsign | ⟨hc, rfl⟩
        · exact ⟨[c], rfl, .sign hsign, wordEnds_sign hsign⟩
        · exact ⟨[c], rfl, .letter hc, wordEnds_letter hc⟩
      · cases h

theorem lexeme_eq_append {r : Reading (Option Token) cs} (h : lexeme offset cs = .ok r) :
    ∃ front, cs = front ++ r.rest := by
  obtain ⟨word, hcs, -, -⟩ := lexeme_sound h
  exact ⟨word, hcs⟩

theorem lexeme_character {t : Token} (ht : characterToken? c = some t) (hcommand : c ≠ '\\')
    (hnumeral : Numeral.continues c = false) :
    ∃ r, lexeme offset (c :: next) = .ok r ∧ r.value = some t ∧ r.rest = next :=
  ⟨.first (some t) next, by simp [lexeme, Numeral.read?_cons hnumeral, ht], rfl, rfl⟩

theorem lexeme_number {n : Numeral} {r : Reading Numeral (n.text ++ next)} (hn : n.IsWritten)
    (hr : Numeral.read? (n.text ++ next) = some r) :
    lexeme offset (n.text ++ next) = .ok (r.map fun n => some (.number n)) := by
  obtain ⟨c, cs, hcs⟩ := List.exists_cons_of_ne_nil hn.text_ne_nil
  have hc : c ≠ '\\' := fun hc => hn.head?_ne (by rw [hcs, hc]; rfl)
  revert r
  rw [hcs]
  intro r hr
  simp only [List.cons_append] at hr
  simp [lexeme, hr]

/-- Where a word ends as it is read, the lexeme is this word. -/
theorem lexeme_complete (h : Word t? word) (hends : WordEnds t? word next)
    (hblank : ∀ c ∈ word.head?, Text.isBlank c = false) :
    ∃ r, lexeme offset (word ++ next) = .ok r ∧ r.value = t? ∧ r.rest = next := by
  cases h with
  | @blank c hc => exact absurd hc (by simp [hblank c rfl])
  | @spacing c hc =>
      exact ⟨(Reading.first none next).preceded '\\', by simp [lexeme, command, hc], rfl, rfl⟩
  | @command t? known hknown =>
      obtain ⟨hne, hletters⟩ := letters_of_mem_commandNames hknown
      have ht : commandToken? known.toList = some t? :=
        commandToken?_eq_some_iff.2 (by rwa [String.ofList_toList])
      exact lexeme_command hne hletters (hends.name _ rfl hletters) ht
  | @number n hn =>
      obtain ⟨r, hr, hvalue, hrest⟩ := Numeral.read?_complete hn (hends.numeral n rfl)
      exact ⟨_, lexeme_number hn hr, by simp [hvalue], hrest⟩
  | letter hc =>
      have ht := characterToken?_eq_some_iff.2 (.inr ⟨hc, rfl⟩)
      exact lexeme_character ht (by rintro rfl; cases hc) (Numeral.continues_of_isAlpha hc)
  | sign hc =>
      have ht := characterToken?_eq_some_iff.2 (.inl hc)
      exact lexeme_character ht (of_mem_signs hc).2.1 (of_mem_signs hc).2.2

/-- Where a word begins, there is a lexeme. -/
theorem lexeme_of_beginsWord (h : BeginsWord (c :: cs)) (hc : Text.isBlank c = false) :
    ∃ r, lexeme offset (c :: cs) = .ok r := by
  obtain ⟨t?, word, next, hcs, hword, hname⟩ := h
  have hblank : ∀ d ∈ word.head?, Text.isBlank d = false := by
    obtain ⟨d, word, rfl⟩ := List.exists_cons_of_ne_nil hword.ne_nil
    obtain rfl : c = d := (List.cons.inj hcs).1
    simpa using hc
  rw [hcs]
  -- a numeral may go on behind the word, and then a longer one is read
  by_cases hn : ∃ n, t? = some (.number n)
  · obtain ⟨n, rfl⟩ := hn
    cases hword with
    | command hknown => cases hknown
    | sign hsign => cases hsign
    | number hn =>
        obtain ⟨r, hr⟩ := Option.ne_none_iff_exists'.1 (Numeral.read?_ne_none hn next)
        exact ⟨_, lexeme_number hn hr⟩
  · have hends : WordEnds t? word next := ⟨hname, fun n ht => absurd ⟨n, ht⟩ hn⟩
    obtain ⟨r, hr, -⟩ := lexeme_complete hword hends hblank
    exact ⟨r, hr⟩

theorem lexeme_error {e : Error} (h : lexeme offset cs = .error e) :
    ∃ expected, e = .unexpected offset expected := by
  unfold lexeme at h
  split at h
  · cases h
    exact ⟨_, rfl⟩
  · have hcommand := Outcome.map_eq_error.1 h
    unfold command at hcommand
    split at hcommand
    · cases hcommand
      exact ⟨_, rfl⟩
    · split at hcommand
      · cases hcommand
      · split at hcommand
        · cases hcommand
          exact ⟨_, rfl⟩
        · split at hcommand <;> cases hcommand
          exact ⟨_, rfl⟩
  · split at h
    · cases h
    · split at h <;> cases h
      exact ⟨_, rfl⟩

/-! ## Scanning -/

/-- Before `next`, the text is cut into words, which write the tokens. -/
inductive Cut (next : List Char) : Nat → List Char → Tokens → Prop where
  | nil {offset : Nat} : Cut next offset [] []
  | word {offset : Nat} {t? : Option Token} {word cs : List Char} {ts : Tokens} : Word t? word →
      WordEnds t? word (cs ++ next) → Cut next (offset + Text.byteLength word) cs ts →
      Cut next offset (word ++ cs) (t?.toList.map (⟨·, offset⟩) ++ ts)

/-- The outcome of scanning a text: its tokens, or an error where no word begins. -/
inductive Scanned (offset : Nat) : List Char → Except Error Tokens → Prop where
  | ok {cs : List Char} {ts : Tokens} : Cut [] offset cs ts → Scanned offset cs (.ok ts)
  | error {front rest : List Char} {ts : Tokens} {expected : Expected} : Cut rest offset front ts → rest ≠ [] →
      ¬ BeginsWord rest →
      Scanned offset (front ++ rest) (.error (.unexpected (offset + Text.byteLength front) expected))

theorem Cut.sign {t : Token} (hc : c ∈ t.signs) (h : Cut next (offset + c.utf8Size) cs ts) :
    Cut next offset (c :: cs) (⟨t, offset⟩ :: ts) := .word (.sign hc) (wordEnds_sign hc) h

theorem Cut.number {n : Numeral} (hn : n.IsWritten) (hnext : ∀ c ∈ (cs ++ next).head?, Numeral.continues c = false)
    (h : Cut next (offset + Text.byteLength n.text) cs ts) :
    Cut next offset (n.text ++ cs) (⟨.number n, offset⟩ :: ts) := by
  refine .word (.number hn) ⟨wholeName_of_head hn.head?_ne, ?_⟩ h
  rintro n' hn'
  cases hn'
  exact Numeral.endsBefore_of_not_continues hnext

theorem Cut.shorten (h : Cut next offset cs ts) (hfront : front <+: next) : Cut front offset cs ts := by
  induction h with
  | nil => exact .nil
  | word hword hends _ ih =>
      exact .word hword (hends.shorten ((List.prefix_append_right_inj _).2 hfront)) ih

theorem Scanned.prepend {outcome : Except Error Tokens} (hword : Word t? word) (hends : WordEnds t? word cs)
    (h : Scanned (offset + Text.byteLength word) cs outcome) :
    Scanned offset (word ++ cs) (outcome.map (t?.toList.map (⟨·, offset⟩) ++ ·)) := by
  cases h with
  | ok h => exact .ok (.word hword (by simpa using hends) h)
  | error h hne hrest =>
      rw [← List.append_assoc, Outcome.map_error, Nat.add_assoc, ← Text.byteLength_append]
      exact .error (.word hword hends h) hne hrest

theorem map_nil_append (outcome : Except Error Tokens) : outcome.map ([] ++ ·) = outcome := by
  cases outcome <;> rfl

/-- A scan takes a word that ends as it is read. -/
theorem scan_word (hword : Word t? word) (hends : WordEnds t? word next) :
    scan lexeme offset (word ++ next) =
      (scan lexeme (offset + Text.byteLength word) next).map (t?.toList.map (⟨·, offset⟩) ++ ·) := by
  obtain ⟨c, cs, rfl⟩ := List.exists_cons_of_ne_nil hword.ne_nil
  by_cases hblank : Text.isBlank c
  · obtain ⟨rfl, hcs⟩ := hword.isBlank_head rfl hblank
    obtain rfl : cs = [] := (List.cons.inj hcs).2
    rw [List.singleton_append, scan, if_pos hblank]
    exact (map_nil_append _).symm
  · have hcomplete : ∃ r, lexeme offset (c :: cs ++ next) = .ok r ∧ r.value = t? ∧ r.rest = next :=
      lexeme_complete hword hends (by simpa using hblank)
    obtain ⟨r, hr, hvalue, hrest⟩ := hcomplete
    have hread : lexeme offset (c :: (cs ++ next)) = .ok r := hr
    have hwidth : Text.byteLength (c :: (cs ++ next)) - Text.byteLength next = Text.byteLength (c :: cs) := by
      rw [← List.cons_append, Text.byteLength_append, Nat.add_sub_cancel]
    rw [List.cons_append, scan, if_neg hblank, hread]
    simp only [hvalue, hrest, hwidth]
    cases t? with
    | none => exact (map_nil_append _).symm
    | some t => rfl

/-- A scan takes a text that is cut into words, and goes on behind it. -/
theorem scan_cut (h : Cut next offset cs ts) :
    scan lexeme offset (cs ++ next) = (scan lexeme (offset + Text.byteLength cs) next).map (ts ++ ·) := by
  induction h with
  | nil => exact (map_nil_append _).symm
  | @word offset t? word cs ts hword hends _ ih =>
      rw [List.append_assoc, scan_word hword hends, ih, Text.byteLength_append, Nat.add_assoc]
      cases scan lexeme (offset + (Text.byteLength word + Text.byteLength cs)) next <;> simp

/-- Every text is cut into words to its end, or to a place where none begins. -/
theorem scanned_scan (offset : Nat) (cs : List Char) : Scanned offset cs (scan lexeme offset cs) := by
  -- what stands behind a lexeme is shorter, but no tail that the constructors of a list know of
  induction hlength : cs.length using Nat.strong_induction_on generalizing offset cs with
  | _ length ih =>
      have step {t? : Option Token} {word rest : List Char} (hcs : cs = word ++ rest) (hword : Word t? word)
          (hends : WordEnds t? word rest) : Scanned offset cs (scan lexeme offset cs) := by
        have hshorter : rest.length < length := by
          have := List.length_pos_iff.2 hword.ne_nil
          simp only [← hlength, hcs, List.length_append]
          omega
        rw [hcs, scan_word hword hends]
        exact (ih _ hshorter _ rest rfl).prepend hword hends
      cases cs with
      | nil =>
          rw [scan]
          exact .ok .nil
      | cons c cs =>
          by_cases hblank : Text.isBlank c
          · have hname : WholeName [c] cs := by
              refine wholeName_of_head fun hc => ?_
              obtain rfl : c = '\\' := by simpa using hc
              exact absurd hblank (by decide)
            exact step rfl (.blank hblank) hname.wordEnds
          · cases hr : lexeme offset (c :: cs) with
            | ok r =>
                obtain ⟨word, hcs, hword, hends⟩ := lexeme_sound hr
                exact step hcs hword hends
            | error e =>
                obtain ⟨expected, rfl⟩ := lexeme_error hr
                have hbegins : ¬ BeginsWord (c :: cs) := by
                  intro hbegins
                  obtain ⟨r, hr'⟩ := lexeme_of_beginsWord hbegins (by simpa using hblank)
                  cases hr.symm.trans hr'
                rw [scan, if_neg hblank, hr]
                exact .error .nil (by simp) hbegins

end Latex

end ExactAlgebra
