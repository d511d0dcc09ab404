import ExactAlgebra.Proofs.Arithmetic.Evaluation
import ExactAlgebra.Proofs.Latex.Spelling

/-!
# Plain arithmetic as text

In a text of digits, blanks, signs and parentheses, the tokens of an expression and those of a calculation are alike.
There are no fractions and mixed numbers in it, because these need a slash.
-/

namespace ExactAlgebra

theorem mem_of_mem_rest {τ : Type} {p : τ → Bool} {ts : List τ} {r : Reading (List τ) ts} {t : τ}
    (h : run? p ts = some r) (ht : t ∈ r.rest) : t ∈ ts := by
  have hmem : t ∈ r.value ++ r.rest := List.mem_append_right r.value ht
  rwa [← (run?_eq_some h).1] at hmem

namespace Arithmetic

/-! ## Literals -/

theorem fraction?_eq_none {cs : List Char} (h : '/' ∉ cs) : fraction? cs = none := by
  unfold fraction?
  cases hdigits : Text.digits? cs with
  | none => rfl
  | some numerator =>
      simp only [bind, Option.bind_some]
      split
      · rename_i tail htail
        exact absurd (mem_of_mem_rest hdigits (by rw [htail]; exact List.mem_cons_self)) h
      · rfl

theorem mixed?_eq_none {cs : List Char} (h : '/' ∉ cs) : mixed? cs = none := by
  unfold mixed?
  cases hwhole : Text.digits? cs with
  | none => rfl
  | some whole =>
      simp only [bind, Option.bind_some]
      cases hgap : run? (fun c => c == ' ' || c == '\t') whole.rest with
      | none => rfl
      | some gap =>
          have hrest : '/' ∉ gap.rest := fun hmem => h (mem_of_mem_rest hwhole (mem_of_mem_rest hgap hmem))
          simp [fraction?_eq_none hrest]

theorem literal?_append {ds cs : List Char} (hne : ds ≠ []) (hds : ∀ d ∈ ds, d.isDigit)
    (hcs : ∀ c ∈ cs.head?, c.isDigit = false) (hslash : '/' ∉ cs) :
    ∃ r, literal? (ds ++ cs) = some r ∧ r.value = .whole (Text.natural ds) ∧ r.rest = cs := by
  have hslash' : '/' ∉ ds ++ cs := by
    rw [List.mem_append]
    rintro (hmem | hmem)
    · cases hds _ hmem
    · exact hslash hmem
  obtain ⟨whole, hwhole, hvalue, hrest⟩ := run?_append hne hds hcs
  refine ⟨whole.map fun digits => .whole (Text.natural digits), ?_, by simp [hvalue], hrest⟩
  simp [literal?, mixed?_eq_none hslash', fraction?_eq_none hslash', Text.digits?, hwhole]

theorem literal?_eq_none {c : Char} {cs : List Char} (hc : c.isDigit = false) : literal? (c :: cs) = none := by
  simp [literal?, mixed?, fraction?, Text.digits?, run?, hc]

/-! ## Tokens -/

/-- The text has the given tokens, wherever it begins. -/
abbrev Spells : List Char → List Token → Prop := ScansTo lexeme

theorem Spells.literal {ds cs : List Char} {us : List Token} (hne : ds ≠ []) (hds : ∀ d ∈ ds, d.isDigit)
    (hcs : ∀ c ∈ cs.head?, c.isDigit = false) (hslash : '/' ∉ cs) (h : Spells cs us) :
    Spells (ds ++ cs) (.literal (Text.natural ds) :: us) := by
  obtain ⟨literal, hliteral, hvalue, hrest⟩ := literal?_append hne hds hcs hslash
  obtain ⟨d, ds, rfl⟩ := List.exists_cons_of_ne_nil hne
  have hrange := Text.toNat_of_isDigit (hds d List.mem_cons_self)
  refine h.cons (Text.isBlank_eq_false (by omega)) fun offset =>
    ⟨literal.map fun _ => some (.literal (Text.natural (d :: ds))), ?_, rfl, hrest⟩
  simp only [List.cons_append] at hliteral ⊢
  simp [Arithmetic.lexeme, hliteral, hvalue, Literal.value]

theorem Spells.sign {c : Char} {cs ds : List Char} {t : Token} {us : List Token} (hblank : Text.isBlank c = false)
    (hdigit : c.isDigit = false) (hsign : ∃ r, sign? (c :: cs) = some r ∧ r.value = t ∧ r.rest = ds)
    (h : Spells ds us) : Spells (c :: cs) (t :: us) := by
  obtain ⟨r, hr, rfl, hrest⟩ := hsign
  refine h.cons hblank fun offset => ⟨r.map some, ?_, rfl, hrest⟩
  simp [Arithmetic.lexeme, literal?_eq_none hdigit, hr]

/-- A token of an expression and one of a calculation are the same number, sign or parenthesis. -/
inductive Alike : Latex.Token → Token → Prop where
  | number {ds} : Alike (.number ⟨ds, []⟩) (.literal (Text.natural ds))
  | plus : Alike .plus .plus
  | minus : Alike .minus .minus
  | times : Alike .times .times
  | divide : Alike .divide .divide
  | openParen : Alike .openParen .openParen
  | closeParen : Alike .closeParen .closeParen

/-- The tokens of a text as an expression and as a calculation are alike. -/
def SpellsAlike (cs : List Char) : Prop :=
  ∃ us vs, Latex.Spells cs us ∧ Spells cs vs ∧ List.Forall₂ Alike us vs

namespace SpellsAlike

variable {cs : List Char} {t : Latex.Token} {u : Token}

theorem nil : SpellsAlike [] := ⟨[], [], .nil, .nil, .nil⟩

theorem blank {c : Char} (hc : Text.isBlank c) (h : SpellsAlike cs) : SpellsAlike (c :: cs) := by
  obtain ⟨us, vs, hus, hvs, halike⟩ := h
  exact ⟨us, vs, hus.blank hc, hvs.blank hc, halike⟩

theorem number {ds : List Char} (hne : ds ≠ []) (hds : ∀ d ∈ ds, d.isDigit)
    (hcs : ∀ c ∈ cs.head?, Numeral.continues c = false) (hslash : '/' ∉ cs) (h : SpellsAlike cs) :
    SpellsAlike (ds ++ cs) := by
  obtain ⟨us, vs, hus, hvs, halike⟩ := h
  exact ⟨_, _, hus.number hne hds hcs,
    hvs.literal hne hds (fun c hc => (Bool.or_eq_false_iff.1 (hcs c hc)).1) hslash, .cons .number halike⟩

theorem sign {c : Char} (hblank : Text.isBlank c = false) (hcommand : c ≠ '\\')
    (hnumeral : Numeral.continues c = false) (ht : Latex.characterToken? c = some t)
    (hu : sign? (c :: cs) = some (.first u cs)) (htu : Alike t u) (h : SpellsAlike cs) : SpellsAlike (c :: cs) := by
  obtain ⟨us, vs, hus, hvs, halike⟩ := h
  have hlatex : Latex.Spells (c :: cs) (t :: us) :=
    hus.cons hblank fun offset => ⟨.first (some t) cs, by
      simp [Latex.lexeme, Numeral.read?_cons hnumeral, ht], rfl, rfl⟩
  exact ⟨_, _, hlatex, hvs.sign hblank (Bool.or_eq_false_iff.1 hnumeral).1 ⟨_, hu, rfl, rfl⟩, .cons htu halike⟩

theorem command {name : List Char} (hne : name ≠ []) (hname : ∀ c ∈ name, c.isAlpha)
    (hcs : ∀ c ∈ cs.head?, c.isAlpha = false) (ht : Latex.commandToken? name = some (some t))
    (hu : ∃ r, sign? ('\\' :: (name ++ cs)) = some r ∧ r.value = u ∧ r.rest = cs) (htu : Alike t u)
    (h : SpellsAlike cs) : SpellsAlike ('\\' :: (name ++ cs)) := by
  obtain ⟨us, vs, hus, hvs, halike⟩ := h
  exact ⟨_, _, hus.command name hne hname hcs ht, hvs.sign (by decide) (by decide) hu, .cons htu halike⟩

end SpellsAlike

/-! ## Plain texts -/

/-- The characters that are signs and parentheses of plain arithmetic. -/
def signs : List Char := ['+', '-', '−', '*', '×', '÷', '(', ')']

/-- The commands that stand for signs of plain arithmetic. -/
def commands : List String := ["times", "cdot", "div"]

/-- A text of digits, blanks, signs and parentheses, and of commands that stand for signs. -/
inductive PlainText : List Char → Prop where
  | nil : PlainText []
  | digit {c cs} : c.isDigit → PlainText cs → PlainText (c :: cs)
  | blank {c cs} : Text.isBlank c → PlainText cs → PlainText (c :: cs)
  | sign {c cs} : c ∈ signs → PlainText cs → PlainText (c :: cs)
  | command {cs} (name : String) : name ∈ commands → PlainText cs → PlainText ('\\' :: (name.toList ++ cs))

theorem SpellsAlike.of_mem_signs {c : Char} {cs : List Char} (hc : c ∈ signs) (h : SpellsAlike cs) :
    SpellsAlike (c :: cs) := by
  simp only [signs, List.mem_cons, List.not_mem_nil, or_false] at hc
  rcases hc with rfl | rfl | rfl | rfl | rfl | rfl | rfl | rfl
  · exact h.sign (by decide) (by simp) (by decide) rfl rfl .plus
  · exact h.sign (by decide) (by simp) (by decide) rfl rfl .minus
  · exact h.sign (by decide) (by simp) (by decide) rfl rfl .minus
  · exact h.sign (by decide) (by simp) (by decide) rfl rfl .times
  · exact h.sign (by decide) (by simp) (by decide) rfl rfl .times
  · exact h.sign (by decide) (by simp) (by decide) rfl rfl .divide
  · exact h.sign (by decide) (by simp) (by decide) rfl rfl .openParen
  · exact h.sign (by decide) (by simp) (by decide) rfl rfl .closeParen

theorem SpellsAlike.of_mem_commands {name : String} {cs : List Char} (hname : name ∈ commands)
    (hcs : ∀ c ∈ cs.head?, c.isAlpha = false) (h : SpellsAlike cs) : SpellsAlike ('\\' :: (name.toList ++ cs)) := by
  simp only [commands, List.mem_cons, List.not_mem_nil, or_false] at hname
  rcases hname with rfl | rfl | rfl
  · exact h.command (by decide) (List.all_eq_true.1 rfl) hcs rfl ⟨_, rfl, rfl, rfl⟩ .times
  · exact h.command (by decide) (List.all_eq_true.1 rfl) hcs rfl ⟨_, rfl, rfl, rfl⟩ .times
  · exact h.command (by decide) (List.all_eq_true.1 rfl) hcs rfl ⟨_, rfl, rfl, rfl⟩ .divide

namespace PlainText

variable {cs : List Char}

theorem slash_not_mem (h : PlainText cs) : '/' ∉ cs := by
  induction h with
  | nil => nofun
  | digit hc _ ih | blank hc _ ih =>
      rw [List.mem_cons]
      rintro (rfl | hmem)
      · cases hc
      · exact ih hmem
  | sign hc _ ih =>
      rw [List.mem_cons]
      rintro (rfl | hmem)
      · exact absurd hc (by decide)
      · exact ih hmem
  | command _ hname _ ih =>
      simp only [commands, List.mem_cons, List.not_mem_nil, or_false] at hname
      rcases hname with rfl | rfl | rfl <;> simpa using ih

/-- Neither a numeral nor the name of a command goes on in a plain text, but for digits. -/
theorem head (h : PlainText cs) : ∀ c ∈ cs.head?, c ≠ '.' ∧ c.isAlpha = false := by
  cases h with
  | nil => nofun
  | digit hc _ =>
      rintro c ⟨⟩
      refine ⟨?_, Bool.eq_false_iff.2 fun halpha => ?_⟩
      · rintro rfl
        cases hc
      · rw [Text.isDigit_of_isAlpha halpha] at hc
        cases hc
  | blank hc _ =>
      rintro c ⟨⟩
      refine ⟨?_, Bool.eq_false_iff.2 fun halpha => ?_⟩
      · rintro rfl
        cases hc
      · have := Text.toNat_of_isAlpha halpha
        rw [Text.isBlank_eq_false (by omega)] at hc
        cases hc
  | sign hc _ =>
      rintro c ⟨⟩
      simp only [signs, List.mem_cons, List.not_mem_nil, or_false] at hc
      rcases hc with rfl | rfl | rfl | rfl | rfl | rfl | rfl | rfl <;> simp
  | command _ _ _ => simp

theorem dropDigits (h : PlainText cs) : PlainText (cs.dropWhile Char.isDigit) := by
  induction h with
  | nil => exact .nil
  | digit hc _ ih =>
      rw [List.dropWhile_cons_of_pos hc]
      exact ih
  | blank hc h ih =>
      rw [List.dropWhile_cons]
      split
      · exact ih
      · exact .blank hc h
  | sign hc h ih =>
      rw [List.dropWhile_cons]
      split
      · exact ih
      · exact .sign hc h
  | command name hname h _ => exact .command name hname h

/-- The tokens of a plain text as an expression and as a calculation are alike. -/
theorem spellsAlike (h : PlainText cs) : SpellsAlike cs := by
  -- a number is read as a whole, so the text behind all its digits is needed
  induction hn : cs.length using Nat.strong_induction_on generalizing cs with
  | _ n ih =>
    subst hn
    cases h with
    | nil => exact .nil
    | @digit c cs hc h =>
        have hrest := h.dropDigits
        have hlength := (List.dropWhile_suffix Char.isDigit (l := cs)).length_le
        have hspells := ih _ (by simp; omega) hrest rfl
        have hnumber : SpellsAlike ((c :: cs.takeWhile Char.isDigit) ++ cs.dropWhile Char.isDigit) := by
          refine hspells.number nofun ?_ (fun d hd => ?_) hrest.slash_not_mem
          · exact List.forall_mem_cons.2 ⟨hc, fun d => List.mem_takeWhile_imp⟩
          · have hdigit := List.head?_dropWhile_not Char.isDigit cs
            rw [Option.mem_def.1 hd] at hdigit
            simp [Numeral.continues, hdigit, (hrest.head d hd).1]
        rwa [List.cons_append, List.takeWhile_append_dropWhile] at hnumber
    | blank hc h => exact (ih _ (by simp) h rfl).blank hc
    | sign hc h => exact (ih _ (by simp) h rfl).of_mem_signs hc
    | command _ hname h => exact (ih _ (by simp) h rfl).of_mem_commands hname fun c hc => (h.head c hc).2

end PlainText

end Arithmetic

end ExactAlgebra
