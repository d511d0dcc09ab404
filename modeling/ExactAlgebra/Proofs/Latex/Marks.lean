import ExactAlgebra.Proofs.Latex.Lexemes
import ExactAlgebra.Proofs.Profile.Marks

/-!
# Fraction commands and braces of expressions

The marks of a text that has tokens are those of its tokens: no lexeme hides a command or a brace, and none makes one
up. Where the tokens derive an expression, fractions stand in no more groups than there are levels of nesting.
-/

namespace ExactAlgebra.Latex

open Profile (Mark Nests marks)

/-- The mark that a token is, if it is one. -/
def Token.mark? : Token → Option Mark
  | frac => some .fraction
  | openBrace => some .opening
  | closeBrace => some .closing
  | _ => none

theorem Token.mark?_eq_fraction_iff {t : Token} : t.mark? = some .fraction ↔ t = .frac := by
  cases t <;> simp [mark?]

theorem count_fraction (us : List Token) : (us.filterMap Token.mark?).count .fraction = us.count .frac := by
  rw [List.count_filterMap]
  refine List.countP_congr fun t _ => ?_
  rw [beq_iff_eq, beq_iff_eq, Token.mark?_eq_fraction_iff]

/-! ## Tokens -/

theorem marks_spacing {c : Char} (h : isSpacing c) (cs : List Char) : marks ('\\' :: c :: cs) = marks cs := by
  simp only [isSpacing, Bool.or_eq_true, beq_iff_eq] at h
  rcases h with (((rfl | rfl) | rfl) | rfl) | rfl <;> rfl

/-- A command has the mark of its token. -/
theorem marks_command {name : List Char} {token : Option Token} (h : commandToken? name = some token)
    (cs : List Char) : marks ('\\' :: (name ++ cs)) = token.toList.filterMap Token.mark? ++ marks cs := by
  unfold commandToken? at h
  split at h <;> rename_i hname <;> cases h <;> (rw [← String.toList_ofList (l := name), hname]; rfl)

theorem marks_character {c : Char} {t : Token} (h : characterToken? c = some t) (cs : List Char) :
    marks (c :: cs) = [t].filterMap Token.mark? ++ marks cs := by
  unfold characterToken? at h
  split at h <;> first
    | (cases h; rfl)
    | (obtain ⟨hc, rfl⟩ : c.isAlpha ∧ .letter c = t := by simpa using h
       exact Profile.marks_cons (Mark.mayBegin_eq_false rfl rfl rfl hc))

/-- The marks of a text are those of its tokens. -/
theorem Lexes.marks {cs : List Char} {us : List Token} (h : Lexes cs us) :
    Profile.marks cs = us.filterMap Token.mark? := by
  induction h with
  | nil => rfl
  | blank hc _ ih => rw [Profile.marks_cons (Mark.mayBegin_eq_false rfl rfl rfl hc), ih]
  | spacing hc _ ih => rw [marks_spacing hc, ih]
  | command _ htoken _ ih => rw [marks_command htoken, ih, List.filterMap_append]
  | number hn _ ih =>
      rw [Profile.marks_append fun c hc => Mark.mayBegin_eq_false rfl rfl rfl (hn c hc), ih]
      rfl
  | character hc _ ih => rw [marks_character hc, ih, ← List.filterMap_append, List.singleton_append]

/-! ## Expressions -/

variable {d bound : Nat} {us : List Token}

theorem ExponentLiteral.nests {n : Int} (h : ExponentLiteral us n) : Nests bound 0 (us.filterMap Token.mark?) 0 := by
  cases h with
  | X_Bare => exact .nil
  | X_Braced | X_Negative => exact .opening (.closing .nil)

theorem Exponent.nests {n : Int} (h : Exponent d us n) : Nests bound 0 (us.filterMap Token.mark?) 0 := by
  induction h with
  | X_Literal h => exact h.nests
  | X_Raised h _ _ _ _ ih =>
      rw [List.filterMap_append]
      exact h.nests.append ih

theorem nests_braces (h : Nests bound 0 (us.filterMap Token.mark?) 0) :
    Nests (bound + 1) 0 ((.openBrace :: (us ++ [.closeBrace])).filterMap Token.mark?) 0 := by
  simpa [Token.mark?] using h.enclose

/-- The fractions of an expression stand in as many groups as it may have levels, or fewer. -/
theorem Derives.nests {nt : Nonterminal} {next : List Token} {e : Expr} (h : Derives d nt us next e) :
    Nests (d + 1) 0 (us.filterMap Token.mark?) 0 := by
  induction h with
  | S_First _ _ iha ihe | T_First _ _ iha ihe =>
      rw [List.filterMap_append]
      exact iha.append ihe
  | S_End | T_End => exact .nil
  | S_Plus _ _ ihb ihe | S_Minus _ _ ihb ihe | T_Times _ _ ihb ihe | T_Divide _ _ ihb ihe =>
      rw [List.filterMap_cons_none rfl, List.filterMap_append]
      exact ihb.append ihe
  | T_Beside _ _ _ ihb ihe =>
      rw [← List.cons_append, List.filterMap_append]
      exact ihb.append ihe
  | U_Minus _ iha | U_Plus _ iha => exact iha.mono (Nat.le_succ _)
  | U_Power _ iha | P_Atom _ iha => exact iha
  | P_Raised _ hn iha =>
      rw [List.filterMap_append]
      exact iha.append hn.nests
  | A_Number | A_Letter => exact .nil
  | A_Mixed => exact .fraction (Nat.succ_pos _) (.opening (.closing (.opening (.closing .nil))))
  | A_Paren _ iha =>
      rw [List.filterMap_cons_none rfl, List.filterMap_append]
      exact (iha.append .nil).mono (Nat.le_succ _)
  | A_Brace _ iha | A_Sqrt _ iha => exact nests_braces iha
  | A_Frac _ _ _ iha ihb =>
      have hnests := (nests_braces iha).append (nests_braces ihb)
      rw [← List.filterMap_append, List.cons_append, List.append_assoc] at hnests
      exact .fraction (Nat.succ_pos _) hnests

end ExactAlgebra.Latex
