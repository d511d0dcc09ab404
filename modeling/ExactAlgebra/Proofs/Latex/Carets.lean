import ExactAlgebra.Proofs.Latex.Grammar

/-!
# Carets

In tokens that derive an expression, every caret stands before an exponent literal. So a text in which some caret
stands before anything else is not an expression.
-/

namespace ExactAlgebra.Latex

/-- The tokens begin with an exponent literal. -/
def BeginsExponent (ts : List Token) : Prop := ∃ us n rest, ExponentLiteral us n ∧ ts = us ++ rest

/-- Every caret stands before an exponent literal. -/
def CaretsRead : List Token → Prop
  | [] => True
  | t :: ts => (t = .caret → BeginsExponent ts) ∧ CaretsRead ts

variable {d : Nat} {us next : List Token} {n : Int} {e : Expr}

theorem CaretsRead.cons {t : Token} (ht : t ≠ .caret) (h : CaretsRead us) : CaretsRead (t :: us) :=
  ⟨fun heq => absurd heq ht, h⟩

theorem CaretsRead.append {ts : List Token} (hts : .caret ∉ ts) (h : CaretsRead us) : CaretsRead (ts ++ us) := by
  induction ts with
  | nil => exact h
  | cons t ts ih =>
      rw [List.mem_cons, not_or] at hts
      obtain ⟨ht, hts⟩ := hts
      exact .cons (Ne.symm ht) (ih hts)

theorem CaretsRead.of_append {ts : List Token} (h : CaretsRead (ts ++ us)) : CaretsRead us := by
  induction ts with
  | nil => exact h
  | cons t ts ih => exact ih h.2

theorem ExponentLiteral.caretsRead (h : ExponentLiteral us n) (hnext : CaretsRead next) :
    CaretsRead (us ++ next) := by
  cases h <;> exact .append (by simp) hnext

theorem Exponent.caretsRead (h : Exponent d us n) (hnext : CaretsRead next) :
    BeginsExponent (us ++ next) ∧ CaretsRead (us ++ next) := by
  induction h with
  | X_Literal h => exact ⟨⟨_, _, _, h, rfl⟩, h.caretsRead hnext⟩
  | X_Raised h _ _ _ _ ih =>
      rw [List.append_assoc, List.cons_append]
      exact ⟨⟨_, _, _, h, rfl⟩, h.caretsRead ⟨fun _ => ih.1, ih.2⟩⟩

/-- Deriving an expression before tokens in which all carets are read, all carets are read. -/
theorem Derives.caretsRead {nt : Nonterminal} (h : Derives d nt us next e) (hnext : CaretsRead next) :
    CaretsRead (us ++ next) := by
  -- every part of a derivation stands before the tokens of the next part, so the rules are used from the end
  induction h with
  | S_First _ _ iha ihe | T_First _ _ iha ihe =>
      rw [List.append_assoc]
      exact iha (ihe hnext)
  | S_End | T_End => exact hnext
  | S_Plus _ _ ihb ihe | S_Minus _ _ ihb ihe | T_Times _ _ ihb ihe | T_Divide _ _ ihb ihe =>
      rw [List.cons_append, List.append_assoc]
      exact .cons nofun (ihb (ihe hnext))
  | T_Beside _ _ _ ihb ihe =>
      rw [List.cons_append, List.append_assoc, ← List.cons_append]
      exact ihb (ihe hnext)
  | U_Minus _ iha | U_Plus _ iha => exact .cons nofun (iha hnext)
  | U_Power _ iha | P_Atom _ iha => exact iha hnext
  | P_Raised _ hn iha =>
      obtain ⟨hbegins, hcarets⟩ := hn.caretsRead hnext
      rw [List.append_assoc, List.cons_append]
      exact iha ⟨fun _ => hbegins, hcarets⟩
  | A_Number | A_Letter => exact .cons nofun hnext
  | A_Mixed => exact .append (by simp [literalFraction]) hnext
  | A_Paren _ iha | A_Brace _ iha =>
      rw [List.cons_append, List.append_assoc]
      exact .cons nofun (iha (.cons nofun hnext))
  | A_Frac _ _ _ iha ihb =>
      simp only [List.cons_append, List.append_assoc, List.nil_append] at iha ihb ⊢
      exact .cons nofun (.cons nofun (iha (.cons nofun (.cons nofun (ihb (.cons nofun hnext))))))
  | A_Sqrt _ iha =>
      simp only [List.cons_append, List.append_assoc, List.nil_append]
      exact .cons nofun (.cons nofun (iha (.cons nofun hnext)))

end ExactAlgebra.Latex
