import ExactAlgebra.Proofs.Latex.Lexemes
import ExactAlgebra.Proofs.Latex.Parsing

/-!
# Parentheses of parsed expressions

The parentheses of a text that is parsed are those that the tree is written with: none is part of a numeral, of a
command or of an exponent, and none is lost where a fraction becomes a number.
-/

namespace ExactAlgebra

/-- The character is a parenthesis. -/
def Text.isParenthesis (c : Char) : Bool := c == '(' || c == ')'

/-- The parentheses that an expression is written with, from left to right. -/
def Expr.parentheses : Expr → List Char
  | num _ => []
  | var _ => []
  | binary _ left right => left.parentheses ++ right.parentheses
  | power base _ => base.parentheses
  | negate inner => inner.parentheses
  | group inner => '(' :: (inner.parentheses ++ [')'])
  | sqrt inner => inner.parentheses

/-- What holds of neither parenthesis holds of no parenthesis. -/
theorem Text.isParenthesis_eq_false {p : Char → Bool} {c : Char} (hopen : p '(' = false) (hclose : p ')' = false)
    (hc : p c) : isParenthesis c = false := by
  rw [isParenthesis, Bool.or_eq_false_iff, beq_eq_false_iff_ne, beq_eq_false_iff_ne]
  constructor
  · rintro rfl
    exact absurd hc (Bool.eq_false_iff.1 hopen)
  · rintro rfl
    exact absurd hc (Bool.eq_false_iff.1 hclose)

namespace Latex

/-! ## Tokens -/

/-- The parenthesis that a token is, if it is one. -/
def Token.parentheses : Token → List Char
  | openParen => ['(']
  | closeParen => [')']
  | _ => []

theorem parentheses_of_commandToken {name : List Char} {token : Option Token} (h : commandToken? name = some token) :
    token.toList.flatMap Token.parentheses = [] := by
  unfold commandToken? at h
  split at h <;> cases h <;> rfl

theorem parentheses_of_characterToken {c : Char} {t : Token} (h : characterToken? c = some t) :
    [c].filter Text.isParenthesis = t.parentheses := by
  unfold characterToken? at h
  split at h <;> first
    | (cases h; rfl)
    | (obtain ⟨hc, rfl⟩ : c.isAlpha ∧ .letter c = t := by simpa using h
       rw [List.filter_singleton, Text.isParenthesis_eq_false rfl rfl hc]
       rfl)

/-- Characters that are no parentheses may be left out. -/
theorem filter_isParenthesis_append {front cs : List Char} (h : ∀ c ∈ front, Text.isParenthesis c = false) :
    (front ++ cs).filter Text.isParenthesis = cs.filter Text.isParenthesis := by
  rw [List.filter_append, List.filter_eq_nil_iff.2 fun c hc => by simp [h c hc], List.nil_append]

/-- The parentheses of a text are those of its tokens. -/
theorem Lexes.parentheses {cs : List Char} {us : List Token} (h : Lexes cs us) :
    cs.filter Text.isParenthesis = us.flatMap Token.parentheses := by
  induction h with
  | nil => rfl
  | blank hc _ ih =>
      rw [List.filter_cons, Text.isParenthesis_eq_false rfl rfl hc]
      exact ih
  | spacing hc _ ih =>
      rw [List.filter_cons, List.filter_cons, Text.isParenthesis_eq_false rfl rfl hc]
      exact ih
  | command hname htoken _ ih =>
      rw [List.flatMap_append, parentheses_of_commandToken htoken, ← ih, List.filter_cons]
      exact filter_isParenthesis_append fun c hc => Text.isParenthesis_eq_false rfl rfl (hname c hc)
  | number hn _ ih =>
      rw [filter_isParenthesis_append fun c hc => Text.isParenthesis_eq_false rfl rfl (hn c hc), ih]
      rfl
  | character hc _ ih =>
      rw [List.flatMap_cons, ← parentheses_of_characterToken hc, ← ih, ← List.filter_append]
      rfl

/-! ## Expressions -/

/-- The parentheses of the expression that a sum or a product goes on from. -/
def Nonterminal.parentheses : Nonterminal → List Char
  | summands left | factors left => left.parentheses
  | _ => []

variable {d : Nat} {us : List Token}

theorem ExponentLiteral.parentheses {n : Int} (h : ExponentLiteral us n) : us.flatMap Token.parentheses = [] := by
  cases h <;> rfl

theorem Exponent.parentheses {n : Int} (h : Exponent d us n) : us.flatMap Token.parentheses = [] := by
  induction h with
  | X_Literal h => exact h.parentheses
  | X_Raised h _ _ _ _ ih =>
      rw [List.flatMap_append, h.parentheses, List.flatMap_cons, ih]
      rfl

/-- A numeral over a numeral has no parentheses, so nothing is lost when it becomes a number. -/
theorem FractionValue.parentheses {ns ds : List Token} {a b e : Expr} (h : FractionValue ns a ds b e)
    (ha : ns.flatMap Token.parentheses = a.parentheses) (hb : ds.flatMap Token.parentheses = b.parentheses) :
    e.parentheses = a.parentheses ++ b.parentheses := by
  cases h with
  | F_Number hn => rw [← ha, ← hb]; cases hn <;> rfl
  | F_Denominator | F_Quotient => rfl

/-- The parentheses of the tokens are those of the expression that they derive. -/
theorem Derives.parentheses {nt : Nonterminal} {next : List Token} {e : Expr} (h : Derives d nt us next e) :
    e.parentheses = nt.parentheses ++ us.flatMap Token.parentheses := by
  induction h with
  | S_First _ _ iha ihe | T_First _ _ iha ihe =>
      rw [ihe, List.flatMap_append]
      exact congrArg (· ++ _) iha
  | S_End | T_End => exact (List.append_nil _).symm
  | S_Plus _ _ ihb ihe | S_Minus _ _ ihb ihe | T_Times _ _ ihb ihe | T_Divide _ _ ihb ihe =>
      rw [ihe, List.flatMap_cons, List.flatMap_append]
      simp [Nonterminal.parentheses, Expr.parentheses, Token.parentheses, ihb]
  | T_Beside _ _ _ ihb ihe =>
      rw [ihe, ← List.cons_append, List.flatMap_append]
      simp [Nonterminal.parentheses, Expr.parentheses, ihb]
  | U_Minus _ iha | U_Plus _ iha | U_Power _ iha | P_Atom _ iha => exact iha
  | P_Raised _ hn iha =>
      rw [List.flatMap_append, List.flatMap_cons, hn.parentheses]
      simpa [Nonterminal.parentheses, Expr.parentheses, Token.parentheses] using iha
  | A_Number | A_Mixed | A_Letter => rfl
  | A_Paren _ iha | A_Brace _ iha => simp [Nonterminal.parentheses, Expr.parentheses, Token.parentheses, iha]
  | A_Frac _ _ hv iha ihb =>
      rw [hv.parentheses iha.symm ihb.symm, iha, ihb]
      simp [Nonterminal.parentheses, Token.parentheses]
  | A_Sqrt _ iha => simp [Nonterminal.parentheses, Expr.parentheses, Token.parentheses, iha]

/-- The parentheses of a text are those of the expression that it is parsed to. -/
theorem filter_of_parse {limit : Nat} {text : List Char} {e : Expr} (h : parse limit text = .ok e) :
    text.filter Text.isParenthesis = e.parentheses := by
  obtain ⟨ts, d, hts, _, hderives⟩ := parse_eq_ok_iff.1 h
  rw [(lexes_of_scan hts).parentheses, hderives.parentheses]
  rfl

end Latex

end ExactAlgebra
