import ExactAlgebra.Latex.Parser
import Mathlib.Algebra.Group.Int.Defs

/-!
# The grammar of expressions

Which lists of tokens are expressions, and of which trees. A derivation knows the tokens that follow, because an
integer before a literal fraction is the whole part of a mixed number. It also counts nesting: `Derives d` allows
`d` levels of brackets, fraction arguments, roots and signs one inside the other.
-/

namespace ExactAlgebra.Latex

/-- The tokens of a list without their offsets. -/
def plain (ts : Tokens) : List Token := ts.map Placed.token

@[simp] theorem plain_nil : plain [] = [] := rfl

@[simp] theorem plain_cons (t : Placed Token) (ts : Tokens) : plain (t :: ts) = t.token :: plain ts := rfl

@[simp] theorem length_plain (ts : Tokens) : (plain ts).length = ts.length := List.length_map _

theorem plain_eq_nil {ts : Tokens} (h : plain ts = []) : ts = [] := List.map_eq_nil_iff.1 h

theorem plain_eq_cons {ts : Tokens} {t : Token} {us : List Token} (h : plain ts = t :: us) :
    ∃ o rest, ts = ⟨t, o⟩ :: rest ∧ plain rest = us := by
  obtain ⟨⟨_, o⟩, rest, rfl, rfl, hrest⟩ := List.map_eq_cons_iff.1 h
  exact ⟨o, rest, rfl, hrest⟩

/-! ## Exponents -/

/-- An integer literal as an exponent, bare or in braces with an optional minus sign. -/
inductive ExponentLiteral : List Token → Int → Prop where
  | X_Bare {n} : n.isInteger → n.digitsValue ≤ maxExponent →
      ExponentLiteral [.number n] n.digitsValue
  | X_Braced {n} : n.isInteger → n.digitsValue ≤ maxExponent →
      ExponentLiteral [.openBrace, .number n, .closeBrace] n.digitsValue
  | X_Negative {n} : n.isInteger → n.digitsValue ≤ maxExponent →
      ExponentLiteral [.openBrace, .minus, .number n, .closeBrace] (-n.digitsValue)

/-- A literal, raised to the value of a further exponent if a caret follows it. Upper values are unsigned words
of 32 bits, and all values are signed words of 64 bits. -/
inductive Exponent : Nat → List Token → Int → Prop where
  | X_Literal {d ts n} : ExponentLiteral ts n → Exponent d ts n
  | X_Raised {d ts us n m} : ExponentLiteral ts n → Exponent d us m → 0 ≤ m → m < 4294967296 →
      isWord64 (n ^ m.toNat) → Exponent (d + 1) (ts ++ .caret :: us) (n ^ m.toNat)

/-! ## Fractions -/

/-- A numeral, possibly after a minus sign. -/
inductive SignedNumeral : List Token → Bool → Numeral → Prop where
  | L_Plain {n} : SignedNumeral [.number n] false n
  | L_Negative {n} : SignedNumeral [.minus, .number n] true n

/-- The tokens of a fraction of two numerals. -/
def literalFraction (p q : Numeral) : List Token :=
  [.frac, .openBrace, .number p, .closeBrace, .openBrace, .number q, .closeBrace]

/-- The tokens begin with a fraction of integer literals. -/
def BeginsLiteralFraction (ts : List Token) : Prop :=
  ∃ p q rest, p.isInteger ∧ q.isInteger ∧ ts = literalFraction p q ++ rest

/-- The expression for a fraction with the arguments `ns` and `ds`, which derive `a` and `b`. A numeral as
denominator has to be a positive integer without sign; an integer literal over it makes a number. -/
inductive FractionValue : List Token → Expr → List Token → Expr → Expr → Prop where
  | F_Number {ns a b s n q} : SignedNumeral ns s n → n.isInteger → q.isInteger → q.digitsValue ≠ 0 →
      FractionValue ns a [.number q] b
        (.num (if s then -mkRat n.digitsValue q.digitsValue else mkRat n.digitsValue q.digitsValue))
  | F_Denominator {ns a b q} : (∀ s n, SignedNumeral ns s n → ¬ n.isInteger) → q.isInteger →
      q.digitsValue ≠ 0 → FractionValue ns a [.number q] b (.binary .div a b)
  | F_Quotient {ns a ds b} : (∀ s q, ¬ SignedNumeral ds s q) →
      FractionValue ns a ds b (.binary .div a b)

/-! ## Expressions -/

/-- The parts of an expression. `summands a` is what extends the sum `a`, and `factors a` what extends the
product or quotient `a`. -/
inductive Nonterminal where
  | sum
  | summands (left : Expr)
  | term
  | factors (left : Expr)
  | unary
  | power
  | atom

/-- Before the tokens `next`, the tokens `ts` derive the expression `e`. -/
inductive Derives : Nat → Nonterminal → List Token → List Token → Expr → Prop where
  | S_First {d ts us next a e} : Derives d .term ts (us ++ next) a →
      Derives d (.summands a) us next e → Derives d .sum (ts ++ us) next e
  | S_End {d next a} : Derives d (.summands a) [] next a
  | S_Plus {d ts us next a b e} : Derives d .term ts (us ++ next) b →
      Derives d (.summands (.binary .add a b)) us next e →
      Derives d (.summands a) (.plus :: (ts ++ us)) next e
  | S_Minus {d ts us next a b e} : Derives d .term ts (us ++ next) b →
      Derives d (.summands (.binary .sub a b)) us next e →
      Derives d (.summands a) (.minus :: (ts ++ us)) next e
  | T_First {d ts us next a e} : Derives d .unary ts (us ++ next) a →
      Derives d (.factors a) us next e → Derives d .term (ts ++ us) next e
  | T_End {d next a} : Derives d (.factors a) [] next a
  | T_Times {d ts us next a b e} : Derives d .unary ts (us ++ next) b →
      Derives d (.factors (.binary .mul a b)) us next e →
      Derives d (.factors a) (.times :: (ts ++ us)) next e
  | T_Divide {d ts us next a b e} : Derives d .unary ts (us ++ next) b →
      Derives d (.factors (.binary .div a b)) us next e →
      Derives d (.factors a) (.divide :: (ts ++ us)) next e
  | T_Beside {d t ts us next a b e} : t.beginsFactor → Derives d .power (t :: ts) (us ++ next) b →
      Derives d (.factors (.binary .mul a b)) us next e →
      Derives d (.factors a) (t :: (ts ++ us)) next e
  | U_Minus {d ts next a} : Derives d .unary ts next a →
      Derives (d + 1) .unary (.minus :: ts) next (.negate a)
  | U_Plus {d ts next a} : Derives d .unary ts next a → Derives (d + 1) .unary (.plus :: ts) next a
  | U_Power {d ts next a} : Derives d .power ts next a → Derives d .unary ts next a
  | P_Atom {d ts next a} : Derives d .atom ts next a → Derives d .power ts next a
  | P_Raised {d ts us next a n} : Derives d .atom ts (.caret :: (us ++ next)) a → Exponent d us n →
      Derives d .power (ts ++ .caret :: us) next (.power a n)
  | A_Number {d n next} : n.isScalable → ¬ (n.isInteger ∧ BeginsLiteralFraction next) →
      Derives d .atom [.number n] next (.num n.value)
  | A_Mixed {d n p q next} : n.isInteger → p.isInteger → q.isInteger → q.digitsValue ≠ 0 →
      Derives d .atom (.number n :: literalFraction p q) next
        (.num (n.value + mkRat p.digitsValue q.digitsValue))
  | A_Letter {d c next} : Derives d .atom [.letter c] next (.var (String.singleton c))
  | A_Paren {d ts next a} : Derives d .sum ts (.closeParen :: next) a →
      Derives (d + 1) .atom (.openParen :: (ts ++ [.closeParen])) next (.group a)
  | A_Brace {d ts next a} : Derives d .sum ts (.closeBrace :: next) a →
      Derives (d + 1) .atom (.openBrace :: (ts ++ [.closeBrace])) next a
  | A_Frac {d ns ds next a b e} :
      Derives d .sum ns (.closeBrace :: .openBrace :: (ds ++ .closeBrace :: next)) a →
      Derives d .sum ds (.closeBrace :: next) b → FractionValue ns a ds b e →
      Derives (d + 1) .atom
        (.frac :: .openBrace :: (ns ++ .closeBrace :: .openBrace :: (ds ++ [.closeBrace]))) next e
  | A_Sqrt {d ts next a} : Derives d .sum ts (.closeBrace :: next) a →
      Derives (d + 1) .atom (.sqrt :: .openBrace :: (ts ++ [.closeBrace])) next (.sqrt a)

theorem Derives.term_of_unary {d : Nat} {ts next : List Token} {a : Expr} (h : Derives d .unary ts next a) :
    Derives d .term ts next a := by
  rw [← ts.append_nil]
  exact .T_First h .T_End

theorem Derives.sum_of_term {d : Nat} {ts next : List Token} {a : Expr} (h : Derives d .term ts next a) :
    Derives d .sum ts next a := by
  rw [← ts.append_nil]
  exact .S_First h .S_End

theorem Derives.sum_of_atom {d : Nat} {ts next : List Token} {a : Expr} (h : Derives d .atom ts next a) :
    Derives d .sum ts next a := .sum_of_term (.term_of_unary (.U_Power (.P_Atom h)))

/-! ## Numerals -/

theorem not_beginsLiteralFraction_nil : ¬ BeginsLiteralFraction [] := by
  rintro ⟨p, q, rest, -, -, h⟩
  cases h

theorem not_beginsLiteralFraction_cons {t : Token} {ts : List Token} (ht : t ≠ .frac) :
    ¬ BeginsLiteralFraction (t :: ts) := by
  rintro ⟨p, q, rest, -, -, h⟩
  exact ht (List.cons.inj h).1

theorem derives_numeral {d : Nat} {next : List Token} {n : Numeral} (hn : n.isInteger)
    (h : ¬ BeginsLiteralFraction next) : Derives d .atom [.number n] next (.num n.value) :=
  .A_Number (Numeral.isScalable_of_isInteger hn) fun ⟨_, hnext⟩ => h hnext

/-- An integer before a closing brace is an expression on any level. -/
theorem derives_argument (depth : Nat) {q : Numeral} (hq : q.isInteger) (next : List Token) :
    Derives depth .sum [.number q] (.closeBrace :: next) (.num q.value) :=
  .sum_of_atom (derives_numeral hq (not_beginsLiteralFraction_cons Token.noConfusion))

/-! ## Nesting -/

theorem Exponent.mono {d d' : Nat} {ts : List Token} {n : Int} (h : Exponent d ts n) (hd : d ≤ d') :
    Exponent d' ts n := by
  induction h generalizing d' with
  | X_Literal h => exact .X_Literal h
  | X_Raised h _ hm hm' hw ih =>
      obtain ⟨k, rfl⟩ := Nat.exists_eq_add_of_le' hd
      exact .X_Raised h (ih (Nat.le_add_left _ _)) hm hm' hw

/-- More nesting may be allowed. -/
theorem Derives.mono {d d' : Nat} {nt : Nonterminal} {ts next : List Token} {e : Expr}
    (h : Derives d nt ts next e) (hd : d ≤ d') : Derives d' nt ts next e := by
  induction h generalizing d' with
  | S_First _ _ iha ihe => exact .S_First (iha hd) (ihe hd)
  | S_End => exact .S_End
  | S_Plus _ _ ihb ihe => exact .S_Plus (ihb hd) (ihe hd)
  | S_Minus _ _ ihb ihe => exact .S_Minus (ihb hd) (ihe hd)
  | T_First _ _ iha ihe => exact .T_First (iha hd) (ihe hd)
  | T_End => exact .T_End
  | T_Times _ _ ihb ihe => exact .T_Times (ihb hd) (ihe hd)
  | T_Divide _ _ ihb ihe => exact .T_Divide (ihb hd) (ihe hd)
  | T_Beside ht _ _ ihb ihe => exact .T_Beside ht (ihb hd) (ihe hd)
  | U_Power _ iha => exact .U_Power (iha hd)
  | P_Atom _ iha => exact .P_Atom (iha hd)
  | P_Raised _ hn iha => exact .P_Raised (iha hd) (hn.mono hd)
  | A_Number hscalable hn => exact .A_Number hscalable hn
  | A_Mixed hn hp hq hne => exact .A_Mixed hn hp hq hne
  | A_Letter => exact .A_Letter
  | U_Minus _ iha =>
      obtain ⟨k, rfl⟩ := Nat.exists_eq_add_of_le' hd
      exact .U_Minus (iha (Nat.le_add_left _ _))
  | U_Plus _ iha =>
      obtain ⟨k, rfl⟩ := Nat.exists_eq_add_of_le' hd
      exact .U_Plus (iha (Nat.le_add_left _ _))
  | A_Paren _ iha =>
      obtain ⟨k, rfl⟩ := Nat.exists_eq_add_of_le' hd
      exact .A_Paren (iha (Nat.le_add_left _ _))
  | A_Brace _ iha =>
      obtain ⟨k, rfl⟩ := Nat.exists_eq_add_of_le' hd
      exact .A_Brace (iha (Nat.le_add_left _ _))
  | A_Frac _ _ hv iha ihb =>
      obtain ⟨k, rfl⟩ := Nat.exists_eq_add_of_le' hd
      exact .A_Frac (iha (Nat.le_add_left _ _)) (ihb (Nat.le_add_left _ _)) hv
  | A_Sqrt _ iha =>
      obtain ⟨k, rfl⟩ := Nat.exists_eq_add_of_le' hd
      exact .A_Sqrt (iha (Nat.le_add_left _ _))

theorem Exponent.nesting {d : Nat} {ts : List Token} {n : Int} (h : Exponent d ts n) :
    Exponent ts.length ts n := by
  induction h with
  | X_Literal h => exact .X_Literal h
  | X_Raised h _ hm hm' hw ih =>
      refine (Exponent.X_Raised h ih hm hm' hw).mono ?_
      simp only [List.length_append, List.length_cons]
      omega

/-- Every level of nesting takes a token. -/
theorem Derives.nesting {d : Nat} {nt : Nonterminal} {ts next : List Token} {e : Expr}
    (h : Derives d nt ts next e) : Derives ts.length nt ts next e := by
  induction h with
  | S_First _ _ iha ihe => exact .S_First (iha.mono (by simp)) (ihe.mono (by simp))
  | S_End => exact .S_End
  | S_Plus _ _ ihb ihe => exact .S_Plus (ihb.mono (by grind)) (ihe.mono (by grind))
  | S_Minus _ _ ihb ihe => exact .S_Minus (ihb.mono (by grind)) (ihe.mono (by grind))
  | T_First _ _ iha ihe => exact .T_First (iha.mono (by simp)) (ihe.mono (by simp))
  | T_End => exact .T_End
  | T_Times _ _ ihb ihe => exact .T_Times (ihb.mono (by grind)) (ihe.mono (by grind))
  | T_Divide _ _ ihb ihe => exact .T_Divide (ihb.mono (by grind)) (ihe.mono (by grind))
  | T_Beside ht _ _ ihb ihe => exact .T_Beside ht (ihb.mono (by grind)) (ihe.mono (by grind))
  | U_Minus _ iha => exact .U_Minus iha
  | U_Plus _ iha => exact .U_Plus iha
  | U_Power _ iha => exact .U_Power iha
  | P_Atom _ iha => exact .P_Atom iha
  | P_Raised _ hn iha => exact .P_Raised (iha.mono (by simp)) (hn.nesting.mono (by grind))
  | A_Number hscalable hn => exact .A_Number hscalable hn
  | A_Mixed hn hp hq hne => exact .A_Mixed hn hp hq hne
  | A_Letter => exact .A_Letter
  | A_Paren _ iha => exact .A_Paren (iha.mono (by simp))
  | A_Brace _ iha => exact .A_Brace (iha.mono (by simp))
  | A_Frac _ _ hv iha ihb => exact .A_Frac (iha.mono (by grind)) (ihb.mono (by grind)) hv
  | A_Sqrt _ iha => exact .A_Sqrt (iha.mono (by grind))

end ExactAlgebra.Latex
