import ExactAlgebra.Arithmetic.Evaluate
import ExactAlgebra.Expr
import ExactAlgebra.Proofs.Outcome

/-!
# The grammar of calculations

Which lists of tokens are calculations, and of which trees. Products and quotients are read from the left, and so are
sums and differences; a parenthesis may stand beside a factor. `Derives d` allows `d` levels of parentheses and signs
one inside the other.
-/

namespace ExactAlgebra

/-- The result of an operator on two numbers. -/
def Operator.compute (op : Operator) (a b : Rat) : Except Error Rat :=
  match op with
  | add => .ok (a + b)
  | sub => .ok (a - b)
  | mul => .ok (a * b)
  | div => if b = 0 then .error .divisionByZero else .ok (a / b)

theorem Operator.eq_divisionByZero_of_compute {op : Operator} {a b : Rat} {e : Error}
    (h : op.compute a b = .error e) : e = .divisionByZero := by
  cases op with
  | div =>
      rw [compute] at h
      split at h <;> cases h
      rfl
  | _ => cases h

namespace Arithmetic

/-- A calculation with numbers. -/
inductive Calculation where
  | literal (value : Rat)
  | binary (op : Operator) (left right : Calculation)
  | negate (inner : Calculation)
  | group (inner : Calculation)

namespace Calculation

/-- The value of a calculation, or the error where it divides by zero. -/
def value : Calculation → Except Error Rat
  | literal value => .ok value
  | binary op left right => do op.compute (← left.value) (← right.value)
  | negate inner => do return -(← inner.value)
  | group inner => inner.value

theorem value_binary {op : Operator} {a b : Calculation} {x : Rat} (ha : a.value = .ok x) :
    (binary op a b).value = b.value >>= op.compute x := by
  rw [value, ha]
  rfl

/-- A calculation has no value only where it divides by zero. -/
theorem eq_divisionByZero_of_value {c : Calculation} {e : Error} (h : c.value = .error e) : e = .divisionByZero := by
  induction c with
  | literal => cases h
  | binary op left right ihl ihr =>
      rcases Outcome.bind_eq_error.1 h with h | ⟨a, -, h⟩
      · exact ihl h
      · rcases Outcome.bind_eq_error.1 h with h | ⟨b, -, h⟩
        · exact ihr h
        · exact Operator.eq_divisionByZero_of_compute h
  | negate inner ih =>
      rcases Outcome.bind_eq_error.1 h with h | ⟨a, -, h⟩
      · exact ih h
      · cases h
  | group inner ih => exact ih h

/-- The calculation as an expression. -/
def toExpr : Calculation → Expr
  | literal value => .num value
  | binary op left right => .binary op left.toExpr right.toExpr
  | negate inner => .negate inner.toExpr
  | group inner => .group inner.toExpr

end Calculation

/-- The tokens of a list without their offsets. -/
abbrev plain (ts : Tokens) : List Token := ts.map Placed.token

/-- The parts of a calculation. `summands a` is what extends the sum `a`, and `factors a` what extends the product or
quotient `a`. -/
inductive Nonterminal where
  | sum
  | summands (left : Calculation)
  | product
  | factors (left : Calculation)
  | unary
  | atom

/-- The tokens derive the calculation. -/
inductive Derives : Nat → Nonterminal → List Token → Calculation → Prop where
  | S_First {d ts us a c} : Derives d .product ts a → Derives d (.summands a) us c → Derives d .sum (ts ++ us) c
  | S_End {d a} : Derives d (.summands a) [] a
  | S_Plus {d ts us a b c} : Derives d .product ts b → Derives d (.summands (.binary .add a b)) us c →
      Derives d (.summands a) (.plus :: (ts ++ us)) c
  | S_Minus {d ts us a b c} : Derives d .product ts b → Derives d (.summands (.binary .sub a b)) us c →
      Derives d (.summands a) (.minus :: (ts ++ us)) c
  | P_First {d ts us a c} : Derives d .unary ts a → Derives d (.factors a) us c → Derives d .product (ts ++ us) c
  | P_End {d a} : Derives d (.factors a) [] a
  | P_Times {d ts us a b c} : Derives d .unary ts b → Derives d (.factors (.binary .mul a b)) us c →
      Derives d (.factors a) (.times :: (ts ++ us)) c
  | P_Divide {d ts us a b c} : Derives d .unary ts b → Derives d (.factors (.binary .div a b)) us c →
      Derives d (.factors a) (.divide :: (ts ++ us)) c
  | P_Beside {d ts us a b c} : Derives d .atom (.openParen :: ts) b → Derives d (.factors (.binary .mul a b)) us c →
      Derives d (.factors a) (.openParen :: (ts ++ us)) c
  | U_Minus {d ts a} : Derives d .unary ts a → Derives (d + 1) .unary (.minus :: ts) (.negate a)
  | U_Plus {d ts a} : Derives d .unary ts a → Derives (d + 1) .unary (.plus :: ts) a
  | U_Atom {d ts a} : Derives d .atom ts a → Derives d .unary ts a
  | A_Literal {d v} : Derives d .atom [.literal v] (.literal v)
  | A_Paren {d ts a} : Derives d .sum ts a →
      Derives (d + 1) .atom (.openParen :: (ts ++ [.closeParen])) (.group a)

/-- More nesting may be allowed. -/
theorem Derives.mono {d d' : Nat} {nt : Nonterminal} {ts : List Token} {c : Calculation} (h : Derives d nt ts c)
    (hd : d ≤ d') : Derives d' nt ts c := by
  induction h generalizing d' with
  | S_First _ _ iha ihc => exact .S_First (iha hd) (ihc hd)
  | S_End => exact .S_End
  | S_Plus _ _ ihb ihc => exact .S_Plus (ihb hd) (ihc hd)
  | S_Minus _ _ ihb ihc => exact .S_Minus (ihb hd) (ihc hd)
  | P_First _ _ iha ihc => exact .P_First (iha hd) (ihc hd)
  | P_End => exact .P_End
  | P_Times _ _ ihb ihc => exact .P_Times (ihb hd) (ihc hd)
  | P_Divide _ _ ihb ihc => exact .P_Divide (ihb hd) (ihc hd)
  | P_Beside _ _ ihb ihc => exact .P_Beside (ihb hd) (ihc hd)
  | U_Atom _ iha => exact .U_Atom (iha hd)
  | A_Literal => exact .A_Literal
  | U_Minus _ iha =>
      obtain ⟨k, rfl⟩ := Nat.exists_eq_add_of_le' hd
      exact .U_Minus (iha (Nat.le_add_left _ _))
  | U_Plus _ iha =>
      obtain ⟨k, rfl⟩ := Nat.exists_eq_add_of_le' hd
      exact .U_Plus (iha (Nat.le_add_left _ _))
  | A_Paren _ iha =>
      obtain ⟨k, rfl⟩ := Nat.exists_eq_add_of_le' hd
      exact .A_Paren (iha (Nat.le_add_left _ _))

/-- As many levels as there are tokens are enough. -/
theorem Derives.nesting {d : Nat} {nt : Nonterminal} {ts : List Token} {c : Calculation} (h : Derives d nt ts c) :
    Derives ts.length nt ts c := by
  induction h with
  | S_First _ _ iha ihc => exact .S_First (iha.mono (by simp)) (ihc.mono (by simp))
  | S_End => exact .S_End
  | S_Plus _ _ ihb ihc => exact .S_Plus (ihb.mono (by grind)) (ihc.mono (by grind))
  | S_Minus _ _ ihb ihc => exact .S_Minus (ihb.mono (by grind)) (ihc.mono (by grind))
  | P_First _ _ iha ihc => exact .P_First (iha.mono (by simp)) (ihc.mono (by simp))
  | P_End => exact .P_End
  | P_Times _ _ ihb ihc => exact .P_Times (ihb.mono (by grind)) (ihc.mono (by grind))
  | P_Divide _ _ ihb ihc => exact .P_Divide (ihb.mono (by grind)) (ihc.mono (by grind))
  | P_Beside _ _ ihb ihc => exact .P_Beside (ihb.mono (by grind)) (ihc.mono (by grind))
  | U_Minus _ iha => exact .U_Minus iha
  | U_Plus _ iha => exact .U_Plus iha
  | U_Atom _ iha => exact .U_Atom iha
  | A_Literal => exact .A_Literal
  | A_Paren _ iha => exact .A_Paren (iha.mono (by simp))

/-- Whatever extends a calculation without a value has none. -/
theorem Derives.value_eq_error {d : Nat} {nt : Nonterminal} {ts : List Token} {a c : Calculation} {e : Error}
    (h : Derives d nt ts c) (hnt : nt = .summands a ∨ nt = .factors a) (ha : a.value = .error e) :
    c.value = .error e := by
  have hbinary {op : Operator} {a b : Calculation} (ha : a.value = .error e) :
      (Calculation.binary op a b).value = .error e := by
    rw [Calculation.value, ha]
    rfl
  induction h generalizing a with
  | S_End | P_End =>
      rcases hnt with hnt | hnt <;> cases hnt
      exact ha
  | S_Plus _ _ _ ihc | S_Minus _ _ _ ihc =>
      rcases hnt with hnt | hnt <;> cases hnt
      exact ihc (.inl rfl) (hbinary ha)
  | P_Times _ _ _ ihc | P_Divide _ _ _ ihc | P_Beside _ _ _ ihc =>
      rcases hnt with hnt | hnt <;> cases hnt
      exact ihc (.inr rfl) (hbinary ha)
  | _ => rcases hnt with hnt | hnt <;> cases hnt

end Arithmetic

end ExactAlgebra
