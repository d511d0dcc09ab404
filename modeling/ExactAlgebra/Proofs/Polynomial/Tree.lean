import ExactAlgebra.Proofs.Polynomial.Written

/-!
# The expression that a polynomial is written as

The tokens of a written polynomial derive a sum of products, nested in two levels at most.
-/

namespace ExactAlgebra

open Latex

namespace Monomial

/-- The expression for a power of a variable. -/
def powerTree (f : String × Nat) : Expr := if f.2 = 1 then .var f.1 else .power (.var f.1) f.2

/-- The product of an expression with powers of variables. -/
def besides (e : Expr) (fs : List (String × Nat)) : Expr :=
  fs.foldl (fun e f => .binary .mul e (powerTree f)) e

end Monomial

/-- The expression with a minus sign, if there is one. -/
def Expr.signed (negative : Bool) (e : Expr) : Expr := if negative then .negate e else e

/-- The expression for a term, with a minus sign at its first factor if there is one. -/
def Term.tree (negative : Bool) (t : Term) : Expr :=
  if t.hasNumber then Monomial.besides (Expr.signed negative (.num t.coefficient.abs)) t.monomial.factors
  else
    match t.monomial.factors with
    | [] => .num 1
    | f :: fs => Monomial.besides (Expr.signed negative (Monomial.powerTree f)) fs

/-- The sum or difference of an expression and a term. -/
def Term.addTree (e : Expr) (t : Term) : Expr :=
  .binary (if t.isNegative then .sub else .add) e (t.tree false)

/-- The expression that a polynomial is written as. -/
def Polynomial.tree (p : Polynomial) : Expr :=
  match p.terms with
  | [] => .num 0
  | t :: ts => ts.foldl Term.addTree (t.tree t.isNegative)

/-! ## Derivations -/

namespace Latex

variable {d : Nat} {us next : List Token} {a : Expr}

theorem mkRat_natAbs {q : Rat} (hq : 0 ≤ q) : mkRat q.num.natAbs q.den = q := by
  rw [Int.natAbs_of_nonneg (Rat.num_nonneg.2 hq), Rat.mkRat_self]

theorem value_numeral (n : Nat) : (numeral n).value = mkRat n 1 := by
  rw [Numeral.value, digitsValue_numeral]
  rfl

theorem derives_number {q : Rat} (hq : 0 ≤ q) (hnext : ¬ BeginsLiteralFraction next) :
    Derives 1 .atom (numberTokens q) next (.num q) := by
  unfold numberTokens
  split
  · rename_i hden
    have hvalue : (numeral q.num.natAbs).value = q := by rw [value_numeral, ← hden, mkRat_natAbs hq]
    have hnumeral := derives_numeral (d := 1) (n := numeral q.num.natAbs) rfl hnext
    rwa [hvalue] at hnumeral
  · have hfraction : FractionValue [.number (numeral q.num.natAbs)] (.num (numeral q.num.natAbs).value)
        [.number (numeral q.den)] (.num (numeral q.den).value) (.num q) := by
      have hvalue := FractionValue.F_Number (a := .num (numeral q.num.natAbs).value)
        (b := .num (numeral q.den).value) (q := numeral q.den) (.L_Plain (n := numeral q.num.natAbs)) rfl rfl
        (by simp [q.den_nz])
      simp only [digitsValue_numeral, mkRat_natAbs hq, Bool.false_eq_true, if_false] at hvalue
      exact hvalue
    exact .A_Frac (derives_argument 0 rfl _) (derives_argument 0 rfl _) hfraction

theorem derives_power {f : String × Nat} (hf : IsLetter f.1) (hbound : f.2 < exponentBound) :
    Derives d .power (Monomial.powerTokens f) next (Monomial.powerTree f) := by
  obtain ⟨name, n⟩ := f
  obtain ⟨c, -, rfl⟩ := hf
  simp only [Monomial.powerTokens, Monomial.powerTree]
  have hletter {us : List Token} : Derives d .atom [.letter c] us (.var (String.singleton c)) := .A_Letter
  split
  · simpa using Derives.P_Atom hletter
  · have hmax : (numeral n).digitsValue ≤ maxExponent := by
      simp only [digitsValue_numeral, maxExponent]
      simp only [exponentBound] at hbound
      omega
    have hexponent := Exponent.X_Literal (d := d) (.X_Braced rfl hmax)
    simpa using Derives.P_Raised hletter hexponent

theorem powerTokens_eq_cons {f : String × Nat} (hf : IsLetter f.1) :
    ∃ c us, Monomial.powerTokens f = .letter c :: us := by
  obtain ⟨name, n⟩ := f
  obtain ⟨c, -, rfl⟩ := hf
  exact ⟨c, _, by rw [Monomial.powerTokens, String.toList_singleton]; rfl⟩

theorem not_beginsLiteralFraction_monomial {m : Monomial} (hm : ∀ f ∈ m.factors, IsLetter f.1)
    (hnext : ¬ BeginsLiteralFraction next) : ¬ BeginsLiteralFraction (m.tokens ++ next) := by
  unfold Monomial.tokens
  cases hcons : m.factors with
  | nil => exact hnext
  | cons f fs =>
      obtain ⟨c, us, hus⟩ := powerTokens_eq_cons (hm f (by simp [hcons]))
      rw [List.flatMap_cons, hus]
      exact not_beginsLiteralFraction_cons nofun

theorem derives_besides {fs : List (String × Nat)} (hfs : ∀ f ∈ fs, IsLetter f.1 ∧ f.2 < exponentBound) :
    Derives d (.factors a) (fs.flatMap Monomial.powerTokens) next (Monomial.besides a fs) := by
  induction fs generalizing a with
  | nil => exact .T_End
  | cons f fs ih =>
      have ⟨⟨hletter, hbound⟩, hfs⟩ := List.forall_mem_cons.1 hfs
      obtain ⟨c, us, hus⟩ := powerTokens_eq_cons hletter
      have hpower : Derives d .power (Monomial.powerTokens f) (fs.flatMap Monomial.powerTokens ++ next)
          (Monomial.powerTree f) := derives_power hletter hbound
      rw [hus] at hpower
      rw [List.flatMap_cons, hus]
      exact .T_Beside rfl hpower (ih hfs)

theorem derives_signed {negative : Bool} (h : Derives d .power us next a) :
    Derives (d + 1) .unary ((if negative then [.minus] else []) ++ us) next (a.signed negative) := by
  cases negative with
  | false => exact .mono (.U_Power h) (Nat.le_succ d)
  | true => exact .U_Minus (.U_Power h)

end Latex

/-- The tokens of a term derive it, with a minus sign or without. -/
theorem Term.derives {t : Term} (negative : Bool) {next : List Token}
    (ht : ∀ f ∈ t.monomial.factors, IsLetter f.1) (hnext : ¬ BeginsLiteralFraction next) :
    Derives 2 .term ((if negative then [.minus] else []) ++ t.tokens) next (t.tree negative) := by
  have hfactors : ∀ f ∈ t.monomial.factors, IsLetter f.1 ∧ f.2 < exponentBound :=
    fun f hf => ⟨ht f hf, t.monomial.bounded f hf⟩
  have hbegins := not_beginsLiteralFraction_monomial ht hnext
  unfold tokens tree
  by_cases hnumber : t.hasNumber
  · have hcoefficient := derives_number (Rat.abs_nonneg (x := t.coefficient)) hbegins
    rw [if_pos hnumber, if_pos hnumber, ← List.append_assoc]
    exact .T_First (derives_signed (.P_Atom hcoefficient)) (derives_besides hfactors)
  · rw [if_neg hnumber, if_neg hnumber]
    unfold Monomial.tokens
    cases hcons : t.monomial.factors with
    | nil => simp [hasNumber, isConstant, Monomial.isConstant, hcons] at hnumber
    | cons f fs =>
        rw [hcons] at hfactors
        have ⟨⟨hletter, hbound⟩, hfs⟩ := List.forall_mem_cons.1 hfactors
        rw [List.flatMap_cons, List.nil_append, ← List.append_assoc]
        exact .T_First (derives_signed (derives_power hletter hbound)) (derives_besides hfs)

theorem Term.derives_summand {t : Term} {us next : List Token} {a e : Expr}
    (ht : Derives 2 .term t.tokens (us ++ next) (t.tree false))
    (he : Derives 2 (.summands (addTree a t)) us next e) :
    Derives 2 (.summands a) (t.signedTokens ++ us) next e := by
  unfold signedTokens
  unfold addTree at he
  by_cases hnegative : t.isNegative
  · rw [if_pos hnegative] at he ⊢
    exact .S_Minus ht he
  · rw [if_neg hnegative] at he ⊢
    exact .S_Plus ht he

namespace Polynomial

theorem not_beginsLiteralFraction_summands (ts : List Term) :
    ¬ BeginsLiteralFraction (ts.flatMap Term.signedTokens ++ []) := by
  rw [List.append_nil]
  cases ts with
  | nil => exact not_beginsLiteralFraction_nil
  | cons t ts =>
      rw [List.flatMap_cons, Term.signedTokens]
      refine not_beginsLiteralFraction_cons ?_
      split <;> nofun

theorem derives_summands {ts : List Term} {e : Expr}
    (hts : ∀ t ∈ ts, ∀ f ∈ t.monomial.factors, IsLetter f.1) :
    Derives 2 (.summands e) (ts.flatMap Term.signedTokens) [] (ts.foldl Term.addTree e) := by
  induction ts generalizing e with
  | nil => exact .S_End
  | cons t ts ih =>
      have ⟨ht, hts⟩ := List.forall_mem_cons.1 hts
      have hterm := Term.derives false ht (not_beginsLiteralFraction_summands ts)
      exact Term.derives_summand hterm (ih hts)

/-- The tokens of a polynomial derive its expression. -/
theorem derives {p : Polynomial} (hp : p.Lettered) : Derives 2 .sum p.tokens [] p.tree := by
  obtain ⟨terms⟩ := p
  cases terms with
  | nil =>
      have hzero := derives_numeral (d := 2) (n := numeral 0) rfl (not_beginsLiteralFraction_summands [])
      rw [value_numeral] at hzero
      exact .sum_of_atom hzero
  | cons t ts =>
      have ⟨ht, hts⟩ := List.forall_mem_cons.1 hp
      have hterm := Term.derives t.isNegative ht (not_beginsLiteralFraction_summands ts)
      simp only [tokens, tree, ← List.append_assoc]
      exact .S_First hterm (derives_summands hts)

end Polynomial

end ExactAlgebra
