import ExactAlgebra.Indices.Collect
import ExactAlgebra.Proofs.Outcome
import ExactAlgebra.Proofs.Rational
import ExactAlgebra.Proofs.Tally
import Mathlib

/-!
# How chains are collected

The rules by which an expression raised to an exponent becomes a chain, apart from the limits. What a chain is
made of follows by induction on them: its bases are variables of the expression or whole numbers above one.
-/

namespace ExactAlgebra.Indices

/-! ## Bases -/

instance : Std.LawfulEqOrd Base where
  compare_self {b} := by
    cases b with
    | integer n => exact Std.compare_self (a := n)
    | letter name => exact Std.compare_self (a := name)
  eq_of_compare {a b} h := by
    cases a <;> cases b
    · exact congrArg Base.integer (Std.compare_eq_iff_eq.1 h)
    · cases h
    · cases h
    · exact congrArg Base.letter (Std.compare_eq_iff_eq.1 h)

instance : Std.TransOrd Base where
  eq_swap {a b} := by
    cases a <;> cases b
    case integer.integer m n => exact Std.OrientedOrd.eq_swap (a := m) (b := n)
    case letter.letter x y => exact Std.OrientedOrd.eq_swap (a := x) (b := y)
    all_goals rfl
  isLE_trans {a b c} hab hbc := by
    cases a <;> cases b <;> cases c
    case integer.integer.integer l m n => exact Std.TransOrd.isLE_trans (a := l) (b := m) (c := n) hab hbc
    case letter.letter.letter x y z => exact Std.TransOrd.isLE_trans (a := x) (b := y) (c := z) hab hbc
    case integer.letter.integer | letter.letter.integer => cases hbc
    case letter.integer.integer | letter.integer.letter => cases hab
    all_goals rfl

/-- The value of a base. -/
def Base.value (ρ : String → ℚ) : Base → ℚ
  | integer n => n
  | letter name => ρ name

/-- The base is a whole number above one or one of the variables. -/
def Base.Among (names : List String) : Base → Prop
  | integer n => 1 < n
  | letter name => name ∈ names

theorem Base.Among.mono {names names' : List String} {b : Base} (h : b.Among names) (hsub : names ⊆ names') :
    b.Among names' := by
  cases b with
  | integer n => exact h
  | letter name => exact hsub h

/-! ## Rules -/

/-- Raised to the exponent `k`, the expression `e` is collected to the chain `c`. -/
inductive Collects (treatment : Treatment) : ℚ → Expr → Chain → Prop where
  | C_One {k} : Collects treatment k (.num 1) (.ofNumber 1)
  | C_Integer {k} {n : ℕ} : treatment = .kept → 1 < n → Collects treatment k (.num n) (.ofPower (.integer n) k)
  | C_Number {q} {n : ℤ} : (n < 0 → q ≠ 0) → Collects treatment n (.num q) (.ofNumber (q ^ n))
  | C_Letter {k name} : Collects treatment k (.var name) (.ofPower (.letter name) k)
  | C_Group {k e c} : Collects treatment k e c → Collects treatment k (.group e) c
  | C_Mul {k l r a b} : Collects treatment k l a → Collects treatment k r b →
      Collects treatment k (.binary .mul l r) (a.mul b)
  | C_Div {k l r a b} : Collects treatment k l a → Collects treatment (-k) r b →
      Collects treatment k (.binary .div l r) (a.mul b)
  | C_Power {k e c} {n : ℤ} : Collects treatment (k * n) e c → Collects treatment k (.power e n) c
  | C_NegateEven {e c} {n : ℤ} : Even n → Collects treatment n e c → Collects treatment n (.negate e) c
  | C_NegateOdd {e c} {n : ℤ} : Odd n → Collects treatment n e c →
      Collects treatment n (.negate e) ((Chain.ofNumber (-1)).mul c)
  | C_Sqrt {k e c} : treatment = .kept → Collects treatment (k / 2) e c → Collects treatment k (.sqrt e) c

section Chain

variable {limits : Limits} {treatment : Treatment} {k : ℚ}

theorem integerExponent_eq_ok {n : ℤ} (h : integerExponent limits treatment k = .ok n) : k = n := by
  unfold integerExponent at h
  split at h
  · cases h
  · rename_i hden
    split at h
    · cases h
      exact (Rat.den_eq_one_iff k).1 (not_not.1 hden) |>.symm
    · cases h

theorem isIntegerBase_eq_true {q : ℚ} (h : isIntegerBase q) : 1 < q.num.toNat ∧ q = q.num.toNat := by
  simp only [isIntegerBase, Bool.and_eq_true, beq_iff_eq, decide_eq_true_eq] at h
  have hnum : (q.num.toNat : ℤ) = q.num := Int.toNat_of_nonneg (by omega)
  refine ⟨by omega, ?_⟩
  rw [← Int.cast_natCast, hnum]
  exact ((Rat.den_eq_one_iff q).1 h.1).symm

theorem numberPower_sound {q : ℚ} {c : Chain} (h : numberPower limits treatment q k = .ok c) :
    Collects treatment k (.num q) c := by
  unfold numberPower at h
  split at h
  · rename_i hone
    cases h
    subst hone
    exact .C_One
  · split at h
    · rename_i hbase
      cases h
      rw [Bool.and_eq_true, decide_eq_true_eq] at hbase
      obtain ⟨hlt, hq⟩ := isIntegerBase_eq_true hbase.2
      have hrule := Collects.C_Integer (k := k) hbase.1 hlt
      rwa [← hq] at hrule
    · obtain ⟨n, hn, h⟩ := Outcome.bind_eq_ok.1 h
      obtain ⟨v, hv, h⟩ := Outcome.bind_eq_ok.1 h
      cases h
      obtain ⟨hne, rfl⟩ := Rational.power_eq_ok (Outcome.mapError_eq_ok.1 hv)
      rw [integerExponent_eq_ok hn]
      exact .C_Number hne

/-- A chain that is answered follows the rules. -/
theorem chain_sound {e : Expr} {c : Chain} (h : chain limits treatment k e = .ok c) :
    Collects treatment k e c := by
  fun_induction chain limits treatment k e generalizing c with
  | case1 k q => exact numberPower_sound h
  | case2 k name =>
      cases h
      exact .C_Letter
  | case3 k e ih => exact .C_Group (ih h)
  | case4 k l r ihl ihr =>
      obtain ⟨a, ha, h⟩ := Outcome.bind_eq_ok.1 h
      obtain ⟨b, hb, h⟩ := Outcome.bind_eq_ok.1 h
      cases h
      exact .C_Mul (ihl ha) (ihr hb)
  | case5 k l r ihl ihr =>
      obtain ⟨a, ha, h⟩ := Outcome.bind_eq_ok.1 h
      obtain ⟨b, hb, h⟩ := Outcome.bind_eq_ok.1 h
      cases h
      exact .C_Div (ihl ha) (ihr hb)
  | case6 k e n ih => exact .C_Power (ih h)
  | case7 k e ih =>
      obtain ⟨n, hn, h⟩ := Outcome.bind_eq_ok.1 h
      obtain ⟨a, ha, h⟩ := Outcome.bind_eq_ok.1 h
      cases h
      have hrule := ih ha
      obtain rfl := integerExponent_eq_ok hn
      split
      · rename_i heven
        exact .C_NegateEven (Int.even_iff.2 heven) hrule
      · rename_i hodd
        exact .C_NegateOdd (Int.odd_iff.2 (Int.emod_two_ne_zero.1 hodd)) hrule
  | case8 k e hkept ih =>
      subst hkept
      exact .C_Sqrt rfl (ih h)
  | case9 => cases h
  | case10 => cases h
  | case11 => cases h

end Chain

/-! ## Entries of a chain -/

theorem Chain.among_mul {a b : Chain} {names : List String} (ha : ∀ p ∈ a.powers, p.1.Among names)
    (hb : ∀ p ∈ b.powers, p.1.Among names) : ∀ p ∈ (a.mul b).powers, p.1.Among names :=
  Tally.forall_entry_addAll (P := fun (b : Base) (_ : ℚ) => b.Among names) (fun _ _ _ h _ => h) hb ha

namespace Collects

variable {treatment : Treatment} {k : ℚ} {e : Expr} {c : Chain}

/-- Every base is a variable of the expression or a whole number above one. -/
theorem among (h : Collects treatment k e c) : ∀ p ∈ c.powers, p.1.Among e.names := by
  induction h with
  | C_One | C_Number => nofun
  | C_Integer _ hn => exact List.forall_mem_singleton.2 hn
  | C_Letter => exact List.forall_mem_singleton.2 (List.mem_singleton_self _)
  | C_Group _ ih | C_Power _ ih | C_NegateEven _ _ ih | C_Sqrt _ _ ih => exact ih
  | C_Mul _ _ iha ihb | C_Div _ _ iha ihb =>
      exact Chain.among_mul (fun p hp => (iha p hp).mono (List.subset_append_left ..))
        fun p hp => (ihb p hp).mono (List.subset_append_right ..)
  | C_NegateOdd _ _ ih => exact Chain.among_mul (fun _ hp => nomatch hp) ih

/-- The bases stand in ascending order. -/
theorem ascending (h : Collects treatment k e c) : c.powers.Ascending := by
  induction h with
  | C_One | C_Number => exact .nil
  | C_Integer | C_Letter => exact List.pairwise_singleton _ _
  | C_Group _ ih | C_Power _ ih | C_NegateEven _ _ ih | C_Sqrt _ _ ih => exact ih
  | C_Mul _ _ iha _ | C_Div _ _ iha _ => exact iha.addAll _
  | C_NegateOdd => exact Tally.Ascending.addAll .nil _

/-- Where numbers are multiplied into the coefficient, all bases are variables. -/
theorem letters (h : Collects .folded k e c) :
    ∀ p ∈ c.powers, ∃ name, p.1 = .letter name := by
  have hadd {es : List (Base × ℚ)} {t : Tally Base ℚ} (hes : ∀ p ∈ es, ∃ name, p.1 = .letter name)
      (ht : ∀ p ∈ t, ∃ name, p.1 = .letter name) : ∀ p ∈ Tally.addAll es t, ∃ name, p.1 = .letter name :=
    Tally.forall_entry_addAll (P := fun (b : Base) (_ : ℚ) => ∃ name, b = .letter name) (fun _ _ _ hk _ => hk) hes ht
  induction h with
  | C_One | C_Number => nofun
  | C_Integer hkept | C_Sqrt hkept => cases hkept
  | C_Letter => exact List.forall_mem_singleton.2 ⟨_, rfl⟩
  | C_Group _ ih | C_Power _ ih | C_NegateEven _ _ ih => exact ih
  | C_Mul _ _ iha ihb | C_Div _ _ iha ihb => exact hadd ihb iha
  | C_NegateOdd _ _ ih => exact hadd ih nofun

end Collects

end ExactAlgebra.Indices
