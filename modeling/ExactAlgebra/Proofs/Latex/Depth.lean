import ExactAlgebra.Proofs.Expr.Paths
import ExactAlgebra.Proofs.Latex.Parsing

/-!
# Depth of parsed expressions

The levels that a parse may use bound the tree. The whole expression uses up one level, and so does each pair of
parentheses, each minus sign and each root in it. A power uses up none; but only an atom can be raised to one, and a
power that stands inside an atom stands a level deeper.
-/

namespace ExactAlgebra

namespace Expr

/-- The node is a pair of parentheses, a minus sign or a root. -/
def isNested : Expr → Bool
  | group _ | negate _ | sqrt _ => true
  | _ => false

def isPower : Expr → Bool
  | power _ _ => true
  | _ => false

/-- Bounds on how many nested nodes and how many powers stand on one path of the tree. -/
structure Within (nested powers : Nat) (e : Expr) : Prop where
  nested : e.deepest isNested ≤ nested
  powers : e.deepest isPower ≤ powers

variable {m n m' n' : Nat} {a b e : Expr}

theorem within_num (value : Rat) : (num value).Within m n := ⟨Nat.zero_le m, Nat.zero_le n⟩

theorem within_var (name : String) : (var name).Within m n := ⟨Nat.zero_le m, Nat.zero_le n⟩

namespace Within

theorem mono (h : a.Within m n) (hm : m ≤ m') (hn : n ≤ n') : a.Within m' n' :=
  ⟨h.nested.trans hm, h.powers.trans hn⟩

theorem binary (op : Operator) (ha : a.Within m n) (hb : b.Within m n) : (binary op a b).Within m n := by
  constructor <;> simp only [deepest, isNested, isPower, Bool.false_eq_true, if_false, Nat.zero_add]
  · exact Nat.max_le.2 ⟨ha.nested, hb.nested⟩
  · exact Nat.max_le.2 ⟨ha.powers, hb.powers⟩

theorem power (k : Int) (h : a.Within m n) : (power a k).Within m (n + 1) := by
  obtain ⟨hnested, hpowers⟩ := h
  constructor <;> simp only [deepest, isNested, isPower] <;> grind

theorem around (h : a.Within m n) (he : e ∈ [group a, negate a, sqrt a]) : e.Within (m + 1) n := by
  obtain ⟨hnested, hpowers⟩ := h
  simp only [List.mem_cons, List.not_mem_nil, or_false] at he
  rcases he with rfl | rfl | rfl <;> constructor <;> simp only [deepest, isNested, isPower] <;> grind

end Within

end Expr

namespace Latex

/-- How many powers may stand on a path of what is derived with `d` levels left. -/
def Nonterminal.powers (d : Nat) : Nonterminal → Nat
  | atom => d
  | _ => d + 1

/-- What a sum or a product goes on from is as deep as may be derived with `d` levels left. -/
def Nonterminal.GoesOnWithin (d : Nat) : Nonterminal → Prop
  | summands left | factors left => left.Within d (d + 1)
  | _ => True

variable {d : Nat} {nt : Nonterminal} {ts next : List Token} {e : Expr}

theorem FractionValue.within {ns ds : List Token} {a b : Expr} {m n : Nat} (h : FractionValue ns a ds b e)
    (ha : a.Within m n) (hb : b.Within m n) : e.Within m n := by
  cases h with
  | F_Number => exact Expr.within_num _
  | F_Denominator | F_Quotient => exact ha.binary .div hb

/-- What is derived with `d` levels left is no deeper. -/
theorem Derives.within (h : Derives d nt ts next e) (hleft : nt.GoesOnWithin d) : e.Within d (nt.powers d) := by
  induction h with
  | S_First _ _ iha ihe | T_First _ _ iha ihe => exact ihe (iha trivial)
  | S_End | T_End => exact hleft
  | S_Plus _ _ ihb ihe | S_Minus _ _ ihb ihe | T_Times _ _ ihb ihe | T_Divide _ _ ihb ihe | T_Beside _ _ _ ihb ihe =>
      exact ihe (hleft.binary _ (ihb trivial))
  | U_Minus _ iha => exact ((iha trivial).around (by simp)).mono (Nat.le_refl _) (Nat.le_succ _)
  | U_Plus _ iha => exact (iha trivial).mono (Nat.le_succ _) (Nat.le_succ _)
  | U_Power _ iha => exact iha trivial
  | P_Atom _ iha => exact (iha trivial).mono (Nat.le_refl _) (Nat.le_succ _)
  | P_Raised _ _ iha => exact (iha trivial).power _
  | A_Number | A_Mixed => exact Expr.within_num _
  | A_Letter => exact Expr.within_var _
  -- what stands inside has one level fewer, so its powers are no more than an atom may have
  | A_Paren _ iha | A_Sqrt _ iha => exact (iha trivial).around (by simp)
  | A_Brace _ iha => exact (iha trivial).mono (Nat.le_succ _) (Nat.le_refl _)
  | A_Frac _ _ hv iha ihb => exact (hv.within (iha trivial) (ihb trivial)).mono (Nat.le_succ _) (Nat.le_refl _)

/-- On a path from the root to a leaf of a parsed tree stand fewer parentheses, minus signs and roots together than the
parse has levels, and no more powers than it has levels. -/
theorem paths_of_parse {limit : Nat} {text : List Char} (h : parse limit text = .ok e) :
    ∀ path ∈ e.paths, path.countP Expr.isNested ≤ limit - 1 ∧ path.countP Expr.isPower ≤ limit := by
  obtain ⟨ts, d, -, rfl, hderives⟩ := parse_eq_ok_iff.1 h
  have hwithin : e.Within d (d + 1) := hderives.within trivial
  exact fun path hpath =>
    ⟨(Expr.countP_le_deepest hpath).trans hwithin.nested, (Expr.countP_le_deepest hpath).trans hwithin.powers⟩

theorem paths_of_parse_square :
    ∃ e, parse 3 "-(x^\x7b2\x7d)^\x7b3\x7d".toList = .ok e ∧
      ∃ path ∈ e.paths, path.countP Expr.isNested = 2 ∧ path.countP Expr.isPower = 2 ∧
        path.countP Expr.isNested ≤ 3 - 1 ∧ path.countP Expr.isPower ≤ 3 := by
  have hparse : parse 3 "-(x^\x7b2\x7d)^\x7b3\x7d".toList =
      .ok (.negate (.power (.group (.power (.var "x") 2)) 3)) := by cbv
  exact ⟨_, hparse, _, List.mem_singleton_self _, by decide, by decide,
    paths_of_parse hparse _ (List.mem_singleton_self _)⟩

end Latex

end ExactAlgebra
