import ExactAlgebra.Profile.Shape
import ExactAlgebra.Proofs.Indices.Written
import ExactAlgebra.Transformation

/-!
# Bases of chains

Where whole numbers are kept as bases, the bases of a chain are those that occur in its expression. Their written forms
are all different, so there are as many of them as the expression seems to have without a chain.
-/

namespace ExactAlgebra

namespace Indices

/-- The bases that occur in an expression, from left to right. -/
def occurrences : Expr → List Base
  | .num q => if isIntegerBase q then [.integer q.num.toNat] else []
  | .var name => [.letter name]
  | .binary _ l r => occurrences l ++ occurrences r
  | .power e _ => occurrences e
  | .negate e => occurrences e
  | .group e => occurrences e
  | .sqrt e => occurrences e

variable {limits : Limits} {treatment : Treatment} {k : ℚ} {e : Expr} {c : Chain} {b : Base}

/-! ## Written forms -/

theorem latex_integerBase {q : ℚ} (h : isIntegerBase q) :
    Markup.rational q = (Base.integer q.num.toNat).latex := by
  obtain ⟨hden, hnum⟩ : q.den = 1 ∧ 1 < q.num := by simpa [isIntegerBase] using h
  rw [Markup.rational, if_pos hden, Markup.integer, if_neg (by omega), String.empty_append, Base.latex,
    show q.num.natAbs = q.num.toNat by omega]

theorem baseOccurrences_eq (e : Expr) : Profile.baseOccurrences e = (occurrences e).map Base.latex := by
  induction e with
  | num q =>
      rw [Profile.baseOccurrences, occurrences, ← isIntegerBase]
      split
      · rename_i hbase
        rw [latex_integerBase hbase]
        rfl
      · rfl
  | var name => rfl
  | binary op l r ihl ihr => rw [Profile.baseOccurrences, occurrences, List.map_append, ihl, ihr]
  | power e n ih | negate e ih | group e ih | sqrt e ih => exact ih

/-- The name has no digit in it. -/
def HasNoDigit (name : String) : Prop := ∀ c ∈ name.toList, ¬ c.isDigit

theorem hasNoDigit_of_isLetter {name : String} (h : IsLetter name) : HasNoDigit name := by
  obtain ⟨c, hc, rfl⟩ := h
  rw [HasNoDigit, String.toList_singleton, List.forall_mem_singleton, Text.isDigit_of_isAlpha hc]
  exact Bool.false_ne_true

/-- The base is a number, or a variable with no digit in its name. -/
def Base.Plain : Base → Prop
  | integer _ => True
  | letter name => HasNoDigit name

theorem plain_of_mem_occurrences (hnames : ∀ name ∈ e.names, HasNoDigit name) : ∀ b ∈ occurrences e, b.Plain := by
  induction e with
  | num q =>
      rw [occurrences]
      split
      · exact List.forall_mem_singleton.2 trivial
      · nofun
  | var name => exact List.forall_mem_singleton.2 (hnames name (List.mem_singleton_self name))
  | binary op l r ihl ihr =>
      have ⟨hl, hr⟩ := List.forall_mem_append.1 hnames
      exact List.forall_mem_append.2 ⟨ihl hl, ihr hr⟩
  | power e n ih | negate e ih | group e ih | sqrt e ih => exact ih hnames

theorem natural_injective {m n : ℕ} (h : Markup.natural m = Markup.natural n) : m = n := by
  have hdigits : Nat.toDigits 10 m = Nat.toDigits 10 n := by
    rw [← Nat.toList_repr, ← Nat.toList_repr]
    exact congrArg String.toList h
  rw [← Text.natural_toDigits m, hdigits, Text.natural_toDigits]

theorem not_hasNoDigit_natural (n : ℕ) : ¬ HasNoDigit (Markup.natural n) := by
  obtain ⟨a, as, has, ha⟩ := Markup.natural_begins n
  intro h
  exact h a (has ▸ List.mem_cons_self) ha

/-- A base is known from its written form, because no variable is written like a number. -/
theorem Base.eq_of_latex_eq {a b : Base} (ha : a.Plain) (hb : b.Plain) (h : a.latex = b.latex) : a = b := by
  cases a with
  | integer m =>
      cases b with
      | integer n => exact congrArg integer (natural_injective h)
      | letter name =>
          obtain rfl : Markup.natural m = name := h
          exact absurd hb (not_hasNoDigit_natural m)
  | letter name =>
      cases b with
      | integer n =>
          obtain rfl : name = Markup.natural n := h
          exact absurd ha (not_hasNoDigit_natural n)
      | letter name' => exact congrArg letter h

/-! ## Collected bases -/

theorem bases_numberPower {q : ℚ} (h : numberPower limits .kept q k = .ok c) : c.bases = occurrences (.num q) := by
  unfold numberPower at h
  rw [occurrences]
  split at h
  · rename_i hone
    cases h
    subst hone
    rfl
  · split at h
    · rename_i hbase
      cases h
      rw [if_pos (by simpa using hbase)]
      rfl
    · rename_i hbase
      obtain ⟨_, -, h⟩ := Outcome.bind_eq_ok.1 h
      obtain ⟨_, -, h⟩ := Outcome.bind_eq_ok.1 h
      cases h
      rw [if_neg (by simpa using hbase)]
      rfl

theorem Chain.mem_bases_mul_iff {a b : Chain} {base : Base} :
    base ∈ (a.mul b).bases ↔ base ∈ a.bases ∨ base ∈ b.bases := by
  rw [bases, mul, Tally.mem_keys_addAll_iff]
  exact or_comm

theorem mem_bases_iff (h : chain limits .kept k e = .ok c) : b ∈ c.bases ↔ b ∈ occurrences e := by
  generalize ht : Treatment.kept = treatment at h
  fun_induction chain limits treatment k e generalizing c with
  | case1 k q =>
      subst ht
      rw [bases_numberPower h]
  | case2 k name =>
      cases h
      rfl
  | case3 k e ih | case6 k e n ih => exact ih h
  | case4 k l r ihl ihr | case5 k l r ihl ihr =>
      obtain ⟨a, ha, h⟩ := Outcome.bind_eq_ok.1 h
      obtain ⟨b, hb, h⟩ := Outcome.bind_eq_ok.1 h
      cases h
      rw [Chain.mem_bases_mul_iff, ihl ha, ihr hb, occurrences, List.mem_append]
  | case7 k e ih =>
      obtain ⟨n, -, h⟩ := Outcome.bind_eq_ok.1 h
      obtain ⟨a, ha, h⟩ := Outcome.bind_eq_ok.1 h
      cases h
      rw [occurrences, ← ih ha]
      split
      · rfl
      · rw [Chain.mem_bases_mul_iff]
        exact or_iff_right List.not_mem_nil
  | case8 k e hkept ih =>
      subst hkept
      exact ih h
  | case9 => cases h
  | case10 => cases h
  | case11 => cases h

/-- The bases of the chain are written as those that the expression is said to have, each of them once. -/
theorem perm_indexBases (h : chain limits .kept k e = .ok c) (hnames : ∀ name ∈ e.names, HasNoDigit name) :
    (Profile.indexBases e).Perm (c.bases.map Base.latex) := by
  have hplain : ∀ b ∈ c.bases, b.Plain := fun b hb => plain_of_mem_occurrences hnames b ((mem_bases_iff h).1 hb)
  have hnodup : (c.bases.map Base.latex).Nodup :=
    List.Nodup.map_on (fun a ha b hb => Base.eq_of_latex_eq (hplain a ha) (hplain b hb))
      (chain_sound h).ascending.nodup_keys
  refine (List.perm_ext_iff_of_nodup (nodup_distinctNames _) hnodup).2 fun name => ?_
  rw [mem_distinctNames_iff, baseOccurrences_eq]
  simp only [List.mem_map, mem_bases_iff h]

/-- The chain has as many bases as the expression is said to have. -/
theorem length_indexBases (h : chain limits .kept k e = .ok c) (hnames : ∀ name ∈ e.names, HasNoDigit name) :
    (Profile.indexBases e).length = c.bases.length := by
  rw [(perm_indexBases h hnames).length_eq, List.length_map]

/-- The bases of a chain that is collected are written as those that are counted without collecting it. So a text is
refused as a single power for its bases just when more than one of them was counted. -/
theorem bases_eq_indexBases (h : chain limits .kept 1 e = .ok c) (hnames : ∀ name ∈ e.names, HasNoDigit name) :
    (∀ name, name ∈ Profile.indexBases e ↔ ∃ b ∈ c.bases, b.latex = name) ∧
      (Profile.indexBases e).length = c.bases.length ∧
      ∀ text, Expr.ofText limits text = .ok e →
        Transformation.simplifyOneTerm limits text =
          if 1 < (Profile.indexBases e).length then .error Treatment.kept.notApplicable else .ok c.latex := by
  refine ⟨fun name => ?_, length_indexBases h hnames, fun text he => ?_⟩
  · rw [(perm_indexBases h hnames).mem_iff, List.mem_map]
  · rw [Transformation.simplifyOneTerm, he, Outcome.ok_bind, h, Outcome.ok_bind, length_indexBases h hnames,
      Outcome.pure_eq_ok]

theorem bases_eq_indexBases_cancelled :
    ∃ e c, Expr.ofText {} "\\sqrt\x7bx\x7d\\times2^0\\div12".toList = .ok e ∧ chain {} .kept 1 e = .ok c ∧
      (∀ name ∈ e.names, HasNoDigit name) ∧ c.bases = [.integer 2, .integer 12, .letter "x"] ∧
      "2" ∈ Profile.indexBases e ∧ (Profile.indexBases e).length = 3 ∧
      Transformation.simplifyOneTerm {} "\\sqrt\x7bx\x7d\\times2^0\\div12".toList =
        .error (.notApplicable .simplifyOneTerm) := by
  have he : Expr.ofText {} "\\sqrt\x7bx\x7d\\times2^0\\div12".toList =
      .ok (.binary .div (.binary .mul (.sqrt (.var "x")) (.power (.num 2) 0)) (.num 12)) := by cbv
  have hchain : chain {} .kept 1 (.binary .div (.binary .mul (.sqrt (.var "x")) (.power (.num 2) 0)) (.num 12)) =
      .ok ⟨1, [(.integer 2, 0), (.integer 12, -1), (.letter "x", 1 / 2)]⟩ := by cbv
  have hnames : ∀ name ∈ ["x"], HasNoDigit name :=
    List.forall_mem_singleton.2 (hasNoDigit_of_isLetter ⟨'x', rfl, rfl⟩)
  obtain ⟨hmem, hlength, hanswer⟩ := bases_eq_indexBases hchain hnames
  have htwo := (hmem "2").2 ⟨.integer 2, List.mem_cons_self, rfl⟩
  refine ⟨_, _, he, hchain, hnames, rfl, htwo, hlength, ?_⟩
  rw [hanswer _ he, hlength]
  rfl

end Indices

end ExactAlgebra
