import ExactAlgebra.Proofs.Polynomial.Leading
import ExactAlgebra.Proofs.Polynomial.Names
import ExactAlgebra.Proofs.Profile.Report
import Mathlib

/-!
# Variables in reports

The variables that a report lists are those on which the value of the expression depends: a variable that cancels is
not listed, and one that is left can be changed so that the value changes.
-/

namespace ExactAlgebra

variable {ρ ρ' : String → ℚ} {name : String}

/-! ## Ring elements -/

/-- The assignments differ at most in the value of one variable. -/
def AgreeExcept (name : String) (ρ ρ' : String → ℚ) : Prop := ∀ other, other ≠ name → ρ other = ρ' other

namespace Polynomial

variable {f : MvPolynomial String ℚ}

/-- A ring element has the same value at assignments that agree on its variables. -/
theorem eval_congr_vars (h : ∀ name ∈ f.vars, ρ name = ρ' name) : MvPolynomial.eval ρ f = MvPolynomial.eval ρ' f :=
  MvPolynomial.hom_congr_vars (by ext; simp) (fun name hname _ => by simp [h name hname]) rfl

/-- The ring element with zero in the place of one variable. -/
noncomputable def zeroed (name : String) (f : MvPolynomial String ℚ) : MvPolynomial String ℚ :=
  MvPolynomial.bind₁ (fun other => if other = name then 0 else MvPolynomial.X other) f

theorem eval_zeroed (ρ : String → ℚ) (name : String) (f : MvPolynomial String ℚ) :
    MvPolynomial.eval ρ (zeroed name f) = MvPolynomial.eval (fun other => if other = name then 0 else ρ other) f := by
  rw [zeroed, MvPolynomial.eval, MvPolynomial.eval₂Hom_bind₁]
  refine congrArg (fun value => MvPolynomial.eval₂Hom (RingHom.id ℚ) value f) (funext fun other => ?_)
  split <;> simp

theorem notMem_vars_zeroed (name : String) (f : MvPolynomial String ℚ) : name ∉ (zeroed name f).vars := by
  intro hname
  obtain ⟨other, _, hother⟩ := MvPolynomial.mem_vars_bind₁ _ _ hname
  split at hother
  · simp at hother
  · rename_i hne
    rw [MvPolynomial.vars_X, Finset.mem_singleton] at hother
    exact hne hother.symm

/-- A ring element has a variable just when changing that variable alone can change the value. -/
theorem mem_vars_iff_exists_eval_ne :
    name ∈ f.vars ↔ ∃ ρ ρ', AgreeExcept name ρ ρ' ∧ MvPolynomial.eval ρ f ≠ MvPolynomial.eval ρ' f := by
  constructor
  · intro hname
    by_contra hsame
    -- otherwise zero could stand for the variable, which would be one no longer
    have hzeroed : zeroed name f = f := by
      refine MvPolynomial.funext fun ρ => ?_
      rw [eval_zeroed]
      by_contra hne
      exact hsame ⟨_, ρ, fun other hother => if_neg hother, hne⟩
    have hgone := notMem_vars_zeroed name f
    rw [hzeroed] at hgone
    exact hgone hname
  · rintro ⟨ρ, ρ', hagree, hne⟩
    by_contra hname
    refine hne (eval_congr_vars fun other hother => hagree other ?_)
    rintro rfl
    exact hname hother

/-- The value of a ring element is the same everywhere just when it has no variables. -/
theorem vars_eq_empty_iff_eval : f.vars = ∅ ↔ ∃ v, ∀ ρ, MvPolynomial.eval ρ f = v := by
  constructor
  · intro hvars
    refine ⟨MvPolynomial.eval 0 f, fun ρ => eval_congr_vars ?_⟩
    rw [hvars]
    nofun
  · rintro ⟨v, hv⟩
    rw [Finset.eq_empty_iff_forall_notMem]
    intro name hname
    obtain ⟨ρ, ρ', -, hne⟩ := mem_vars_iff_exists_eval_ne.1 hname
    exact hne ((hv ρ).trans (hv ρ').symm)

/-! ## Polynomials -/

variable {p : Polynomial}

/-- The names of a canonical polynomial are the variables of what it denotes. -/
theorem Canonical.mem_names_iff (hp : p.Canonical) : name ∈ p.names ↔ name ∈ p.toRing.vars := by
  rw [names, mem_distinctNames_iff, List.mem_flatMap]
  constructor
  · rintro ⟨t, ht, hname⟩
    obtain ⟨f, hf, rfl⟩ := List.mem_map.1 hname
    exact hp.mem_of_supported (MvPolynomial.mem_supported_vars _) t ht f hf
  · intro hname
    obtain ⟨e, he, hexponent⟩ := (MvPolynomial.mem_vars_iff_mem_support name).1 hname
    obtain ⟨t, ht, rfl⟩ := Term.exists_mem_of_coeff_ne_zero (MvPolynomial.mem_support_iff.1 he)
    refine ⟨t, ht, List.mem_map.2 ⟨(name, t.monomial.exponents name), ?_, rfl⟩⟩
    exact Monomial.mem_factors_iff.2 ⟨rfl, Finsupp.mem_support_iff.1 hexponent⟩

theorem Canonical.names_eq_nil_iff (hp : p.Canonical) : p.names = [] ↔ p.toRing.vars = ∅ := by
  rw [List.eq_nil_iff_forall_not_mem, Finset.eq_empty_iff_forall_notMem]
  exact forall_congr' fun name => not_congr hp.mem_names_iff

end Polynomial

/-! ## Expressions -/

namespace Expr

variable {limits : Limits} {e : Expr} {p : Polynomial}

/-- Changing the value of one variable alone changes the exact value of the expression. -/
def DependsOn (e : Expr) (name : String) : Prop :=
  ∃ ρ ρ' v v', AgreeExcept name ρ ρ' ∧ e.HasValue ρ v ∧ e.HasValue ρ' v' ∧ v ≠ v'

theorem dependsOn_iff_mem_names (h : e.expand limits = .ok p) : e.DependsOn name ↔ name ∈ p.names := by
  rw [(canonical_of_expand h).mem_names_iff, Polynomial.mem_vars_iff_exists_eval_ne]
  simp only [Polynomial.eval_toRing]
  constructor
  · rintro ⟨ρ, ρ', v, v', hagree, hv, hv', hne⟩
    rw [hv.unique (hasValue_of_expand h), hv'.unique (hasValue_of_expand h)] at hne
    exact ⟨ρ, ρ', hagree, hne⟩
  · rintro ⟨ρ, ρ', hagree, hne⟩
    exact ⟨ρ, ρ', _, _, hagree, hasValue_of_expand h, hasValue_of_expand h, hne⟩

theorem exists_value_iff_names_eq_nil (h : e.expand limits = .ok p) :
    (∃ v, ∀ ρ, e.HasValue ρ v) ↔ p.names = [] := by
  rw [(canonical_of_expand h).names_eq_nil_iff, Polynomial.vars_eq_empty_iff_eval]
  refine exists_congr fun v => forall_congr' fun ρ => ?_
  rw [(hasValue_of_expand h).iff_eq, Polynomial.eval_toRing, eq_comm]

end Expr

/-! ## Reports -/

namespace Profile

variable {limits : Limits} {text : List Char}

theorem classify_constant_iff {e : Expr} {p : Polynomial} :
    classify text e p = .constant ∨ classify text e p = .numerical ↔ p.names = [] := by
  unfold classify
  cases hnames : p.names with
  | nil =>
      refine iff_of_true ?_ rfl
      split
      · rename_i hne
        cases hne
      · split
        · exact .inr rfl
        · exact .inl rfl
  | cons name names =>
      refine iff_of_false ?_ nofun
      split
      · split <;> nofun
      · rename_i hempty
        exact absurd rfl hempty

theorem Variables.mem_ofNames_iff {names : List String} : name ∈ (Variables.ofNames names).names ↔ name ∈ names :=
  mem_distinctNames_iff

namespace Report

/-- A report without an error lists the variables on which the exact value depends, each once and in ascending order. Its
kind is that of a constant just when the value is the same at all assignments. -/
theorem mem_names_iff_dependsOn (h : (ofText limits text).error = none) :
    ∃ e, Expr.ofText limits text = .ok e ∧
      (∀ name, name ∈ (ofText limits text).names ↔ e.DependsOn name) ∧
      (ofText limits text).names.Pairwise (· < ·) ∧
      (ofText limits text).vars.count = (ofText limits text).names.length ∧
      ((ofText limits text).kind = .constant ∨ (ofText limits text).kind = .numerical ↔ ∃ v, ∀ ρ, e.HasValue ρ v) := by
  obtain ⟨e, p, hread, hexpand⟩ := exists_expand_of_error_eq_none h
  rw [ofText_of_expanded hread hexpand]
  refine ⟨e, hread, fun name => ?_, ascending_distinctNames _, rfl, ?_⟩
  · rw [Expr.dependsOn_iff_mem_names hexpand]
    exact Variables.mem_ofNames_iff
  · rw [Expr.exists_value_iff_names_eq_nil hexpand]
    exact classify_constant_iff

/-- A variable that cancels is not listed. -/
theorem mem_names_iff_dependsOn_cancelled :
    ∃ e, Expr.ofText {} "xy-yx+z".toList = .ok e ∧ (ofText {} "xy-yx+z".toList).error = none ∧
      (ofText {} "xy-yx+z".toList).names = ["z"] ∧ e.DependsOn "z" ∧ ¬e.DependsOn "x" ∧
      ¬∃ v, ∀ ρ, e.HasValue ρ v := by
  have hread : Expr.ofText {} "xy-yx+z".toList = .ok (.binary .add (.binary .sub (.binary .mul (.var "x") (.var "y"))
      (.binary .mul (.var "y") (.var "x"))) (.var "z")) := by cbv
  have hexpand : (Expr.binary .add (.binary .sub (.binary .mul (.var "x") (.var "y"))
      (.binary .mul (.var "y") (.var "x"))) (.var "z")).expand {} = .ok ⟨[⟨1, .ofVariable "z"⟩]⟩ := by cbv
  have hreport := ofText_of_expanded hread hexpand
  have herror : (ofText {} "xy-yx+z".toList).error = none := by rw [hreport]; rfl
  have hnames : (ofText {} "xy-yx+z".toList).names = ["z"] := by rw [hreport]; rfl
  have hkind : (ofText {} "xy-yx+z".toList).kind = .monomial := by rw [hreport]; rfl
  obtain ⟨e, he, hlist, -, -, hconstant⟩ := mem_names_iff_dependsOn herror
  rw [hnames] at hlist
  rw [hkind] at hconstant
  exact ⟨e, he, herror, hnames, (hlist "z").1 (by decide), fun hx => absurd ((hlist "x").2 hx) (by decide),
    fun hvalue => by simpa using hconstant.2 hvalue⟩

end Report

end Profile

end ExactAlgebra
