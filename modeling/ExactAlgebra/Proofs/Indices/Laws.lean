import ExactAlgebra.Proofs.Expr.Value
import ExactAlgebra.Proofs.Indices.Collect

/-!
# The laws of indices

An expression raised to an exponent has the value of the chain that it is collected to. This holds for every way of
raising numbers to exponents that obeys the laws of indices. There are two of them: integer powers of any numbers,
and real powers of magnitudes.
-/

namespace ExactAlgebra.Indices

/-- What the laws of indices need of a way to raise numbers to the exponents that it admits. -/
structure Laws (K : Type) [Field K] where
  raise : ℚ → ℚ → K
  Admits : ℚ → Prop
  admits_one : Admits 1
  admits_neg : ∀ k, Admits k → Admits (-k)
  admits_add : ∀ k l, Admits k → Admits l → Admits (k + l)
  admits_mul : ∀ k (n : ℤ), Admits k → Admits (k * n)
  raise_zero : ∀ v, raise v 0 = 1
  raise_one_eq_zero : ∀ v, raise v 1 = 0 ↔ v = 0
  raise_neg : ∀ v k, raise v (-k) = (raise v k)⁻¹
  raise_mul : ∀ v w k, raise (v * w) k = raise v k * raise w k
  raise_add : ∀ v k l, v ≠ 0 → Admits k → Admits l → raise v (k + l) = raise v k * raise v l
  raise_zpow : ∀ v (n : ℤ) k, Admits k → raise (v ^ n) k = raise v (k * n)

namespace Laws

/-- Integer powers of rational numbers. -/
def integral : Laws ℚ where
  raise v k := v ^ k.num
  Admits k := ∃ n : ℤ, k = n
  admits_one := ⟨1, Int.cast_one.symm⟩
  admits_neg := by
    rintro _ ⟨n, rfl⟩
    exact ⟨-n, (Int.cast_neg n).symm⟩
  admits_add := by
    rintro _ _ ⟨m, rfl⟩ ⟨n, rfl⟩
    exact ⟨m + n, (Int.cast_add m n).symm⟩
  admits_mul := by
    rintro _ n ⟨m, rfl⟩
    exact ⟨m * n, (Int.cast_mul m n).symm⟩
  raise_zero v := zpow_zero v
  raise_one_eq_zero v := by rw [Rat.num_one, zpow_one]
  raise_neg v k := by rw [Rat.num_neg_eq_neg_num, zpow_neg]
  raise_mul v w k := mul_zpow v w k.num
  raise_add := by
    rintro v _ _ hv ⟨m, rfl⟩ ⟨n, rfl⟩
    rw [← Int.cast_add, Rat.num_intCast, Rat.num_intCast, Rat.num_intCast, zpow_add₀ hv]
  raise_zpow := by
    rintro v n _ ⟨m, rfl⟩
    rw [← Int.cast_mul, Rat.num_intCast, Rat.num_intCast, ← zpow_mul, mul_comm]

/-- Real powers of magnitudes. -/
noncomputable def magnitude : Laws ℝ where
  raise v k := |(v : ℝ)| ^ (k : ℝ)
  Admits _ := True
  admits_one := trivial
  admits_neg _ _ := trivial
  admits_add _ _ _ _ := trivial
  admits_mul _ _ _ := trivial
  raise_zero v := by rw [Rat.cast_zero, Real.rpow_zero]
  raise_one_eq_zero v := by rw [Rat.cast_one, Real.rpow_one, abs_eq_zero, Rat.cast_eq_zero]
  raise_neg v k := by rw [Rat.cast_neg, Real.rpow_neg (abs_nonneg _)]
  raise_mul v w k := by rw [Rat.cast_mul, abs_mul, Real.mul_rpow (abs_nonneg _) (abs_nonneg _)]
  raise_add v k l hv _ _ := by
    rw [Rat.cast_add, Real.rpow_add (abs_pos.2 (Rat.cast_ne_zero.2 hv))]
  raise_zpow v n k _ := by
    rw [Rat.cast_zpow, abs_zpow, Rat.cast_mul, Rat.cast_intCast, ← Real.rpow_intCast,
      ← Real.rpow_mul (abs_nonneg _), mul_comm]

variable {K : Type} [Field K] (L : Laws K)

/-- Exponents may be halved where roots are allowed. -/
def AdmitsRoots (treatment : Treatment) : Prop := treatment = .kept → ∀ k, L.Admits k → L.Admits (k / 2)

theorem integral_admitsRoots : integral.AdmitsRoots .folded := nofun

theorem magnitude_admitsRoots : magnitude.AdmitsRoots .kept := fun _ _ _ => trivial

theorem raise_one_left {k : ℚ} (hk : L.Admits k) : L.raise 1 k = 1 := by
  have h := L.raise_zpow 1 0 k hk
  rwa [zpow_zero, Int.cast_zero, mul_zero, L.raise_zero] at h

theorem raise_div (v w : ℚ) {k : ℚ} (hk : L.Admits k) :
    L.raise (v / w) k = L.raise v k * L.raise w (-k) := by
  rw [div_eq_mul_inv, L.raise_mul, ← zpow_neg_one w, L.raise_zpow w _ k hk, Int.cast_neg, Int.cast_one,
    mul_neg_one]

theorem raise_intCast (v : ℚ) (n : ℤ) : L.raise v n = L.raise (v ^ n) 1 := by
  rw [L.raise_zpow v n 1 L.admits_one, one_mul]

theorem raise_square (r : ℚ) {k : ℚ} (hk : L.Admits k) : L.raise (r * r) k = L.raise r (k * 2) := by
  have h := L.raise_zpow r 2 k hk
  rwa [zpow_two] at h

/-- A sign comes out as a sign by itself. -/
theorem raise_neg_left (v : ℚ) (n : ℤ) : L.raise (-v) n = L.raise ((-1) ^ n) 1 * L.raise v n := by
  rw [neg_eq_neg_one_mul, L.raise_mul, L.raise_intCast (-1)]

end Laws

/-! ## Reading chains -/

section Reading

variable {K : Type} [Field K] {L : Laws K} {ρ : String → ℚ}

/-- The product of the powers of bases. -/
def readPowers (L : Laws K) (ρ : String → ℚ) (ps : List (Base × ℚ)) : K :=
  (ps.map fun p => L.raise (p.1.value ρ) p.2).prod

/-- The value of a chain. -/
def Chain.read (L : Laws K) (ρ : String → ℚ) (c : Chain) : K :=
  L.raise c.coefficient 1 * readPowers L ρ c.powers

@[simp] theorem readPowers_nil : readPowers L ρ [] = 1 := rfl

@[simp] theorem readPowers_cons (p : Base × ℚ) (ps : List (Base × ℚ)) :
    readPowers L ρ (p :: ps) = L.raise (p.1.value ρ) p.2 * readPowers L ρ ps := rfl

/-- The laws of indices hold for all powers of the chain. -/
def Chain.Supported (L : Laws K) (ρ : String → ℚ) (c : Chain) : Prop :=
  ∀ p ∈ c.powers, p.1.value ρ ≠ 0 ∧ L.Admits p.2

theorem Chain.read_ofNumber (q : ℚ) : (ofNumber q).read L ρ = L.raise q 1 := by simp [read, ofNumber]

theorem Chain.read_ofPower (b : Base) (k : ℚ) : (ofPower b k).read L ρ = L.raise (b.value ρ) k := by
  simp [read, ofPower, L.raise_one_left L.admits_one]

theorem Chain.read_mul {a b : Chain} (ha : a.Supported L ρ) (hb : b.Supported L ρ) :
    (a.mul b).read L ρ = a.read L ρ * b.read L ρ := by
  have hprod := Tally.prod_addAll (P := fun (b : Base) k => b.value ρ ≠ 0 ∧ L.Admits k)
    (f := fun b k => L.raise (b.value ρ) k) (fun _ _ _ hk hl => ⟨hk.1, L.admits_add _ _ hk.2 hl.2⟩)
    (fun _ _ _ hk hl => L.raise_add _ _ _ hk.1 hk.2 hl.2) hb ha
  simp only [read, readPowers, mul, L.raise_mul, hprod]
  ring

theorem Base.Among.value_ne_zero {names : List String} {b : Base} (hρ : ∀ name ∈ names, ρ name ≠ 0)
    (h : b.Among names) : b.value ρ ≠ 0 := by
  cases b with
  | integer n => exact Nat.cast_ne_zero.2 (Nat.ne_zero_of_lt h)
  | letter name => exact hρ name h

namespace Collects

variable {treatment : Treatment} {k : ℚ} {e : Expr} {c : Chain}

theorem admits (h : Collects treatment k e c) (hroots : L.AdmitsRoots treatment) (hk : L.Admits k) :
    ∀ p ∈ c.powers, L.Admits p.2 := by
  induction h with
  | C_One | C_Number => nofun
  | C_Integer | C_Letter => exact List.forall_mem_singleton.2 hk
  | C_Group _ ih | C_NegateEven _ _ ih => exact ih hk
  | C_Mul _ _ iha ihb => exact Tally.forall_amount_addAll L.admits_add (ihb hk) (iha hk)
  | C_Div _ _ iha ihb => exact Tally.forall_amount_addAll L.admits_add (ihb (L.admits_neg _ hk)) (iha hk)
  | C_Power _ ih => exact ih (L.admits_mul _ _ hk)
  | C_NegateOdd _ _ ih => exact Tally.forall_amount_addAll L.admits_add (ih hk) nofun
  | C_Sqrt hkept _ ih => exact ih (hroots hkept _ hk)

theorem supported (h : Collects treatment k e c) (hroots : L.AdmitsRoots treatment) (hk : L.Admits k)
    (hρ : ∀ name ∈ e.names, ρ name ≠ 0) : c.Supported L ρ := fun p hp =>
  ⟨(h.among p hp).value_ne_zero hρ, h.admits hroots hk p hp⟩

/-- The power of an expression is read off its chain. -/
theorem read (h : Collects treatment k e c) (hroots : L.AdmitsRoots treatment) (hk : L.Admits k)
    (hρ : ∀ name ∈ e.names, ρ name ≠ 0) {v : ℚ} (hv : e.HasValue ρ v) : L.raise v k = c.read L ρ := by
  induction h generalizing v with
  | C_One =>
      cases hv
      rw [L.raise_one_left hk, Chain.read_ofNumber, L.raise_one_left L.admits_one]
  | C_Number =>
      cases hv
      rw [Chain.read_ofNumber, L.raise_intCast]
  | C_Integer | C_Letter =>
      cases hv
      rw [Chain.read_ofPower, Base.value]
  | C_Group _ ih =>
      cases hv with
      | V_Group hv => exact ih hk hρ hv
  | C_Mul hl hr ihl ihr =>
      have ⟨hρl, hρr⟩ := List.forall_mem_append.1 hρ
      cases hv with
      | V_Mul hvl hvr =>
          rw [L.raise_mul, ihl hk hρl hvl, ihr hk hρr hvr,
            Chain.read_mul (hl.supported hroots hk hρl) (hr.supported hroots hk hρr)]
  | C_Div hl hr ihl ihr =>
      have ⟨hρl, hρr⟩ := List.forall_mem_append.1 hρ
      have hk' := L.admits_neg _ hk
      cases hv with
      | V_Div hvl hvr _ =>
          rw [L.raise_div _ _ hk, ihl hk hρl hvl, ihr hk' hρr hvr,
            Chain.read_mul (hl.supported hroots hk hρl) (hr.supported hroots hk' hρr)]
  | C_Power _ ih =>
      cases hv with
      | V_Power hv _ => rw [L.raise_zpow _ _ _ hk, ih (L.admits_mul _ _ hk) hρ hv]
  | C_NegateEven heven _ ih =>
      cases hv with
      | V_Negate hv =>
          rw [L.raise_neg_left, heven.neg_one_zpow, L.raise_one_left L.admits_one, one_mul, ih hk hρ hv]
  | C_NegateOdd hodd h ih =>
      have hsign : (Chain.ofNumber (-1)).Supported L ρ := fun _ hp => nomatch hp
      cases hv with
      | V_Negate hv =>
          rw [L.raise_neg_left, hodd.neg_one_zpow, ih hk hρ hv, ← Chain.read_ofNumber (ρ := ρ),
            Chain.read_mul hsign (h.supported hroots hk hρ)]
  | C_Sqrt hkept _ ih =>
      have hk' := hroots hkept _ hk
      cases hv with
      | V_Sqrt hv _ hrv =>
          rw [← ih hk' hρ hv, ← hrv, L.raise_square _ hk', div_mul_cancel₀ _ two_ne_zero]

end Collects

end Reading

end ExactAlgebra.Indices
