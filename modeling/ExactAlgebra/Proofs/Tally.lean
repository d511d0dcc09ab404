import ExactAlgebra.Tally
import Mathlib.Algebra.Group.Nat.Defs
import Mathlib.Data.Finsupp.Single

/-!
# What a tally counts

The amount that a tally holds under a key. Adding raises one amount, and a tally without zero amounts is
determined by its amounts.
-/

namespace ExactAlgebra

namespace Tally

variable {κ ν : Type} [DecidableEq κ]

/-- The sum of what is listed under a key. -/
def amount [Add ν] [Zero ν] (t : Tally κ ν) (key : κ) : ν :=
  (t.map fun e => if e.1 = key then e.2 else 0).sum

variable [AddCommMonoid ν]

@[simp] theorem amount_nil (key : κ) : amount ([] : Tally κ ν) key = 0 := rfl

@[simp] theorem amount_cons (e : κ × ν) (t : Tally κ ν) (key : κ) :
    amount (e :: t) key = (if e.1 = key then e.2 else 0) + amount t key := rfl

theorem amount_add [Ord κ] [Std.LawfulEqOrd κ] (t : Tally κ ν) (k key : κ) (v : ν) :
    amount (t.add k v) key = (if k = key then v else 0) + amount t key := by
  induction t with
  | nil => simp [add]
  | cons e t ih =>
      obtain ⟨k', v'⟩ := e
      rw [add]
      split
      · rfl
      · rename_i heq
        obtain rfl := Std.compare_eq_iff_eq.1 heq
        rw [amount_cons, amount_cons, ← add_assoc]
        congr 1
        split
        · exact add_comm v' v
        · exact (zero_add 0).symm
      · rw [amount_cons, ih, amount_cons, add_left_comm]

theorem amount_addAll [Ord κ] [Std.LawfulEqOrd κ] (entries : List (κ × ν)) (t : Tally κ ν) (key : κ) :
    amount (addAll entries t) key = amount entries key + amount t key := by
  induction entries with
  | nil => simp [addAll]
  | cons e entries ih =>
      rw [addAll, List.foldr_cons, ← addAll, amount_add, ih, amount_cons, add_assoc]

theorem amount_eq_zero {t : Tally κ ν} {key : κ} (h : ∀ e ∈ t, e.1 ≠ key) : amount t key = 0 := by
  induction t with
  | nil => rfl
  | cons e t ih =>
      obtain ⟨hne, h⟩ := List.forall_mem_cons.1 h
      rw [amount_cons, if_neg hne, ih h, add_zero]

theorem amount_filter_ne_zero [DecidableEq ν] (t : Tally κ ν) (key : κ) :
    amount (t.filter fun e => e.2 ≠ 0) key = amount t key := by
  induction t with
  | nil => rfl
  | cons e t ih =>
      by_cases hzero : e.2 = 0
      · rw [List.filter_cons_of_neg (by simpa using hzero), ih, amount_cons, hzero, ite_self, zero_add]
      · rw [List.filter_cons_of_pos (by simpa using hzero), amount_cons, ih, amount_cons]

/-! ## Entries -/

section Entries

variable [Ord κ] [Std.LawfulEqOrd κ]

omit [DecidableEq κ] in
/-- A property of entries that the addition of amounts under one key keeps holds of all entries after adding. -/
theorem forall_entry_add {P : κ → ν → Prop} {key : κ} {amount : ν} {t : Tally κ ν}
    (hsum : ∀ k v w, P k v → P k w → P k (v + w)) (hnew : P key amount) (h : ∀ e ∈ t, P e.1 e.2) :
    ∀ e ∈ t.add key amount, P e.1 e.2 := by
  induction t with
  | nil => simpa [add] using hnew
  | cons e t ih =>
      obtain ⟨k, v⟩ := e
      obtain ⟨h₁, h₂⟩ := List.forall_mem_cons.1 h
      rw [add]
      split
      · exact List.forall_mem_cons.2 ⟨hnew, h⟩
      · rename_i heq
        obtain rfl := Std.compare_eq_iff_eq.1 heq
        exact List.forall_mem_cons.2 ⟨hsum key v amount h₁ hnew, h₂⟩
      · exact List.forall_mem_cons.2 ⟨h₁, ih h₂⟩

omit [DecidableEq κ] in
theorem forall_entry_addAll {P : κ → ν → Prop} {entries : List (κ × ν)} {t : Tally κ ν}
    (hsum : ∀ k v w, P k v → P k w → P k (v + w)) (hentries : ∀ e ∈ entries, P e.1 e.2)
    (h : ∀ e ∈ t, P e.1 e.2) : ∀ e ∈ addAll entries t, P e.1 e.2 := by
  induction entries with
  | nil => exact h
  | cons e entries ih =>
      have ⟨h₁, h₂⟩ := List.forall_mem_cons.1 hentries
      exact forall_entry_add hsum h₁ (ih h₂)

omit [DecidableEq κ] in
theorem mem_keys_add_iff {key k : κ} {amount : ν} {t : Tally κ ν} :
    k ∈ (t.add key amount).keys ↔ k = key ∨ k ∈ t.keys := by
  induction t with
  | nil => simp [add, keys]
  | cons e t ih =>
      obtain ⟨k', v⟩ := e
      simp only [keys] at ih
      rw [add]
      split
      · simp [keys]
      · rename_i heq
        obtain rfl := Std.compare_eq_iff_eq.1 heq
        simp [keys]
      · simp only [keys, List.map_cons, List.mem_cons, ih]
        exact or_left_comm

omit [DecidableEq κ] in
theorem mem_keys_addAll_iff {entries : List (κ × ν)} {k : κ} {t : Tally κ ν} :
    k ∈ (addAll entries t).keys ↔ k ∈ entries.map Prod.fst ∨ k ∈ t.keys := by
  induction entries with
  | nil => simp [addAll]
  | cons e entries ih =>
      rw [addAll, List.foldr_cons, ← addAll, mem_keys_add_iff, ih, List.map_cons, List.mem_cons, or_assoc]

variable {M : Type} [CommMonoid M] {f : κ → ν → M}

omit [DecidableEq κ] in
/-- Where sums of amounts become products, adding an amount is one more factor. -/
theorem prod_add {P : κ → ν → Prop} {key : κ} {amount : ν} {t : Tally κ ν}
    (hf : ∀ k v w, P k v → P k w → f k (v + w) = f k v * f k w) (hnew : P key amount)
    (h : ∀ e ∈ t, P e.1 e.2) :
    ((t.add key amount).map fun e => f e.1 e.2).prod = f key amount * (t.map fun e => f e.1 e.2).prod := by
  induction t with
  | nil => simp [add]
  | cons e t ih =>
      obtain ⟨k, v⟩ := e
      obtain ⟨h₁, h₂⟩ := List.forall_mem_cons.1 h
      rw [add]
      split
      · rfl
      · rename_i heq
        obtain rfl := Std.compare_eq_iff_eq.1 heq
        rw [List.map_cons, List.map_cons, List.prod_cons, List.prod_cons, hf key v amount h₁ hnew,
          mul_comm (f key v), mul_assoc]
      · rw [List.map_cons, List.map_cons, List.prod_cons, List.prod_cons, ih h₂, mul_left_comm]

omit [DecidableEq κ] in
theorem prod_addAll {P : κ → ν → Prop} {entries : List (κ × ν)} {t : Tally κ ν}
    (hsum : ∀ k v w, P k v → P k w → P k (v + w))
    (hf : ∀ k v w, P k v → P k w → f k (v + w) = f k v * f k w) (hentries : ∀ e ∈ entries, P e.1 e.2)
    (h : ∀ e ∈ t, P e.1 e.2) :
    ((addAll entries t).map fun e => f e.1 e.2).prod =
      (entries.map fun e => f e.1 e.2).prod * (t.map fun e => f e.1 e.2).prod := by
  induction entries with
  | nil => rw [List.map_nil, List.prod_nil, one_mul]; rfl
  | cons e entries ih =>
      have ⟨h₁, h₂⟩ := List.forall_mem_cons.1 hentries
      rw [addAll, List.foldr_cons, ← addAll, prod_add hf h₁ (forall_entry_addAll hsum h₂ h), ih h₂,
        List.map_cons, List.prod_cons, mul_assoc]

end Entries

/-! ## Ascending keys -/

variable [Ord κ] [Std.LawfulEqOrd κ]

omit [DecidableEq κ] in
theorem ne_of_lt {k k' : κ} (h : compare k k' = .lt) : k ≠ k' := by
  rintro rfl
  rw [Std.compare_self] at h
  cases h

theorem amount_of_mem {t : Tally κ ν} (h : t.Ascending) {key : κ} {v : ν} (hmem : (key, v) ∈ t) :
    amount t key = v := by
  induction t with
  | nil => cases hmem
  | cons e t ih =>
      obtain ⟨hlt, ht⟩ := List.pairwise_cons.1 h
      rcases List.mem_cons.1 hmem with rfl | hmem
      · rw [amount_cons, if_pos rfl, amount_eq_zero fun b hb => (ne_of_lt (hlt b hb)).symm, add_zero]
      · rw [amount_cons, if_neg (ne_of_lt (hlt _ hmem)), ih ht hmem, zero_add]

/-- In a tally without zero amounts, an entry is a key with the nonzero amount under it. -/
theorem mem_iff {t : Tally κ ν} (h : t.Ascending) (hne : ∀ e ∈ t, e.2 ≠ 0) {key : κ} {v : ν} :
    (key, v) ∈ t ↔ amount t key = v ∧ v ≠ 0 := by
  constructor
  · intro hmem
    exact ⟨amount_of_mem h hmem, hne _ hmem⟩
  · rintro ⟨rfl, hv⟩
    by_contra hmem
    refine hv (amount_eq_zero fun e he hkey => hmem ?_)
    obtain rfl := hkey
    rwa [amount_of_mem h he]

omit [DecidableEq κ] [AddCommMonoid ν] in
theorem Ascending.nodup_keys {t : Tally κ ν} (h : t.Ascending) : t.keys.Nodup :=
  List.pairwise_map.2 (h.imp ne_of_lt)

/-- Two tallies without zero amounts are equal when all their amounts are. -/
theorem Ascending.ext [Std.TransOrd κ] {t u : Tally κ ν} (ht : t.Ascending) (hu : u.Ascending)
    (htne : ∀ e ∈ t, e.2 ≠ 0) (hune : ∀ e ∈ u, e.2 ≠ 0) (h : ∀ key, amount t key = amount u key) :
    t = u := by
  have hnodup : ∀ {s : Tally κ ν}, s.Ascending → s.Nodup := fun hs =>
    hs.imp fun hlt heq => ne_of_lt hlt (congrArg Prod.fst heq)
  refine List.Perm.eq_of_pairwise ?_ ht hu ?_
  · intro a b _ _ hab hba
    exact absurd hab (Std.OrientedCmp.not_lt_of_lt hba)
  · refine (List.perm_ext_iff_of_nodup (hnodup ht) (hnodup hu)).2 fun ⟨key, v⟩ => ?_
    rw [mem_iff ht htne, mem_iff hu hune, h key]

end Tally

/-! ## Names -/

theorem mem_distinctNames_iff {name : String} {names : List String} : name ∈ distinctNames names ↔ name ∈ names := by
  rw [distinctNames, Tally.mem_keys_addAll_iff]
  simp [Tally.keys]

theorem nodup_distinctNames (names : List String) : (distinctNames names).Nodup :=
  (Tally.Ascending.addAll .nil _).nodup_keys

theorem ascending_distinctNames (names : List String) : (distinctNames names).Pairwise (· < ·) := by
  have hascending := Tally.Ascending.addAll (t := []) .nil (names.map fun name => (name, 1))
  exact List.pairwise_map.2 (hascending.imp compareOfLessAndEq_eq_lt.1)

end ExactAlgebra
