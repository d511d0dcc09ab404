/-!
# Tallies

A tally lists keys with amounts, one entry a key, in ascending order of the keys. Adding an amount under a
key keeps it so.
-/

namespace ExactAlgebra

/-- A list of keys with their amounts. -/
abbrev Tally (κ ν : Type) : Type := List (κ × ν)

namespace Tally

variable {κ ν : Type} [Ord κ] [Add ν]

/-- The keys are strictly ascending. -/
def Ascending (t : Tally κ ν) : Prop := t.Pairwise fun a b => compare a.1 b.1 = .lt

/-- The tally with `amount` more under `key`. -/
def add (key : κ) (amount : ν) : Tally κ ν → Tally κ ν
  | [] => [(key, amount)]
  | (k, v) :: t =>
      match compare key k with
      | .lt => (key, amount) :: (k, v) :: t
      | .eq => (k, v + amount) :: t
      | .gt => (k, v) :: add key amount t

/-- The tally with all the given amounts added. -/
def addAll (entries : List (κ × ν)) (t : Tally κ ν) : Tally κ ν :=
  entries.foldr (fun entry t => t.add entry.1 entry.2) t

def keys (t : Tally κ ν) : List κ := t.map Prod.fst

/-- The tally with every amount changed. -/
def mapAmounts {μ : Type} (g : ν → μ) (t : Tally κ ν) : Tally κ μ := t.map fun e => (e.1, g e.2)

omit [Add ν] in
theorem Ascending.mapAmounts {μ : Type} {t : Tally κ ν} (h : t.Ascending) (g : ν → μ) :
    (t.mapAmounts g).Ascending := List.pairwise_map.2 h

/-- A property of amounts that addition keeps holds of all amounts after adding. -/
theorem forall_amount_add {p : ν → Prop} {key : κ} {amount : ν} {t : Tally κ ν} (hnew : p amount)
    (hsum : ∀ v, p v → p (v + amount)) (h : ∀ e ∈ t, p e.2) : ∀ e ∈ t.add key amount, p e.2 := by
  induction t with
  | nil => simpa [add] using hnew
  | cons e t ih =>
      obtain ⟨k, v⟩ := e
      have ⟨h₁, h₂⟩ := List.forall_mem_cons.1 h
      rw [add]
      split
      · exact List.forall_mem_cons.2 ⟨hnew, h⟩
      · exact List.forall_mem_cons.2 ⟨hsum v h₁, h₂⟩
      · exact List.forall_mem_cons.2 ⟨h₁, ih h₂⟩

/-- Every key after adding was a key before or is the key added. -/
theorem mem_keys_add {key k : κ} {amount : ν} {t : Tally κ ν} (h : k ∈ (t.add key amount).keys) :
    k = key ∨ k ∈ t.keys := by
  induction t with
  | nil => simpa [add, keys] using h
  | cons e t ih =>
      obtain ⟨k', v⟩ := e
      rw [add] at h
      split at h <;> simp_all [keys]
      grind

/-- Adding keeps the keys strictly ascending. -/
theorem Ascending.add [Std.TransOrd κ] {t : Tally κ ν} (h : t.Ascending) (key : κ) (amount : ν) :
    (t.add key amount).Ascending := by
  induction t with
  | nil => simp [Tally.add, Ascending]
  | cons e t ih =>
      obtain ⟨k, v⟩ := e
      have ⟨h₁, h₂⟩ := List.pairwise_cons.1 h
      rw [Tally.add]
      split
      · rename_i hlt
        refine List.pairwise_cons.2 ⟨fun b hb => ?_, h⟩
        rcases List.mem_cons.1 hb with rfl | hb
        · exact hlt
        · exact Std.TransCmp.lt_trans hlt (h₁ b hb)
      · exact List.pairwise_cons.2 ⟨h₁, h₂⟩
      · rename_i hgt
        refine List.pairwise_cons.2 ⟨fun b hb => ?_, ih h₂⟩
        rcases mem_keys_add (List.mem_map_of_mem (f := Prod.fst) hb) with hk | hk
        · simpa [hk] using Std.OrientedCmp.lt_of_gt hgt
        · obtain ⟨b', hb', hk'⟩ := List.mem_map.1 hk
          simpa [← hk'] using h₁ b' hb'

theorem Ascending.addAll [Std.TransOrd κ] {t : Tally κ ν} (h : t.Ascending)
    (entries : List (κ × ν)) : (Tally.addAll entries t).Ascending := by
  induction entries with
  | nil => exact h
  | cons e entries ih => exact ih.add e.1 e.2

theorem forall_amount_addAll {p : ν → Prop} {entries : List (κ × ν)} {t : Tally κ ν}
    (hsum : ∀ v w, p v → p w → p (v + w)) (hentries : ∀ e ∈ entries, p e.2)
    (h : ∀ e ∈ t, p e.2) : ∀ e ∈ addAll entries t, p e.2 := by
  induction entries with
  | nil => exact h
  | cons e entries ih =>
      have ⟨h₁, h₂⟩ := List.forall_mem_cons.1 hentries
      exact forall_amount_add h₁ (fun v hv => hsum v e.2 hv h₁) (ih h₂)

end Tally

/-- The different names of a list in ascending order. -/
def distinctNames (names : List String) : List String :=
  (Tally.addAll (names.map fun name => (name, 1)) ([] : Tally String Nat)).keys

end ExactAlgebra
