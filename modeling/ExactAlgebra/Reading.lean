/-!
# Reading from the front of a list

A reading takes a value from the front of a list and keeps what is left, with the proof that something was
taken. Readings are continued by further readings; a loop of continuations ends because each one takes
something.
-/

namespace ExactAlgebra

/-- A value read from the front of `input`, and the shorter list that is left. -/
structure Reading {τ : Type} (α : Type) (input : List τ) where
  value : α
  rest : List τ
  shorter : rest.length < input.length

/-- What reads an `α` from the front of a list, or fails. -/
abbrev Reader (ε τ α : Type) : Type := (input : List τ) → Except ε (Reading α input)

/-- What may take more after a value has been read; `none` leaves the value as it is. -/
abbrev Continuation (ε τ α : Type) : Type :=
  α → (input : List τ) → Option (Except ε (Reading α input))

namespace Reading

variable {ε τ α β : Type} {input : List τ}

/-- The reading that takes the first item only. -/
def first (value : α) {t : τ} (rest : List τ) : Reading α (t :: rest) :=
  ⟨value, rest, Nat.lt_succ_self _⟩

/-- The same reading with its value changed. -/
def map (f : α → β) (r : Reading α input) : Reading β input := ⟨f r.value, r.rest, r.shorter⟩

/-- A reading as one of the list with one more item before it. -/
def preceded (t : τ) (r : Reading α input) : Reading α (t :: input) :=
  ⟨r.value, r.rest, Nat.lt_succ_of_lt r.shorter⟩

/-- The value of a second reading, which began where the first one ended. -/
def followedBy (r : Reading α input) (s : Reading β r.rest) : Reading β input :=
  ⟨s.value, s.rest, Nat.lt_trans s.shorter r.shorter⟩

/-- The items that the reading took. -/
def taken (r : Reading α input) : List τ := input.take (input.length - r.rest.length)

/-- The reading after at most one continuation. -/
def extendOnce (next : Continuation ε τ α) (r : Reading α input) : Except ε (Reading α input) :=
  match next r.value r.rest with
  | none => .ok r
  | some step => step.map r.followedBy

/-- The reading after as many continuations as there are. -/
def extend (next : Continuation ε τ α) (r : Reading α input) : Except ε (Reading α input) :=
  match next r.value r.rest with
  | none => .ok r
  | some (.error e) => .error e
  | some (.ok s) => extend next (r.followedBy s)
termination_by r.rest.length
decreasing_by exact s.shorter

@[simp] theorem first_value (value : α) {t : τ} (rest : List τ) :
    (first value rest : Reading α (t :: rest)).value = value := rfl

@[simp] theorem first_rest (value : α) {t : τ} (rest : List τ) :
    (first value rest : Reading α (t :: rest)).rest = rest := rfl

@[simp] theorem map_value (f : α → β) (r : Reading α input) : (r.map f).value = f r.value := rfl
@[simp] theorem map_rest (f : α → β) (r : Reading α input) : (r.map f).rest = r.rest := rfl
@[simp] theorem preceded_value (t : τ) (r : Reading α input) : (r.preceded t).value = r.value := rfl
@[simp] theorem preceded_rest (t : τ) (r : Reading α input) : (r.preceded t).rest = r.rest := rfl

@[simp] theorem followedBy_value (r : Reading α input) (s : Reading β r.rest) :
    (r.followedBy s).value = s.value := rfl

@[simp] theorem followedBy_rest (r : Reading α input) (s : Reading β r.rest) :
    (r.followedBy s).rest = s.rest := rfl

end Reading

/-- The longest nonempty run of items that satisfy `p`. -/
def run? {τ : Type} (p : τ → Bool) : (input : List τ) → Option (Reading (List τ) input)
  | [] => none
  | t :: ts =>
      if p t then
        some ⟨t :: ts.takeWhile p, ts.dropWhile p,
          Nat.lt_succ_of_le (List.dropWhile_suffix p).length_le⟩
      else none

/-- A run is as long as it can be. -/
theorem run?_eq_some {τ : Type} {p : τ → Bool} {ts : List τ} {r : Reading (List τ) ts} (h : run? p ts = some r) :
    ts = r.value ++ r.rest ∧ r.value ≠ [] ∧ (∀ t ∈ r.value, p t) ∧ ∀ t ∈ r.rest.head?, p t = false := by
  cases ts with
  | nil => cases h
  | cons t ts =>
      rw [run?] at h
      split at h
      · rename_i ht
        cases h
        refine ⟨congrArg (t :: ·) (List.takeWhile_append_dropWhile).symm, nofun,
          List.forall_mem_cons.2 ⟨ht, List.all_eq_true.1 List.all_takeWhile⟩, fun u hu => ?_⟩
        have hnot := List.head?_dropWhile_not p ts
        rw [Option.mem_def.1 hu] at hnot
        simpa using hnot
      · cases h

end ExactAlgebra
