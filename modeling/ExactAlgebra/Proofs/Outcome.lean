/-!
# Outcomes of steps that can fail

When a sequence of steps succeeds, and when it fails with a given error.
-/

namespace ExactAlgebra.Outcome

variable {ε ε' α β : Type}

@[simp] theorem pure_eq_ok (a : α) : (pure a : Except ε α) = .ok a := rfl

@[simp] theorem ok_bind (a : α) (f : α → Except ε β) : (Except.ok a >>= f) = f a := rfl

@[simp] theorem error_bind (e : ε) (f : α → Except ε β) :
    (Except.error e >>= f) = .error e := rfl

@[simp] theorem map_ok (f : α → β) (a : α) : Except.map f (.ok a : Except ε α) = .ok (f a) := rfl

@[simp] theorem map_error (f : α → β) (e : ε) : Except.map f (.error e) = .error e := rfl

@[simp] theorem mapError_ok (f : ε → ε') (a : α) : Except.mapError f (.ok a) = .ok a := rfl

@[simp] theorem mapError_error (f : ε → ε') (e : ε) :
    Except.mapError f (.error e : Except ε α) = .error (f e) := rfl

theorem bind_eq_ok {x : Except ε α} {f : α → Except ε β} {b : β} :
    (x >>= f) = .ok b ↔ ∃ a, x = .ok a ∧ f a = .ok b := by
  cases x <;> simp

theorem bind_eq_error {x : Except ε α} {f : α → Except ε β} {e : ε} :
    (x >>= f) = .error e ↔ x = .error e ∨ ∃ a, x = .ok a ∧ f a = .error e := by
  cases x <;> simp

theorem map_eq_ok {x : Except ε α} {f : α → β} {b : β} :
    x.map f = .ok b ↔ ∃ a, x = .ok a ∧ f a = b := by
  cases x <;> simp

theorem exists_map_eq_ok {x : Except ε α} {f : α → β} : (∃ b, x.map f = .ok b) ↔ ∃ a, x = .ok a := by
  cases x <;> simp

theorem mapError_eq_ok {x : Except ε α} {f : ε → ε'} {a : α} :
    x.mapError f = .ok a ↔ x = .ok a := by
  cases x <;> simp

theorem mapError_eq_error {x : Except ε α} {f : ε → ε'} {e : ε'} :
    x.mapError f = .error e ↔ ∃ e', x = .error e' ∧ f e' = e := by
  cases x <;> simp

/-- Outcomes that agree after a change of their answers are the same error, or both of them answers. -/
theorem eq_or_of_map_eq {γ : Type} {x : Except ε α} {y : Except ε β} {f : α → γ} {g : β → γ}
    (h : x.map f = y.map g) :
    (∃ e, x = .error e ∧ y = .error e) ∨ ∃ a b, x = .ok a ∧ y = .ok b ∧ f a = g b := by
  cases x <;> cases y <;> simp_all

theorem map_eq_error {x : Except ε α} {f : α → β} {e : ε} : x.map f = .error e ↔ x = .error e := by
  cases x <;> simp

/-- Steps along a list fail as the first one of them that fails. -/
theorem mapM_eq_error {f : α → Except ε β} {xs : List α} {e : ε} :
    xs.mapM f = .error e ↔ ∃ before x after, xs = before ++ x :: after ∧ (∀ y ∈ before, ∃ b, f y = .ok b) ∧
      f x = .error e := by
  induction xs with
  | nil => simp
  | cons y xs ih =>
      rw [List.mapM_cons]
      constructor
      · intro h
        rcases bind_eq_error.1 h with h | ⟨b, hy, h⟩
        · exact ⟨[], y, xs, rfl, nofun, h⟩
        · rcases bind_eq_error.1 h with h | ⟨_, _, h⟩
          · obtain ⟨before, x, after, rfl, hbefore, hx⟩ := ih.1 h
            exact ⟨y :: before, x, after, rfl, List.forall_mem_cons.2 ⟨⟨b, hy⟩, hbefore⟩, hx⟩
          · cases h
      · rintro ⟨before, x, after, hsplit, hbefore, hx⟩
        cases before with
        | nil =>
            cases hsplit
            rw [hx, error_bind]
        | cons y before =>
            cases hsplit
            obtain ⟨⟨b, hy⟩, hbefore⟩ := List.forall_mem_cons.1 hbefore
            rw [hy, ok_bind, ih.2 ⟨before, x, after, rfl, hbefore, hx⟩, error_bind]

theorem toOption_eq_some {x : Except ε α} {a : α} : x.toOption = some a ↔ x = .ok a := by
  cases x <;> simp [Except.toOption]

/-! ## Errors with a property -/

/-- If the outcome is an error, it has the property. -/
def ErrorsSatisfy (p : ε → Prop) (x : Except ε α) : Prop := ∀ e, x = .error e → p e

namespace ErrorsSatisfy

variable {p : ε → Prop} {x : Except ε α}

theorem ok (a : α) : ErrorsSatisfy p (.ok a : Except ε α) := nofun

theorem error {e : ε} (h : p e) : ErrorsSatisfy p (.error e : Except ε α) := by
  rintro _ ⟨⟩
  exact h

theorem bind (h : ErrorsSatisfy p x) {f : α → Except ε β} (hf : ∀ a, ErrorsSatisfy p (f a)) :
    ErrorsSatisfy p (x >>= f) := by
  intro e he
  rcases bind_eq_error.1 he with hx | ⟨a, -, ha⟩
  · exact h e hx
  · exact hf a e ha

theorem map (h : ErrorsSatisfy p x) (f : α → β) : ErrorsSatisfy p (x.map f) :=
  fun e he => h e (map_eq_error.1 he)

theorem mapError {q : ε' → Prop} {f : ε → ε'} (h : ErrorsSatisfy p x) (hf : ∀ e, p e → q (f e)) :
    ErrorsSatisfy q (x.mapError f) := by
  intro e' he
  obtain ⟨e, hx, rfl⟩ := mapError_eq_error.1 he
  exact hf e (h e hx)

end ErrorsSatisfy

end ExactAlgebra.Outcome
