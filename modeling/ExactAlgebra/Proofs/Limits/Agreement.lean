import ExactAlgebra.Proofs.Latex.Completeness

/-!
# Agreement of outcomes

Work within smaller limits has the same outcome as work within larger ones, or it fails because a limit is
exceeded. Agreement passes through sequences of steps, so it has to be shown only where a limit is looked at.
-/

namespace ExactAlgebra

namespace Outcome

variable {ε ε' α β : Type} {excuse : ε → Prop}

/-- The first outcome is the second one, or an error that is excused. -/
def AgreesUnless (excuse : ε → Prop) (x y : Except ε α) : Prop := x = y ∨ ∃ e, excuse e ∧ x = .error e

theorem AgreesUnless.refl (x : Except ε α) : AgreesUnless excuse x x := .inl rfl

theorem AgreesUnless.error {e : ε} (h : excuse e) (y : Except ε α) : AgreesUnless excuse (.error e) y :=
  .inr ⟨e, h, rfl⟩

theorem AgreesUnless.bind {x y : Except ε α} {f g : α → Except ε β} (hxy : AgreesUnless excuse x y)
    (hfg : ∀ a, AgreesUnless excuse (f a) (g a)) : AgreesUnless excuse (x >>= f) (y >>= g) := by
  rcases hxy with rfl | ⟨e, he, rfl⟩
  · cases x with
    | error e => exact .refl _
    | ok a => exact hfg a
  · exact .error he _

/-- Steps that agree on an answer and its image agree as sequences. -/
theorem AgreesUnless.bind_of_map {γ : Type} {x : Except ε α} {y : Except ε β} {f : β → α} {g : α → Except ε γ}
    {h : β → Except ε γ} (hxy : AgreesUnless excuse x (y.map f))
    (hgh : ∀ b, AgreesUnless excuse (g (f b)) (h b)) : AgreesUnless excuse (x >>= g) (y >>= h) := by
  rcases hxy with rfl | ⟨e, he, rfl⟩
  · cases y with
    | error e => exact .refl _
    | ok b => exact hgh b
  · exact .error he _

theorem AgreesUnless.map {x y : Except ε α} (f : α → β) (h : AgreesUnless excuse x y) :
    AgreesUnless excuse (x.map f) (y.map f) := by
  rcases h with rfl | ⟨e, he, rfl⟩
  · exact .refl _
  · exact .error he _

theorem AgreesUnless.mapError {x y : Except ε α} {g : ε → ε'} {excuse' : ε' → Prop}
    (h : AgreesUnless excuse x y) (hg : ∀ e, excuse e → excuse' (g e)) :
    AgreesUnless excuse' (x.mapError g) (y.mapError g) := by
  rcases h with rfl | ⟨e, he, rfl⟩
  · exact .refl _
  · exact .error (hg e he) _

/-- What answers under the smaller limits answers the same under the larger ones. -/
theorem AgreesUnless.ok {x y : Except ε α} {a : α} (h : AgreesUnless excuse x y) (ha : x = .ok a) :
    y = .ok a := by
  rcases h with rfl | ⟨e, _, he⟩
  · exact ha
  · cases he.symm.trans ha

/-- Where every error is excused, it is enough to keep the answers. -/
theorem AgreesUnless.of_ok {x y : Except ε α} (hexcuse : ∀ e, excuse e) (h : ∀ a, x = .ok a → y = .ok a) :
    AgreesUnless excuse x y := by
  cases x with
  | error e => exact .error (hexcuse e) y
  | ok a => exact .inl (h a rfl).symm

end Outcome

open Outcome (AgreesUnless)

/-! ## Continued readings -/

namespace Reading

variable {ε τ α : Type} {input : List τ} {excuse : ε → Prop} {next next' : Continuation ε τ α}

/-- Both continuations leave the value as it is, or their outcomes agree. -/
def ContinuationsAgree (excuse : ε → Prop) (next next' : Continuation ε τ α) : Prop :=
  ∀ a ts, next a ts = none ∧ next' a ts = none ∨
    ∃ x y, next a ts = some x ∧ next' a ts = some y ∧ AgreesUnless excuse x y

theorem extendOnce_agrees (h : ContinuationsAgree excuse next next') (r : Reading α input) :
    AgreesUnless excuse (r.extendOnce next) (r.extendOnce next') := by
  rcases h r.value r.rest with ⟨hx, hy⟩ | ⟨x, y, hx, hy, hxy⟩
  · rw [extendOnce_of_none hx, extendOnce_of_none hy]
    exact .refl _
  · rw [extendOnce, extendOnce, hx, hy]
    exact hxy.map _

/-- The loop agrees because each of its turns does. -/
theorem extend_agrees (h : ContinuationsAgree excuse next next') (r : Reading α input) :
    AgreesUnless excuse (r.extend next) (r.extend next') := by
  fun_induction extend next r with
  | case1 r hx =>
      rcases h r.value r.rest with ⟨_, hy⟩ | ⟨_, _, hx', _⟩
      · rw [extend_of_none hy]
        exact .refl _
      · cases hx.symm.trans hx'
  | case2 r e hx =>
      rcases h r.value r.rest with ⟨hx', _⟩ | ⟨x, y, hx', hy, hxy⟩
      · cases hx.symm.trans hx'
      · obtain rfl : .error e = x := Option.some.inj (hx.symm.trans hx')
        rcases hxy with rfl | ⟨e', he', herror⟩
        · rw [extend, hy]
          exact .refl _
        · cases herror
          exact .error he' _
  | case3 r s hx ih =>
      rcases h r.value r.rest with ⟨hx', _⟩ | ⟨x, y, hx', hy, hxy⟩
      · cases hx.symm.trans hx'
      · obtain rfl : .ok s = x := Option.some.inj (hx.symm.trans hx')
        rw [extend_of_ok (hy.trans (congrArg some (hxy.ok rfl)))]
        exact ih

end Reading

end ExactAlgebra
