import ExactAlgebra.Proofs.Arithmetic.PlainText
import ExactAlgebra.Proofs.Expansion
import ExactAlgebra.Proofs.Latex.Parsing
import ExactAlgebra.Proofs.Limits.Operations

/-!
# Plain arithmetic as expansion

A text of plain arithmetic is the same tree as an expression and as a calculation. The expression expands to the value
of the calculation as a constant, unless a limit is exceeded.
-/

namespace ExactAlgebra

/-! ## Values as constants -/

namespace Polynomial

theorem divide_constant (x y : ℚ) :
    (constant x).divide (constant y) = (Operator.div.compute x y).map constant := by
  unfold divide
  rw [asConstant_constant]
  by_cases hy : y = 0
  · subst hy
    rfl
  · simp only [Rational.reciprocal_of_ne_zero hy, Operator.compute, if_neg hy, Outcome.map_ok]
    refine congrArg Except.ok (Canonical.eq_constant (canonical_combine _) ?_)
    rw [toRing_scale, toRing_constant, ← map_mul, mul_one_div]

end Polynomial

variable {limits : Limits}

theorem Operator.apply_constant_agrees (op : Operator) (x y : ℚ) :
    Agrees (op.apply limits (.constant x) (.constant y)) ((op.compute x y).map .constant) := by
  cases op with
  | add =>
      have hadd : (Polynomial.constant x).add (.constant y) = .constant (x + y) :=
        Polynomial.Canonical.eq_constant (Polynomial.canonical_combine _) (by simp)
      exact .inl (congrArg Except.ok hadd)
  | sub =>
      have hsub : (Polynomial.constant x).sub (.constant y) = .constant (x - y) :=
        Polynomial.Canonical.eq_constant (Polynomial.canonical_combine _) (by simp)
      exact .inl (congrArg Except.ok hsub)
  | mul =>
      refine agrees_of_ok (y := .ok (Polynomial.constant (x * y))) fun p h => congrArg Except.ok ?_
      exact ((Polynomial.canonical_mul h).eq_constant (by simp [Polynomial.toRing_mul h])).symm
  | div => exact .inl (Polynomial.divide_constant x y)

namespace Arithmetic

/-- A calculation expands to its value. -/
theorem Calculation.expand_agrees (c : Calculation) :
    Agrees (c.toExpr.expand limits) (c.value.map Polynomial.constant) := by
  induction c with
  | literal v => exact .refl _
  | binary op a b iha ihb =>
      have hvalue : (binary op a b).value.map Polynomial.constant =
          a.value >>= fun x => b.value >>= fun y => (op.compute x y).map Polynomial.constant := by
        rw [value]
        cases a.value <;> cases b.value <;> rfl
      rw [hvalue]
      refine iha.bind_of_map fun x => ?_
      exact ihb.bind_of_map fun y => op.apply_constant_agrees x y
  | negate a iha =>
      have hvalue : (negate a).value.map Polynomial.constant =
          a.value >>= fun x => .ok (Polynomial.constant (-x)) := by
        rw [value]
        cases a.value <;> rfl
      rw [hvalue]
      refine iha.bind_of_map fun x => .inl (congrArg Except.ok ?_)
      exact Polynomial.Canonical.eq_constant (Polynomial.canonical_combine _).neg (by simp)
  | group a iha => exact iha

/-! ## Derivations of both grammars -/

/-- A part of an expression and the part of a calculation that it is read as. -/
inductive Matches : Latex.Nonterminal → Nonterminal → Prop where
  | sum : Matches .sum .sum
  | summands (a) : Matches (.summands a.toExpr) (.summands a)
  | term : Matches .term .product
  | factors (a) : Matches (.factors a.toExpr) (.factors a)
  | unary : Matches .unary .unary
  | power : Matches .power .atom
  | atom : Matches .atom .atom

theorem forall₂_append_left {α β : Type} {R : α → β → Prop} {us us' : List α} {vs : List β}
    (h : List.Forall₂ R (us ++ us') vs) :
    ∃ ws ws', vs = ws ++ ws' ∧ List.Forall₂ R us ws ∧ List.Forall₂ R us' ws' := by
  induction us generalizing vs with
  | nil => exact ⟨[], vs, rfl, .nil, h⟩
  | cons u us ih =>
      cases h with
      | cons hu h =>
          obtain ⟨ws, ws', rfl, hws, hws'⟩ := ih h
          exact ⟨_ :: ws, ws', rfl, .cons hu hws, hws'⟩

theorem forall₂_cons_append_left {α β : Type} {R : α → β → Prop} {u : α} {us us' : List α} {vs : List β}
    (h : List.Forall₂ R (u :: (us ++ us')) vs) :
    ∃ v ws ws', vs = v :: (ws ++ ws') ∧ R u v ∧ List.Forall₂ R us ws ∧ List.Forall₂ R us' ws' := by
  cases h with
  | cons hu h =>
      obtain ⟨ws, ws', rfl, hws, hws'⟩ := forall₂_append_left h
      exact ⟨_, ws, ws', rfl, hu, hws, hws'⟩

theorem forall₂_append_right {α β : Type} {R : α → β → Prop} {us : List α} {vs vs' : List β}
    (h : List.Forall₂ R us (vs ++ vs')) :
    ∃ ws ws', us = ws ++ ws' ∧ List.Forall₂ R ws vs ∧ List.Forall₂ R ws' vs' := by
  obtain ⟨ws, ws', rfl, hws, hws'⟩ := forall₂_append_left h.flip
  exact ⟨ws, ws', rfl, hws.flip, hws'.flip⟩

theorem forall₂_cons_append_right {α β : Type} {R : α → β → Prop} {us : List α} {v : β} {vs vs' : List β}
    (h : List.Forall₂ R us (v :: (vs ++ vs'))) :
    ∃ u ws ws', us = u :: (ws ++ ws') ∧ R u v ∧ List.Forall₂ R ws vs ∧ List.Forall₂ R ws' vs' := by
  obtain ⟨u, ws, ws', rfl, hu, hws, hws'⟩ := forall₂_cons_append_left h.flip
  exact ⟨u, ws, ws', rfl, hu, hws.flip, hws'.flip⟩

theorem value_numeral (ds : List Char) : (⟨ds, []⟩ : Numeral).value = Text.natural ds := by
  simp [Numeral.value, Numeral.digitsValue, Rat.mkRat_eq_div]

/-- Tokens of plain arithmetic that derive an expression derive it as a calculation. -/
theorem derives_of_latex {d : Nat} {nt : Latex.Nonterminal} {nt' : Nonterminal} {us next : List Latex.Token}
    {vs : List Token} {e : Expr} (h : Latex.Derives d nt us next e) (hnt : Matches nt nt')
    (halike : List.Forall₂ Alike us vs) : ∃ c, Derives d nt' vs c ∧ c.toExpr = e := by
  induction h generalizing nt' vs with
  | S_First _ _ iha ihe =>
      cases hnt
      obtain ⟨ws, ws', rfl, hws, hws'⟩ := forall₂_append_left halike
      obtain ⟨a, ha, rfl⟩ := iha .term hws
      obtain ⟨c, hc, rfl⟩ := ihe (.summands a) hws'
      exact ⟨c, .S_First ha hc, rfl⟩
  | S_End =>
      cases hnt
      cases halike
      exact ⟨_, .S_End, rfl⟩
  | S_Plus _ _ ihb ihe =>
      cases hnt
      obtain ⟨_, ws, ws', rfl, ⟨⟩, hws, hws'⟩ := forall₂_cons_append_left halike
      obtain ⟨b, hb, rfl⟩ := ihb .term hws
      obtain ⟨c, hc, rfl⟩ := ihe (.summands (.binary .add _ b)) hws'
      exact ⟨c, .S_Plus hb hc, rfl⟩
  | S_Minus _ _ ihb ihe =>
      cases hnt
      obtain ⟨_, ws, ws', rfl, ⟨⟩, hws, hws'⟩ := forall₂_cons_append_left halike
      obtain ⟨b, hb, rfl⟩ := ihb .term hws
      obtain ⟨c, hc, rfl⟩ := ihe (.summands (.binary .sub _ b)) hws'
      exact ⟨c, .S_Minus hb hc, rfl⟩
  | T_First _ _ iha ihe =>
      cases hnt
      obtain ⟨ws, ws', rfl, hws, hws'⟩ := forall₂_append_left halike
      obtain ⟨a, ha, rfl⟩ := iha .unary hws
      obtain ⟨c, hc, rfl⟩ := ihe (.factors a) hws'
      exact ⟨c, .P_First ha hc, rfl⟩
  | T_End =>
      cases hnt
      cases halike
      exact ⟨_, .P_End, rfl⟩
  | T_Times _ _ ihb ihe =>
      cases hnt
      obtain ⟨_, ws, ws', rfl, ⟨⟩, hws, hws'⟩ := forall₂_cons_append_left halike
      obtain ⟨b, hb, rfl⟩ := ihb .unary hws
      obtain ⟨c, hc, rfl⟩ := ihe (.factors (.binary .mul _ b)) hws'
      exact ⟨c, .P_Times hb hc, rfl⟩
  | T_Divide _ _ ihb ihe =>
      cases hnt
      obtain ⟨_, ws, ws', rfl, ⟨⟩, hws, hws'⟩ := forall₂_cons_append_left halike
      obtain ⟨b, hb, rfl⟩ := ihb .unary hws
      obtain ⟨c, hc, rfl⟩ := ihe (.factors (.binary .div _ b)) hws'
      exact ⟨c, .P_Divide hb hc, rfl⟩
  | T_Beside hbegins _ _ ihb ihe =>
      cases hnt
      obtain ⟨v, ws, ws', rfl, hv, hws, hws'⟩ := forall₂_cons_append_left halike
      obtain ⟨b, hb, rfl⟩ := ihb .power (.cons hv hws)
      obtain ⟨c, hc, rfl⟩ := ihe (.factors (.binary .mul _ b)) hws'
      -- the only token of plain arithmetic that begins a factor
      cases hv <;> cases hbegins
      exact ⟨c, .P_Beside hb hc, rfl⟩
  | U_Minus _ iha =>
      cases hnt
      obtain _ | ⟨⟨⟩, halike⟩ := halike
      obtain ⟨a, ha, rfl⟩ := iha .unary halike
      exact ⟨_, .U_Minus ha, rfl⟩
  | U_Plus _ iha =>
      cases hnt
      obtain _ | ⟨⟨⟩, halike⟩ := halike
      obtain ⟨a, ha, rfl⟩ := iha .unary halike
      exact ⟨a, .U_Plus ha, rfl⟩
  | U_Power _ iha =>
      cases hnt
      obtain ⟨a, ha, rfl⟩ := iha .power halike
      exact ⟨a, .U_Atom ha, rfl⟩
  | P_Atom _ iha =>
      cases hnt
      exact iha .atom halike
  | P_Raised _ _ _ =>
      obtain ⟨_, _, _, _, h⟩ := forall₂_append_left halike
      obtain _ | ⟨⟨⟩, _⟩ := h
  | A_Number _ _ =>
      cases hnt
      obtain _ | ⟨⟨⟩, ⟨⟩⟩ := halike
      exact ⟨_, .A_Literal, by rw [Calculation.toExpr, value_numeral]⟩
  | A_Paren _ iha =>
      cases hnt
      obtain ⟨_, ws, ws', rfl, ⟨⟩, hws, hws'⟩ := forall₂_cons_append_left halike
      obtain ⟨a, ha, rfl⟩ := iha .sum hws
      obtain _ | ⟨⟨⟩, ⟨⟩⟩ := hws'
      exact ⟨_, .A_Paren ha, rfl⟩
  | A_Mixed _ _ _ _ => obtain _ | ⟨_, _ | ⟨⟨⟩, _⟩⟩ := halike
  | A_Letter | A_Brace _ _ | A_Frac _ _ _ _ _ | A_Sqrt _ _ => obtain _ | ⟨⟨⟩, _⟩ := halike

theorem Matches.derives_atom {d : Nat} {nt : Latex.Nonterminal} {us next : List Latex.Token} {e : Expr}
    (hnt : Matches nt .atom) (h : Latex.Derives d .atom us next e) : Latex.Derives d nt us next e := by
  cases hnt with
  | power => exact .P_Atom h
  | atom => exact h

theorem frac_not_mem {us next : List Latex.Token} {vs : List Token} (halike : List.Forall₂ Alike us vs)
    (hnext : .frac ∉ next) : .frac ∉ us ++ next := by
  induction halike with
  | nil => exact hnext
  | cons hu _ ih =>
      rw [List.cons_append, List.mem_cons]
      rintro (rfl | hmem)
      · cases hu
      · exact ih hmem

/-- Tokens of plain arithmetic that derive a calculation derive it as an expression. -/
theorem derives_latex {d : Nat} {nt : Latex.Nonterminal} {nt' : Nonterminal} {us next : List Latex.Token}
    {vs : List Token} {c : Calculation} (h : Derives d nt' vs c) (hnt : Matches nt nt')
    (halike : List.Forall₂ Alike us vs) (hnext : .frac ∉ next) : Latex.Derives d nt us next c.toExpr := by
  induction h generalizing nt us next with
  | S_First _ _ iha ihc =>
      cases hnt
      obtain ⟨ws, ws', rfl, hws, hws'⟩ := forall₂_append_right halike
      exact .S_First (iha .term hws (frac_not_mem hws' hnext)) (ihc (.summands _) hws' hnext)
  | S_End =>
      cases hnt
      cases halike
      exact .S_End
  | @S_Plus _ _ _ a b _ _ _ ihb ihc =>
      cases hnt
      obtain ⟨_, ws, ws', rfl, ⟨⟩, hws, hws'⟩ := forall₂_cons_append_right halike
      exact .S_Plus (ihb .term hws (frac_not_mem hws' hnext)) (ihc (.summands (.binary .add a b)) hws' hnext)
  | @S_Minus _ _ _ a b _ _ _ ihb ihc =>
      cases hnt
      obtain ⟨_, ws, ws', rfl, ⟨⟩, hws, hws'⟩ := forall₂_cons_append_right halike
      exact .S_Minus (ihb .term hws (frac_not_mem hws' hnext)) (ihc (.summands (.binary .sub a b)) hws' hnext)
  | P_First _ _ iha ihc =>
      cases hnt
      obtain ⟨ws, ws', rfl, hws, hws'⟩ := forall₂_append_right halike
      exact .T_First (iha .unary hws (frac_not_mem hws' hnext)) (ihc (.factors _) hws' hnext)
  | P_End =>
      cases hnt
      cases halike
      exact .T_End
  | @P_Times _ _ _ a b _ _ _ ihb ihc =>
      cases hnt
      obtain ⟨_, ws, ws', rfl, ⟨⟩, hws, hws'⟩ := forall₂_cons_append_right halike
      exact .T_Times (ihb .unary hws (frac_not_mem hws' hnext)) (ihc (.factors (.binary .mul a b)) hws' hnext)
  | @P_Divide _ _ _ a b _ _ _ ihb ihc =>
      cases hnt
      obtain ⟨_, ws, ws', rfl, ⟨⟩, hws, hws'⟩ := forall₂_cons_append_right halike
      exact .T_Divide (ihb .unary hws (frac_not_mem hws' hnext)) (ihc (.factors (.binary .div a b)) hws' hnext)
  | @P_Beside _ _ _ a b _ _ _ ihb ihc =>
      cases hnt
      obtain ⟨_, ws, ws', rfl, ⟨⟩, hws, hws'⟩ := forall₂_cons_append_right halike
      have hb := ihb .power (.cons .openParen hws) (frac_not_mem hws' hnext)
      exact .T_Beside rfl hb (ihc (.factors (.binary .mul a b)) hws' hnext)
  | U_Minus _ iha =>
      cases hnt
      obtain _ | ⟨⟨⟩, halike⟩ := halike
      exact .U_Minus (iha .unary halike hnext)
  | U_Plus _ iha =>
      cases hnt
      obtain _ | ⟨⟨⟩, halike⟩ := halike
      exact .U_Plus (iha .unary halike hnext)
  | U_Atom _ iha =>
      cases hnt
      exact .U_Power (iha .power halike hnext)
  | A_Literal =>
      refine hnt.derives_atom ?_
      obtain _ | ⟨⟨⟩, ⟨⟩⟩ := halike
      rw [Calculation.toExpr, ← value_numeral]
      refine .A_Number (Numeral.isScalable_of_isInteger rfl) ?_
      -- no fraction follows that would make the number the whole part of a mixed number
      rintro ⟨_, p, q, rest, _, _, rfl⟩
      exact hnext List.mem_cons_self
  | A_Paren _ iha =>
      refine hnt.derives_atom ?_
      obtain ⟨_, ws, ws', rfl, ⟨⟩, hws, hws'⟩ := forall₂_cons_append_right halike
      obtain _ | ⟨⟨⟩, ⟨⟩⟩ := hws'
      exact .A_Paren (iha .sum hws (by simpa using hnext))

/-! ## Texts -/

/-- Whether a text of plain arithmetic is expanded or evaluated, the number is the same. What can be expanded has a
value; what has a value can be expanded, unless a limit is exceeded. -/
theorem PlainText.expands_to_value {text : List Char} (h : PlainText text) (limits : Limits) :
    (∀ p, Polynomial.ofText limits text = .ok p → ∃ v, evaluate limits text = .ok v ∧ p = .constant v) ∧
      (∀ v, evaluate limits text = .ok v → Polynomial.ofText limits text = .ok (.constant v) ∨
        ∃ excess, Polynomial.ofText limits text = .error (.tooComplex excess)) := by
  obtain ⟨us, vs, hus, hvs, halike⟩ := h.spellsAlike
  obtain ⟨ts, hts, rfl⟩ := hvs 0
  constructor
  · intro p hp
    obtain ⟨e, he, hp⟩ := Outcome.bind_eq_ok.1 hp
    obtain ⟨d, hdepth, hderives⟩ := hus.parse_eq_ok_iff.1 (Outcome.mapError_eq_ok.1 he)
    obtain ⟨c, hc, rfl⟩ := derives_of_latex hderives .sum halike
    obtain ⟨v, hv, rfl⟩ := Outcome.map_eq_ok.1 (c.expand_agrees.ok hp)
    refine ⟨v, ?_, rfl⟩
    rw [evaluate_eq_value hts (hc.mono (by omega)), hv]
  · intro v hv
    obtain ⟨ts', c, hts', hc, hvalue⟩ := evaluate_eq_ok_iff.1 hv
    cases hts.symm.trans hts'
    -- with one more level of nesting the expression is read for certain
    have hparse : Latex.parse (limits.maxDepth.toNat + 1) text = .ok c.toExpr :=
      hus.parse_eq_ok_iff.2 ⟨_, rfl, derives_latex hc .sum halike (by simp)⟩
    have hread := Latex.parse_agrees (Nat.le_succ limits.maxDepth.toNat) text
    rw [Nat.succ_eq_add_one, hparse] at hread
    have hexpand : Agrees (c.toExpr.expand limits) (.ok (.constant v)) := by
      simpa [hvalue] using c.expand_agrees
    rw [Polynomial.ofText, Expr.ofText]
    rcases hread with hread | ⟨_, ⟨limit, rfl⟩, hread⟩
    · rw [hread]
      rcases hexpand with hexpand | ⟨_, ⟨excess, rfl⟩, hexpand⟩
      · exact .inl hexpand
      · exact .inr ⟨excess, hexpand⟩
    · rw [hread]
      exact .inr ⟨_, rfl⟩

theorem PlainText.expands_to_value_brackets :
    PlainText "-2(3 − 1)\\div 4 × +05".toList ∧
      Polynomial.ofText {} "-2(3 − 1)\\div 4 × +05".toList = .ok (.constant (-5)) ∧
      evaluate {} "-2(3 − 1)\\div 4 × +05".toList = .ok (-5) := by
  have h : PlainText "-2(3 − 1)\\div 4 × +05".toList :=
    .sign (by decide) (.digit rfl (.sign (by decide) (.digit rfl (.blank rfl (.sign (by decide) (.blank rfl
      (.digit rfl (.sign (by decide) (.command "div" (by decide) (.blank rfl (.digit rfl (.blank rfl
        (.sign (by decide) (.blank rfl (.sign (by decide) (.digit rfl (.digit rfl .nil)))))))))))))))))
  have hexpand : Polynomial.ofText {} "-2(3 − 1)\\div 4 × +05".toList = .ok (.constant (-5)) := by cbv
  obtain ⟨v, hv, hconstant⟩ := (h.expands_to_value {}).1 _ hexpand
  have hvalue := congrArg (Polynomial.eval fun _ => 0) hconstant
  rw [Polynomial.eval_constant, Polynomial.eval_constant] at hvalue
  exact ⟨h, hexpand, hvalue ▸ hv⟩

end Arithmetic

end ExactAlgebra
