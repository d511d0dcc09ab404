import ExactAlgebra.Proofs.Latex.Literals
import ExactAlgebra.Proofs.Outcome

/-!
# Soundness of the readers

What a reader takes from the front of a token list derives the value that it answers, before the tokens that it
leaves.
-/

namespace ExactAlgebra

namespace Reading

variable {ε τ α : Type} {input : List τ} {next : Continuation ε τ α} {r r' : Reading α input}

theorem extendOnce_eq_ok (h : r.extendOnce next = .ok r') :
    next r.value r.rest = none ∧ r' = r ∨
      ∃ s, next r.value r.rest = some (.ok s) ∧ r' = r.followedBy s := by
  rw [extendOnce] at h
  split at h
  · rename_i hnone
    cases h
    exact .inl ⟨hnone, rfl⟩
  · rename_i step hsome
    obtain ⟨s, rfl, rfl⟩ := Outcome.map_eq_ok.1 h
    exact .inr ⟨s, hsome, rfl⟩

end Reading

namespace Latex

variable {f : Frame} {ts : Tokens}

theorem plain_taken {α : Type} {r : Reading α ts} {front : List Token}
    (h : plain ts = front ++ plain r.rest) : plain r.taken = front := by
  have hlength := congrArg List.length h
  simp only [length_plain, List.length_append] at hlength
  calc plain r.taken
    _ = (plain ts).take (ts.length - r.rest.length) := List.map_take
    _ = front := by rw [h, List.take_left' (by omega)]

theorem expect_sound {token : Token} {expected : Expected} {r : Reading Unit ts}
    (h : f.expect token expected ts = .ok r) : plain ts = token :: plain r.rest := by
  cases ts with
  | nil => cases h
  | cons t ts =>
      rw [Frame.expect] at h
      split at h
      · rename_i htoken
        cases h
        simp [htoken]
      · cases h

theorem argument_sound {α : Type} {first last : Expected} {read : TokenReader α}
    {r : Reading (Frame.Argument α) ts} (h : f.argument first last read ts = .ok r) :
    ∃ us, ∃ s : Reading α us, plain ts = .openBrace :: plain us ∧ read us = .ok s ∧
      plain s.rest = .closeBrace :: plain r.rest ∧ r.value = ⟨s.value, s.taken⟩ := by
  obtain ⟨opened, hopened, h⟩ := Outcome.bind_eq_ok.1 h
  obtain ⟨inside, hinside, h⟩ := Outcome.bind_eq_ok.1 h
  obtain ⟨closed, hclosed, h⟩ := Outcome.bind_eq_ok.1 h
  cases h
  exact ⟨opened.rest, inside, expect_sound hopened, hinside, expect_sound hclosed, rfl⟩

/-! ## Exponents -/

theorem bracedExponent_sound {negative : Bool} {r : Reading (Bool × Nat) ts}
    (h : bracedExponent f negative ts = .ok r) :
    ∃ n, n.isInteger ∧ plain ts = .number n :: .closeBrace :: plain r.rest ∧
      r.value = (negative, n.digitsValue) := by
  unfold bracedExponent at h
  split at h
  · rename_i n o rest
    split at h
    · rename_i hn
      obtain ⟨closed, hclosed, h⟩ := Outcome.bind_eq_ok.1 h
      cases h
      exact ⟨n, hn, congrArg (Token.number n :: ·) (expect_sound hclosed), rfl⟩
    · cases h
  · cases h

/-- The exponent with the given sign and magnitude. -/
def signedExponent (literal : Bool × Nat) : Int :=
  if literal.1 then -(literal.2 : Int) else literal.2

theorem exponentDigits_sound {r : Reading (Bool × Nat) ts} (h : exponentDigits f ts = .ok r)
    (hr : r.value.2 ≤ maxExponent) :
    ∃ front, plain ts = front ++ plain r.rest ∧ ExponentLiteral front (signedExponent r.value) := by
  unfold exponentDigits at h
  split at h
  · obtain ⟨s, hs, rfl⟩ := Outcome.map_eq_ok.1 h
    obtain ⟨n, hn, hts, hvalue⟩ := bracedExponent_sound hs
    simp only [Reading.preceded_value, hvalue] at hr ⊢
    exact ⟨_, by simp [hts], .X_Negative hn hr⟩
  · obtain ⟨s, hs, rfl⟩ := Outcome.map_eq_ok.1 h
    obtain ⟨n, hn, hts, hvalue⟩ := bracedExponent_sound hs
    simp only [Reading.preceded_value, hvalue] at hr ⊢
    exact ⟨_, by simp [hts], .X_Braced hn hr⟩
  · rename_i n o rest
    split at h
    · rename_i hn
      cases h
      exact ⟨_, by simp, .X_Bare hn hr⟩
    · cases h
  · cases h

theorem exponentLiteral_sound {r : Reading Int ts} (h : exponentLiteral f ts = .ok r) :
    ∃ front, plain ts = front ++ plain r.rest ∧ ExponentLiteral front r.value := by
  obtain ⟨digits, hdigits, h⟩ := Outcome.bind_eq_ok.1 h
  split at h
  · rename_i hmax
    cases h
    exact exponentDigits_sound hdigits hmax
  · cases h

/-- The tokens that a reading took are an exponent with the value that it answers. -/
def DerivedExponent (d : Nat) (r : Reading Int ts) : Prop :=
  ∃ front, plain ts = front ++ plain r.rest ∧ Exponent d front r.value

theorem exponentAbove_sound {d : Nat} {upper : TokenReader Int}
    (hupper : ∀ us (s : Reading Int us), upper us = .ok s → ∃ d', d = d' + 1 ∧ DerivedExponent d' s)
    {r : Reading Int ts} (h : exponentAbove f upper ts = .ok r) : DerivedExponent d r := by
  obtain ⟨literal, hliteral, h⟩ := Outcome.bind_eq_ok.1 h
  obtain ⟨front, hfront, hderives⟩ := exponentLiteral_sound hliteral
  rcases Reading.extendOnce_eq_ok h with ⟨_, rfl⟩ | ⟨s, hs, rfl⟩
  · exact ⟨front, hfront, .X_Literal hderives⟩
  · obtain ⟨base, rest, _⟩ := literal
    simp only at hs
    split at hs
    · rename_i us _ _
      obtain ⟨above, habove, hs⟩ := Outcome.bind_eq_ok.1 (Option.some.inj hs)
      obtain ⟨value, hvalue, hs⟩ := Outcome.bind_eq_ok.1 hs
      cases hs
      obtain ⟨d', rfl, upperFront, hupperFront, hupperDerives⟩ := hupper us above habove
      obtain ⟨⟨hnonneg, hword⟩, hpower, rfl⟩ := raise_eq_ok_iff.1 hvalue
      refine ⟨front ++ .caret :: upperFront, ?_, .X_Raised hderives hupperDerives hnonneg hword hpower⟩
      simp only at hfront
      simp [hfront, hupperFront]
    · cases hs

theorem exponent_sound {d : Nat} {r : Reading Int ts} (h : exponent f d ts = .ok r) :
    DerivedExponent d r := by
  induction d generalizing ts with
  | zero => exact exponentAbove_sound (fun us s hs => by cases hs) h
  | succ d ih => exact exponentAbove_sound (fun us s hs => ⟨d, rfl, ih hs⟩) h

/-! ## Expressions -/

/-- The tokens that a reading took derive the expression that it answers. -/
def Derived (d : Nat) (nt : Nonterminal) (r : Reading Expr ts) : Prop :=
  ∃ front, plain ts = front ++ plain r.rest ∧ Derives d nt front (plain r.rest) r.value

/-- The readers of the next level of nesting answer what has a derivation with one level less. -/
structure Deeper.Sound (deeper : Deeper) (d : Nat) : Prop where
  expression : ∀ {us} {s : Reading Expr us}, deeper.expression us = .ok s →
    ∃ d', d = d' + 1 ∧ Derived d' .sum s
  unary : ∀ {us} {s : Reading Expr us}, deeper.unary us = .ok s →
    ∃ d', d = d' + 1 ∧ Derived d' .unary s
  exponent : ∀ {us} {s : Reading Int us}, deeper.exponent us = .ok s → DerivedExponent d s

variable {d : Nat} {deeper : Deeper} {r : Reading Expr ts}

theorem afterNumeral_eq_none {n : Numeral} {whole : Rat} (h : afterNumeral n whole ts = none) :
    ¬ (n.isInteger ∧ BeginsLiteralFraction (plain ts)) := by
  rintro ⟨hn, p, q, next, hp, hq, hts⟩
  obtain ⟨part, hpart, _⟩ := literalFraction_complete hp hq hts
  simp [afterNumeral, hn, hpart] at h

theorem afterNumeral_sound {n : Numeral} {whole : Rat} {s : Reading Rat ts}
    (h : afterNumeral n whole ts = some (.ok s)) :
    n.isInteger ∧ ∃ p q, p.isInteger ∧ q.isInteger ∧ q.digitsValue ≠ 0 ∧
      plain ts = literalFraction p q ++ plain s.rest ∧
      s.value = whole + mkRat p.digitsValue q.digitsValue := by
  unfold afterNumeral at h
  split at h
  · rename_i hn
    obtain ⟨part, hpart, h⟩ := Option.map_eq_some_iff.1 h
    obtain ⟨p, q, hp, hq, hts, hnumerator, hdenominator⟩ := literalFraction_sound hpart
    obtain ⟨value, hvalue, rfl⟩ := Outcome.map_eq_ok.1 h
    unfold mixedNumber at hvalue
    split at hvalue
    · cases hvalue
    · rename_i hne
      cases hvalue
      rw [hdenominator] at hne
      exact ⟨hn, p, q, hp, hq, hne, hts, by rw [Reading.map_value, hnumerator, hdenominator]⟩
  · cases h

theorem numeral_sound {n : Numeral} {o : Nat} {s : Reading Rat (⟨.number n, o⟩ :: ts)} (hscalable : n.isScalable)
    (h : (Reading.first n.value ts).extendOnce (afterNumeral n) = .ok s) :
    Derived d .atom (s.map .num) := by
  rcases Reading.extendOnce_eq_ok h with ⟨hnone, rfl⟩ | ⟨part, hpart, rfl⟩
  · exact ⟨[.number n], rfl, .A_Number hscalable (afterNumeral_eq_none hnone)⟩
  · obtain ⟨hn, p, q, hp, hq, hne, hts, hvalue⟩ := afterNumeral_sound hpart
    refine ⟨.number n :: literalFraction p q, congrArg (Token.number n :: ·) hts, ?_⟩
    rw [Reading.map_value, Reading.followedBy_value, hvalue]
    exact .A_Mixed hn hp hq hne

theorem fractionArguments_sound (hdeeper : deeper.Sound d) {o : Nat}
    (h : fractionArguments f deeper ts = .ok r) : Derived d .atom (r.preceded ⟨.frac, o⟩) := by
  obtain ⟨numerator, hnumerator, h⟩ := Outcome.bind_eq_ok.1 h
  obtain ⟨denominator, hdenominator, h⟩ := Outcome.bind_eq_ok.1 h
  obtain ⟨value, hvalue, h⟩ := Outcome.bind_eq_ok.1 h
  cases h
  obtain ⟨us, a, hus, ha, hclosea, hnumerator⟩ := argument_sound hnumerator
  obtain ⟨vs, b, hvs, hb, hcloseb, hdenominator⟩ := argument_sound hdenominator
  obtain ⟨d', rfl, ns, hns, hderivesa⟩ := hdeeper.expression ha
  obtain ⟨_, hd', ds, hds, hderivesb⟩ := hdeeper.expression hb
  cases hd'
  have hfraction := quotient_sound hvalue
  rw [hnumerator, hdenominator, plain_taken hns, plain_taken hds] at hfraction
  rw [hclosea, hvs, hds, hcloseb] at hderivesa
  rw [hcloseb] at hderivesb
  refine ⟨_, ?_, .A_Frac hderivesa hderivesb hfraction⟩
  simp [hus, hns, hclosea, hvs, hds, hcloseb]

theorem atom_sound (hdeeper : deeper.Sound d) (h : atom f deeper ts = .ok r) : Derived d .atom r := by
  unfold atom at h
  split at h
  · split at h
    · rename_i hscalable
      obtain ⟨number, hnumber, h⟩ := Outcome.bind_eq_ok.1 h
      cases h
      exact numeral_sound hscalable hnumber
    · cases h
  · cases h
    exact ⟨_, rfl, .A_Letter⟩
  · obtain ⟨inside, hinside, h⟩ := Outcome.bind_eq_ok.1 h
    obtain ⟨closed, hclosed, h⟩ := Outcome.bind_eq_ok.1 h
    cases h
    obtain ⟨d', rfl, front, hfront, hderives⟩ := hdeeper.expression hinside
    have hclose := expect_sound hclosed
    rw [hclose] at hderives
    refine ⟨_, ?_, .A_Paren hderives⟩
    simp [hfront, hclose]
  · obtain ⟨inside, hinside, h⟩ := Outcome.bind_eq_ok.1 h
    obtain ⟨closed, hclosed, h⟩ := Outcome.bind_eq_ok.1 h
    cases h
    obtain ⟨d', rfl, front, hfront, hderives⟩ := hdeeper.expression hinside
    have hclose := expect_sound hclosed
    rw [hclose] at hderives
    refine ⟨_, ?_, .A_Brace hderives⟩
    simp [hfront, hclose]
  · obtain ⟨arguments, harguments, rfl⟩ := Outcome.map_eq_ok.1 h
    exact fractionArguments_sound hdeeper harguments
  · obtain ⟨radicand, hradicand, h⟩ := Outcome.bind_eq_ok.1 h
    cases h
    obtain ⟨us, inside, hus, hinside, hclose, hradicand⟩ := argument_sound hradicand
    obtain ⟨d', rfl, front, hfront, hderives⟩ := hdeeper.expression hinside
    rw [hclose] at hderives
    refine ⟨.sqrt :: .openBrace :: (front ++ [.closeBrace]), ?_, ?_⟩
    · simp [hus, hfront, hclose]
    · simp only [Reading.preceded_value, Reading.map_value, hradicand]
      exact .A_Sqrt hderives
  · cases h

theorem power_sound (hdeeper : deeper.Sound d) (h : power f deeper ts = .ok r) :
    Derived d .power r := by
  obtain ⟨base, hbase, h⟩ := Outcome.bind_eq_ok.1 h
  obtain ⟨front, hfront, hderives⟩ := atom_sound hdeeper hbase
  rcases Reading.extendOnce_eq_ok h with ⟨_, rfl⟩ | ⟨s, hs, rfl⟩
  · exact ⟨front, hfront, .P_Atom hderives⟩
  · obtain ⟨base, rest, _⟩ := base
    simp only at hs
    split at hs
    · obtain ⟨exponent, hexponent, rfl⟩ := Outcome.map_eq_ok.1 (Option.some.inj hs)
      obtain ⟨us, hus, hn⟩ := hdeeper.exponent hexponent
      simp only [plain_cons, hus] at hfront hderives
      exact ⟨front ++ .caret :: us, by simp [hfront], .P_Raised hderives hn⟩
    · cases hs

theorem unary_sound (hdeeper : deeper.Sound d) (h : unary f deeper ts = .ok r) :
    Derived d .unary r := by
  unfold unary at h
  split at h
  · obtain ⟨inner, hinner, rfl⟩ := Outcome.map_eq_ok.1 h
    obtain ⟨d', rfl, front, hfront, hderives⟩ := hdeeper.unary hinner
    exact ⟨.minus :: front, by simp [hfront], .U_Minus hderives⟩
  · obtain ⟨inner, hinner, rfl⟩ := Outcome.map_eq_ok.1 h
    obtain ⟨d', rfl, front, hfront, hderives⟩ := hdeeper.unary hinner
    exact ⟨.plus :: front, by simp [hfront], .U_Plus hderives⟩
  · obtain ⟨front, hfront, hderives⟩ := power_sound hdeeper h
    exact ⟨front, hfront, .U_Power hderives⟩

/-! ## Terms and sums -/

/-- What an operator before a reading adds to the expression on its left. -/
theorem operator_sound {nt : Nonterminal} {read : TokenReader Expr} {op : Operator} {left : Expr}
    {t : Placed Token} (hread : ∀ {right : Reading Expr ts}, read ts = .ok right → Derived d nt right)
    {s : Reading Expr (t :: ts)}
    (h : (read ts).map (fun r => (r.map (.binary op left)).preceded t) = .ok s) :
    ∃ vs b, plain ts = vs ++ plain s.rest ∧ Derives d nt vs (plain s.rest) b ∧ s.value = .binary op left b := by
  obtain ⟨right, hright, rfl⟩ := Outcome.map_eq_ok.1 h
  obtain ⟨vs, hvs, hderives⟩ := hread hright
  exact ⟨vs, right.value, hvs, hderives, rfl⟩

/-- One more factor takes tokens after which the rest of the term may follow. -/
theorem factor_sound (hdeeper : deeper.Sound d) {left e : Expr} {s : Reading Expr ts}
    (h : factor f deeper left ts = some (.ok s)) {us next : List Token}
    (hrest : plain s.rest = us ++ next) (he : Derives d (.factors s.value) us next e) :
    ∃ front, plain ts = front ++ next ∧ Derives d (.factors left) front next e := by
  unfold factor at h
  split at h
  · obtain ⟨vs, b, hvs, hderives, hvalue⟩ := operator_sound (unary_sound hdeeper) (Option.some.inj h)
    rw [hrest] at hvs hderives
    exact ⟨.times :: (vs ++ us), by simp [hvs], .T_Times hderives (hvalue ▸ he)⟩
  · obtain ⟨vs, b, hvs, hderives, hvalue⟩ := operator_sound (unary_sound hdeeper) (Option.some.inj h)
    rw [hrest] at hvs hderives
    exact ⟨.divide :: (vs ++ us), by simp [hvs], .T_Divide hderives (hvalue ▸ he)⟩
  · split at h
    · rename_i t rest _ _ hbegins
      obtain ⟨right, hright, rfl⟩ := Outcome.map_eq_ok.1 (Option.some.inj h)
      obtain ⟨vs, hvs, hderives⟩ := power_sound hdeeper hright
      simp only [Reading.map_rest] at hrest
      cases vs with
      | nil =>
          have hlength := congrArg List.length hvs
          have hshorter := right.shorter
          simp only [length_plain, List.nil_append] at hlength
          omega
      | cons v vs =>
          obtain ⟨rfl, hvs⟩ := List.cons.inj hvs
          rw [hrest] at hderives
          exact ⟨t.token :: (vs ++ us), by simp [hvs, hrest], .T_Beside hbegins hderives he⟩
    · cases h
  · cases h

theorem factors_sound (hdeeper : deeper.Sound d) {r' : Reading Expr ts}
    (h : r.extend (factor f deeper) = .ok r') :
    ∃ front, plain r.rest = front ++ plain r'.rest ∧
      Derives d (.factors r.value) front (plain r'.rest) r'.value := by
  fun_induction Reading.extend (factor f deeper) r with
  | case1 r hnone =>
      cases h
      exact ⟨[], rfl, .T_End⟩
  | case2 r e herror => cases h
  | case3 r s hs ih =>
      obtain ⟨us, hus, hderives⟩ := ih h
      exact factor_sound hdeeper hs hus hderives

theorem term_sound (hdeeper : deeper.Sound d) (h : term f deeper ts = .ok r) :
    Derived d .term r := by
  obtain ⟨first, hfirst, h⟩ := Outcome.bind_eq_ok.1 h
  obtain ⟨front, hfront, hderives⟩ := unary_sound hdeeper hfirst
  obtain ⟨us, hus, hfactors⟩ := factors_sound hdeeper h
  rw [hus] at hfront hderives
  exact ⟨front ++ us, by simp [hfront], .T_First hderives hfactors⟩

theorem summand_sound (hdeeper : deeper.Sound d) {left e : Expr} {s : Reading Expr ts}
    (h : summand f deeper left ts = some (.ok s)) {us next : List Token}
    (hrest : plain s.rest = us ++ next) (he : Derives d (.summands s.value) us next e) :
    ∃ front, plain ts = front ++ next ∧ Derives d (.summands left) front next e := by
  unfold summand at h
  split at h
  · obtain ⟨vs, b, hvs, hderives, hvalue⟩ := operator_sound (term_sound hdeeper) (Option.some.inj h)
    rw [hrest] at hvs hderives
    exact ⟨.plus :: (vs ++ us), by simp [hvs], .S_Plus hderives (hvalue ▸ he)⟩
  · obtain ⟨vs, b, hvs, hderives, hvalue⟩ := operator_sound (term_sound hdeeper) (Option.some.inj h)
    rw [hrest] at hvs hderives
    exact ⟨.minus :: (vs ++ us), by simp [hvs], .S_Minus hderives (hvalue ▸ he)⟩
  · cases h

theorem summands_sound (hdeeper : deeper.Sound d) {r' : Reading Expr ts}
    (h : r.extend (summand f deeper) = .ok r') :
    ∃ front, plain r.rest = front ++ plain r'.rest ∧
      Derives d (.summands r.value) front (plain r'.rest) r'.value := by
  fun_induction Reading.extend (summand f deeper) r with
  | case1 r hnone =>
      cases h
      exact ⟨[], rfl, .S_End⟩
  | case2 r e herror => cases h
  | case3 r s hs ih =>
      obtain ⟨us, hus, hderives⟩ := ih h
      exact summand_sound hdeeper hs hus hderives

theorem sum_sound (hdeeper : deeper.Sound d) (h : sum f deeper ts = .ok r) : Derived d .sum r := by
  obtain ⟨first, hfirst, h⟩ := Outcome.bind_eq_ok.1 h
  obtain ⟨front, hfront, hderives⟩ := term_sound hdeeper hfirst
  obtain ⟨us, hus, hsummands⟩ := summands_sound hdeeper h
  rw [hus] at hfront hderives
  exact ⟨front ++ us, by simp [hfront], .S_First hderives hsummands⟩

/-! ## Nesting -/

/-- The readers with `d` levels of nesting left. -/
def deeperAt (f : Frame) (d : Nat) : Deeper :=
  ⟨nested f d .expression, nested f d .unary, exponent f d⟩

theorem deeperAt_sound (f : Frame) (d : Nat) : (deeperAt f d).Sound d := by
  induction d with
  | zero => exact ⟨nofun, nofun, exponent_sound⟩
  | succ d ih =>
      exact ⟨fun h => ⟨d, rfl, sum_sound ih h⟩, fun h => ⟨d, rfl, unary_sound ih h⟩, exponent_sound⟩

theorem nested_sound (h : nested f (d + 1) .expression ts = .ok r) : Derived d .sum r :=
  sum_sound (deeperAt_sound f d) h

end Latex

end ExactAlgebra
