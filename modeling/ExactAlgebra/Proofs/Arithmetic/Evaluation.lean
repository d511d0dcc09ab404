import ExactAlgebra.Proofs.Arithmetic.Grammar
import ExactAlgebra.Proofs.Latex.Completeness

/-!
# Evaluation is the grammar

A calculation is evaluated while it is read. What the readers answer is the value of a derived calculation, and a
derived calculation is read to its end, or up to the first division by zero.
-/

namespace ExactAlgebra.Arithmetic

theorem divide_eq_compute (a b : Rat) :
    (Rational.divide a b).mapError Error.ofRational = Operator.div.compute a b := by
  unfold Rational.divide Operator.compute
  split <;> rfl

/-- The readers with `d` levels of nesting left. -/
def deeperAt (limit stop d : Nat) : Deeper := ⟨nested limit stop d .sum, nested limit stop d .unary⟩

variable {limit stop d : Nat} {deeper : Deeper} {ts : Tokens}

/-! ## Soundness -/

/-- The tokens that a reading took derive a calculation with the value that it answers. -/
def Derived (d : Nat) (nt : Nonterminal) (r : Reading Rat ts) : Prop :=
  ∃ front c, plain ts = front ++ plain r.rest ∧ Derives d nt front c ∧ c.value = .ok r.value

/-- The readers of the next level of nesting answer what has a derivation with one level less. -/
structure Deeper.Sound (deeper : Deeper) (d : Nat) : Prop where
  sum : ∀ {us} {s : Reading Rat us}, deeper.sum us = .ok s → ∃ d', d = d' + 1 ∧ Derived d' .sum s
  unary : ∀ {us} {s : Reading Rat us}, deeper.unary us = .ok s → ∃ d', d = d' + 1 ∧ Derived d' .unary s

/-- What a loop of continuations answers extends the calculation on its left, because each of its turns does. -/
theorem extend_sound {continuation : Continuation Error (Placed Token) Rat} {nt : Calculation → Nonterminal}
    (hend : ∀ a, Derives d (nt a) [] a)
    (hstep : ∀ {ts : Tokens} {left : Rat} {a : Calculation} {s : Reading Rat ts}, a.value = .ok left →
      continuation left ts = some (.ok s) →
      ∃ front b, plain ts = front ++ plain s.rest ∧ b.value = .ok s.value ∧
        ∀ us c, Derives d (nt b) us c → Derives d (nt a) (front ++ us) c)
    {a : Calculation} {r r' : Reading Rat ts} (ha : a.value = .ok r.value) (h : r.extend continuation = .ok r') :
    ∃ front c, plain r.rest = front ++ plain r'.rest ∧ Derives d (nt a) front c ∧ c.value = .ok r'.value := by
  -- each turn puts the calculation so far on the left of the next one
  fun_induction Reading.extend continuation r generalizing a with
  | case1 r hnone =>
      cases h
      exact ⟨[], a, rfl, hend a, ha⟩
  | case2 r e herror => cases h
  | case3 r s hs ih =>
      obtain ⟨front, b, hfront, hb, hextend⟩ := hstep ha hs
      obtain ⟨us, c, hus, hderives, hvalue⟩ := ih hb h
      have hus : plain s.rest = us ++ plain _ := hus
      exact ⟨front ++ us, c, by rw [hfront, hus, List.append_assoc], hextend us c hderives, hvalue⟩

section Soundness

variable {r : Reading Rat ts} (hdeeper : deeper.Sound d)
include hdeeper

theorem atom_sound (h : atom stop deeper ts = .ok r) : Derived d .atom r := by
  unfold atom at h
  split at h
  · cases h
    exact ⟨_, _, rfl, .A_Literal, rfl⟩
  · obtain ⟨inside, hinside, h⟩ := Outcome.bind_eq_ok.1 h
    split at h
    · rename_i hrest
      cases h
      obtain ⟨d', rfl, front, c, hfront, hderives, hvalue⟩ := hdeeper.sum hinside
      exact ⟨_, _, by simp [hfront, hrest], .A_Paren hderives, hvalue⟩
    · cases h
  · cases h

theorem unary_sound (h : unary stop deeper ts = .ok r) : Derived d .unary r := by
  unfold unary at h
  split at h
  · obtain ⟨inner, hinner, rfl⟩ := Outcome.map_eq_ok.1 h
    obtain ⟨d', rfl, front, c, hfront, hderives, hvalue⟩ := hdeeper.unary hinner
    exact ⟨_, _, by simp [hfront], .U_Minus hderives, by simp [Calculation.value, hvalue]⟩
  · obtain ⟨inner, hinner, rfl⟩ := Outcome.map_eq_ok.1 h
    obtain ⟨d', rfl, front, c, hfront, hderives, hvalue⟩ := hdeeper.unary hinner
    exact ⟨_, _, by simp [hfront], .U_Plus hderives, hvalue⟩
  · obtain ⟨front, c, hfront, hderives, hvalue⟩ := atom_sound hdeeper h
    exact ⟨front, c, hfront, .U_Atom hderives, hvalue⟩

omit hdeeper in
/-- What an operator before a reading adds to the calculation on its left. -/
theorem operator_sound (op : Operator) {nt : Nonterminal} {read : ValueReader} {left : Rat} {g : Rat → Rat}
    {a : Calculation} {t : Placed Token} (hread : ∀ {right : Reading Rat ts}, read ts = .ok right → Derived d nt right)
    (hop : ∀ x, op.compute left x = .ok (g x)) (ha : a.value = .ok left) {s : Reading Rat (t :: ts)}
    (h : (read ts).map (fun r => (r.map g).preceded t) = .ok s) :
    ∃ vs b, plain ts = vs ++ plain s.rest ∧ Derives d nt vs b ∧ (Calculation.binary op a b).value = .ok s.value := by
  obtain ⟨right, hright, rfl⟩ := Outcome.map_eq_ok.1 h
  obtain ⟨vs, b, hvs, hderives, hvalue⟩ := hread hright
  refine ⟨vs, b, hvs, hderives, ?_⟩
  rw [Calculation.value_binary ha, hvalue]
  exact hop right.value

/-- One more factor makes a product or quotient to which the rest is added. -/
theorem factor_sound {left : Rat} {a : Calculation} {s : Reading Rat ts} (ha : a.value = .ok left)
    (h : factor stop deeper left ts = some (.ok s)) :
    ∃ front b, plain ts = front ++ plain s.rest ∧ b.value = .ok s.value ∧
      ∀ us c, Derives d (.factors b) us c → Derives d (.factors a) (front ++ us) c := by
  unfold factor at h
  split at h
  · obtain ⟨vs, b, hvs, hderives, hvalue⟩ :=
      operator_sound .mul (unary_sound hdeeper) (fun _ => rfl) ha (Option.some.inj h)
    exact ⟨.times :: vs, .binary .mul a b, by simp [hvs], hvalue, fun us c hc => .P_Times hderives hc⟩
  · obtain ⟨right, hright, h⟩ := Outcome.bind_eq_ok.1 (Option.some.inj h)
    obtain ⟨quotient, hquotient, h⟩ := Outcome.bind_eq_ok.1 h
    cases h
    obtain ⟨vs, b, hvs, hderives, hvalue⟩ := unary_sound hdeeper hright
    refine ⟨.divide :: vs, .binary .div a b, by simp [hvs], ?_, fun us c hc => .P_Divide hderives hc⟩
    rw [Calculation.value_binary ha, hvalue, Outcome.ok_bind, ← divide_eq_compute]
    exact hquotient
  · obtain ⟨right, hright, rfl⟩ := Outcome.map_eq_ok.1 (Option.some.inj h)
    obtain ⟨vs, b, hvs, hderives, hvalue⟩ := atom_sound hdeeper hright
    cases vs with
    | nil => cases hderives
    | cons v vs =>
        obtain ⟨rfl, hvs⟩ := List.cons.inj hvs
        refine ⟨.openParen :: vs, .binary .mul a b, by simp [hvs], ?_, fun us c hc => .P_Beside hderives hc⟩
        rw [Calculation.value_binary ha, hvalue]
        rfl
  · cases h

theorem product_sound (h : product stop deeper ts = .ok r) : Derived d .product r := by
  obtain ⟨first, hfirst, h⟩ := Outcome.bind_eq_ok.1 h
  obtain ⟨front, a, hfront, hderives, hvalue⟩ := unary_sound hdeeper hfirst
  obtain ⟨us, c, hus, hfactors, hc⟩ := extend_sound (fun _ => .P_End) (factor_sound hdeeper) hvalue h
  exact ⟨front ++ us, c, by simp [hfront, hus], .P_First hderives hfactors, hc⟩

/-- One more summand makes a sum or difference to which the rest is added. -/
theorem summand_sound {left : Rat} {a : Calculation} {s : Reading Rat ts} (ha : a.value = .ok left)
    (h : summand stop deeper left ts = some (.ok s)) :
    ∃ front b, plain ts = front ++ plain s.rest ∧ b.value = .ok s.value ∧
      ∀ us c, Derives d (.summands b) us c → Derives d (.summands a) (front ++ us) c := by
  unfold summand at h
  split at h
  · obtain ⟨vs, b, hvs, hderives, hvalue⟩ :=
      operator_sound .add (product_sound hdeeper) (fun _ => rfl) ha (Option.some.inj h)
    exact ⟨.plus :: vs, .binary .add a b, by simp [hvs], hvalue, fun us c hc => .S_Plus hderives hc⟩
  · obtain ⟨vs, b, hvs, hderives, hvalue⟩ :=
      operator_sound .sub (product_sound hdeeper) (fun _ => rfl) ha (Option.some.inj h)
    exact ⟨.minus :: vs, .binary .sub a b, by simp [hvs], hvalue, fun us c hc => .S_Minus hderives hc⟩
  · cases h

theorem sum_sound (h : sum stop deeper ts = .ok r) : Derived d .sum r := by
  obtain ⟨first, hfirst, h⟩ := Outcome.bind_eq_ok.1 h
  obtain ⟨front, a, hfront, hderives, hvalue⟩ := product_sound hdeeper hfirst
  obtain ⟨us, c, hus, hsummands, hc⟩ := extend_sound (fun _ => .S_End) (summand_sound hdeeper) hvalue h
  exact ⟨front ++ us, c, by simp [hfront, hus], .S_First hderives hsummands, hc⟩

end Soundness

theorem deeperAt_sound (limit stop d : Nat) : (deeperAt limit stop d).Sound d := by
  induction d with
  | zero => exact ⟨nofun, nofun⟩
  | succ d ih => exact ⟨fun h => ⟨d, rfl, sum_sound ih h⟩, fun h => ⟨d, rfl, unary_sound ih h⟩⟩

/-! ## What may come next -/

/-- A product may go on with the token. -/
def Token.continuesProduct : Token → Bool
  | times | divide | openParen => true
  | _ => false

/-- A sum may go on with the token. -/
def Token.continuesSum : Token → Bool
  | plus | minus => true
  | t => t.continuesProduct

variable {next : List Token}

theorem stops_product_of_sum (h : Stops Token.continuesSum next) : Stops Token.continuesProduct next := by
  intro t ht
  have := h t ht
  cases t <;> first | rfl | exact this

theorem Derives.stops_product {us : List Token} {a c : Calculation} (h : Derives d (.summands a) us c)
    (hnext : Stops Token.continuesSum next) : Stops Token.continuesProduct (us ++ next) := by
  cases h with
  | S_End => exact stops_product_of_sum hnext
  | S_Plus | S_Minus => exact stops_cons rfl

theorem factor_eq_none {left : Rat} (h : Stops Token.continuesProduct (plain ts)) :
    factor stop deeper left ts = none := by
  unfold factor
  split
  · cases h _ rfl
  · cases h _ rfl
  · cases h _ rfl
  · rfl

theorem summand_eq_none {left : Rat} (h : Stops Token.continuesSum (plain ts)) :
    summand stop deeper left ts = none := by
  unfold summand
  split
  · cases h _ rfl
  · cases h _ rfl
  · rfl

/-! ## Completeness -/

/-- The reader answers the value and leaves the tokens `next`, or it fails where there is no value. -/
def Evaluates (answer : Except Error (Reading Rat ts)) (next : List Token) : Except Error Rat → Prop
  | .ok v => ∃ r, answer = .ok r ∧ plain r.rest = next ∧ r.value = v
  | .error e => answer = .error e

section Evaluates

variable {us : Tokens} {answer : Except Error (Reading Rat ts)} {value : Except Error Rat} {mid : List Token}
  {g : Rat → Except Error Rat}

theorem Evaluates.bind {f : Reading Rat ts → Except Error (Reading Rat us)} (h : Evaluates answer mid value)
    (hf : ∀ r, plain r.rest = mid → Evaluates (f r) next (g r.value)) :
    Evaluates (answer >>= f) next (value >>= g) := by
  cases value with
  | error e =>
      obtain rfl : answer = .error e := h
      rfl
  | ok v =>
      obtain ⟨r, rfl, hrest, rfl⟩ := h
      exact hf r hrest

/-- What is read first decides, if it has no value, or else what is read after it. -/
theorem Evaluates.andThen {b c : Calculation} {f : Reading Rat ts → Except Error (Reading Rat us)}
    (h : Evaluates answer mid b.value) (herror : ∀ e, b.value = .error e → c.value = .error e)
    (hok : ∀ r, plain r.rest = mid → b.value = .ok r.value → Evaluates (f r) next c.value) :
    Evaluates (answer >>= f) next c.value := by
  cases hb : b.value with
  | error e =>
      rw [hb] at h
      obtain rfl : answer = .error e := h
      rw [herror e hb]
      rfl
  | ok v =>
      rw [hb] at h
      obtain ⟨r, rfl, hmid, rfl⟩ := h
      exact hok r hmid hb

theorem Evaluates.map {f : Reading Rat ts → Reading Rat us} (h : Evaluates answer mid value)
    (hf : ∀ r, plain r.rest = mid → g r.value = .ok (f r).value ∧ plain (f r).rest = next) :
    Evaluates (answer.map f) next (value >>= g) := by
  cases value with
  | error e =>
      obtain rfl : answer = .error e := h
      rfl
  | ok v =>
      obtain ⟨r, rfl, hrest, rfl⟩ := h
      obtain ⟨hvalue, hnext⟩ := hf r hrest
      rw [Outcome.ok_bind, hvalue]
      exact ⟨f r, rfl, hnext, rfl⟩

end Evaluates

theorem atom_complete_paren {us : List Token} {value : Except Error Rat}
    (hsum : ∀ ts, plain ts = us ++ .closeParen :: next → Evaluates (deeper.sum ts) (.closeParen :: next) value)
    (h : plain ts = .openParen :: (us ++ .closeParen :: next)) : Evaluates (atom stop deeper ts) next value := by
  obtain ⟨⟨_, o⟩, rest, rfl, rfl, hrest⟩ := List.map_eq_cons_iff.1 h
  rw [← bind_pure value]
  refine (hsum rest hrest).bind fun inside hinside => ?_
  split
  · rename_i after hafter
    rw [hafter] at hinside
    exact ⟨_, rfl, (List.cons.inj hinside).2, rfl⟩
  · rename_i hne
    obtain ⟨⟨_, o⟩, after, hafter, rfl, _⟩ := List.map_eq_cons_iff.1 hinside
    exact absurd hafter (hne o after)

theorem unary_complete_minus {us : List Token} {a : Calculation}
    (ha : ∀ ts, plain ts = us → Evaluates (deeper.unary ts) next a.value) (h : plain ts = .minus :: us) :
    Evaluates (unary stop deeper ts) next (Calculation.negate a).value := by
  obtain ⟨⟨_, o⟩, rest, rfl, rfl, hrest⟩ := List.map_eq_cons_iff.1 h
  exact (ha rest hrest).map fun r hr => ⟨rfl, hr⟩

theorem unary_complete_plus {us : List Token} {a : Calculation}
    (ha : ∀ ts, plain ts = us → Evaluates (deeper.unary ts) next a.value) (h : plain ts = .plus :: us) :
    Evaluates (unary stop deeper ts) next a.value := by
  obtain ⟨⟨_, o⟩, rest, rfl, rfl, hrest⟩ := List.map_eq_cons_iff.1 h
  rw [← bind_pure a.value]
  exact (ha rest hrest).map fun r hr => ⟨rfl, hr⟩

theorem unary_complete_atom {us : List Token} {a : Calculation} (ha : Derives d .atom us a)
    (h : plain ts = us ++ next) : unary stop deeper ts = atom stop deeper ts := by
  unfold unary
  split
  · cases ha <;> cases h
  · cases ha <;> cases h
  · rfl

/-- The continuation goes on to the value, or to its error, and leaves the tokens `next`. -/
def Continues (step : Option (Except Error (Reading Rat ts))) (next : List Token) (value : Except Error Rat) : Prop :=
  ∃ answer, step = some answer ∧ Evaluates answer next value

theorem extend_eq_bind {continuation : Continuation Error (Placed Token) Rat} {r : Reading Rat ts}
    {answer : Except Error (Reading Rat r.rest)} (h : continuation r.value r.rest = some answer) :
    r.extend continuation = answer >>= fun s => (r.followedBy s).extend continuation := by
  rw [Reading.extend, h]
  cases answer <;> rfl

theorem extend_complete {continuation : Continuation Error (Placed Token) Rat} {r : Reading Rat ts} {b c : Calculation}
    {mid : List Token} (hstep : Continues (continuation r.value r.rest) mid b.value)
    (herror : ∀ e, b.value = .error e → c.value = .error e)
    (hok : ∀ s : Reading Rat ts, plain s.rest = mid → b.value = .ok s.value →
      Evaluates (s.extend continuation) next c.value) :
    Evaluates (r.extend continuation) next c.value := by
  obtain ⟨answer, hstep, hanswer⟩ := hstep
  rw [extend_eq_bind hstep]
  exact hanswer.andThen herror fun s hmid hb => hok _ hmid hb

/-- The sign of an operator. -/
@[simp] def operatorToken : Operator → Token
  | .add => .plus
  | .sub => .minus
  | .mul => .times
  | .div => .divide

/-- What is read on the right of an operator. -/
def operand (stop : Nat) (deeper : Deeper) : Operator → ValueReader
  | .add | .sub => product stop deeper
  | .mul | .div => unary stop deeper

/-- The continuation that takes an operator with what is on its right. -/
def operation (stop : Nat) (deeper : Deeper) : Operator → Continuation Error (Placed Token) Rat
  | .add | .sub => summand stop deeper
  | .mul | .div => factor stop deeper

section Steps

variable {us : List Token} {left : Rat} {a b : Calculation} (ha : a.value = .ok left)
include ha

theorem operation_complete (op : Operator)
    (hb : ∀ ts, plain ts = us → Evaluates (operand stop deeper op ts) next b.value)
    (h : plain ts = operatorToken op :: us) :
    Continues (operation stop deeper op left ts) next (Calculation.binary op a b).value := by
  obtain ⟨⟨_, o⟩, rest, rfl, rfl, hrest⟩ := List.map_eq_cons_iff.1 h
  rw [Calculation.value_binary ha]
  cases op with
  | add | sub | mul => exact ⟨_, rfl, (hb rest hrest).map fun r hr => ⟨rfl, hr⟩⟩
  | div =>
      -- the quotient itself may be without a value
      refine ⟨_, rfl, (hb rest hrest).bind fun r hr => ?_⟩
      rw [← divide_eq_compute]
      cases (Rational.divide left r.value).mapError Error.ofRational with
      | error e => rfl
      | ok v => exact ⟨_, rfl, hr, rfl⟩

theorem factor_complete_beside (hb : Evaluates (atom stop deeper ts) next b.value) (h : plain ts = .openParen :: us) :
    Continues (factor stop deeper left ts) next (Calculation.binary .mul a b).value := by
  obtain ⟨⟨_, o⟩, rest, rfl, rfl, hrest⟩ := List.map_eq_cons_iff.1 h
  rw [Calculation.value_binary ha]
  exact ⟨_, rfl, hb.map fun r hr => ⟨rfl, hr⟩⟩

end Steps

/-! ## Derivations -/

/-- Before any `next`, the reader for the nonterminal evaluates the calculation from the tokens `us`. -/
def Complete (limit stop d : Nat) (us : List Token) (c : Calculation) : Nonterminal → Prop
  | .sum => ∀ {next}, Stops Token.continuesSum next → ∀ ts, plain ts = us ++ next →
      Evaluates (sum stop (deeperAt limit stop d) ts) next c.value
  | .summands a => ∀ {next}, Stops Token.continuesSum next → ∀ {ts} (r : Reading Rat ts), plain r.rest = us ++ next →
      a.value = .ok r.value → Evaluates (r.extend (summand stop (deeperAt limit stop d))) next c.value
  | .product => ∀ {next}, Stops Token.continuesProduct next → ∀ ts, plain ts = us ++ next →
      Evaluates (product stop (deeperAt limit stop d) ts) next c.value
  | .factors a => ∀ {next}, Stops Token.continuesProduct next → ∀ {ts} (r : Reading Rat ts),
      plain r.rest = us ++ next → a.value = .ok r.value →
      Evaluates (r.extend (factor stop (deeperAt limit stop d))) next c.value
  | .unary => ∀ {next} ts, plain ts = us ++ next → Evaluates (unary stop (deeperAt limit stop d) ts) next c.value
  | .atom => ∀ {next} ts, plain ts = us ++ next → Evaluates (atom stop (deeperAt limit stop d) ts) next c.value

/-- What has a derivation is evaluated. -/
theorem Derives.complete {nt : Nonterminal} {us : List Token} {c : Calculation} (h : Derives d nt us c) :
    Complete limit stop d us c nt := by
  -- a division by zero on the left ends the reading early, but the calculation around it has the same error
  induction h with
  | S_First _ hrest iha ihc =>
      intro next hnext ts hts
      exact (iha (hrest.stops_product hnext) ts (by simpa using hts)).andThen
        (fun e he => hrest.value_eq_error (.inl rfl) he) (ihc hnext)
  | S_End =>
      intro next hnext ts r hr ha
      rw [ha]
      exact ⟨r, Reading.extend_of_none (summand_eq_none (hr ▸ hnext)), hr, rfl⟩
  | S_Plus _ hrest ihb ihc =>
      intro next hnext ts r hr ha
      exact extend_complete (operation_complete ha .add (ihb (hrest.stops_product hnext)) (by simpa using hr))
        (fun e he => hrest.value_eq_error (.inl rfl) he) (fun s => ihc hnext s)
  | S_Minus _ hrest ihb ihc =>
      intro next hnext ts r hr ha
      exact extend_complete (operation_complete ha .sub (ihb (hrest.stops_product hnext)) (by simpa using hr))
        (fun e he => hrest.value_eq_error (.inl rfl) he) (fun s => ihc hnext s)
  | P_First _ hrest iha ihc =>
      intro next hnext ts hts
      exact (iha ts (by simpa using hts)).andThen (fun e he => hrest.value_eq_error (.inr rfl) he) (ihc hnext)
  | P_End =>
      intro next hnext ts r hr ha
      rw [ha]
      exact ⟨r, Reading.extend_of_none (factor_eq_none (hr ▸ hnext)), hr, rfl⟩
  | P_Times _ hrest ihb ihc =>
      intro next hnext ts r hr ha
      exact extend_complete (operation_complete ha .mul ihb (by simpa using hr))
        (fun e he => hrest.value_eq_error (.inr rfl) he) (fun s => ihc hnext s)
  | P_Divide _ hrest ihb ihc =>
      intro next hnext ts r hr ha
      exact extend_complete (operation_complete ha .div ihb (by simpa using hr))
        (fun e he => hrest.value_eq_error (.inr rfl) he) (fun s => ihc hnext s)
  | P_Beside _ hrest ihb ihc =>
      intro next hnext ts r hr ha
      exact extend_complete (factor_complete_beside ha (ihb r.rest (by simpa using hr)) (by simpa using hr))
        (fun e he => hrest.value_eq_error (.inr rfl) he) (fun s => ihc hnext s)
  | U_Minus _ iha => exact fun ts hts => unary_complete_minus iha hts
  | U_Plus _ iha => exact fun ts hts => unary_complete_plus iha hts
  | U_Atom ha iha =>
      intro next ts hts
      rw [unary_complete_atom ha hts]
      exact iha ts hts
  | A_Literal =>
      intro next ts hts
      obtain ⟨⟨_, o⟩, rest, rfl, rfl, hrest⟩ := List.map_eq_cons_iff.1 hts
      exact ⟨.first _ rest, rfl, hrest, rfl⟩
  | A_Paren _ iha => exact fun ts hts => atom_complete_paren (iha (stops_cons rfl)) (by simpa using hts)

/-! ## Texts -/

theorem Derives.ne_nil {nt : Nonterminal} {us : List Token} {c : Calculation} (h : Derives d nt us c)
    (hnt : ∀ a, nt ≠ .summands a ∧ nt ≠ .factors a) : us ≠ [] := by
  induction h with
  | S_First _ _ iha | P_First _ _ iha => exact List.append_ne_nil_of_left_ne_nil (iha (by simp)) _
  | U_Atom _ iha => exact iha (by simp)
  | S_End => exact absurd rfl (hnt _).1
  | P_End => exact absurd rfl (hnt _).2
  | _ => simp

theorem valueOf_eq {value : Except Error Rat} (h : Evaluates (sum stop (deeperAt limit stop limit) ts) [] value) :
    valueOf limit stop ts = value := by
  change (sum stop (deeperAt limit stop limit) ts >>= _) = value
  cases value with
  | error e =>
      obtain h : sum stop (deeperAt limit stop limit) ts = .error e := h
      rw [h]
      rfl
  | ok v =>
      obtain ⟨r, hr, hrest, rfl⟩ := h
      simp [hr, List.map_eq_nil_iff.1 hrest]

/-- A text whose tokens derive a calculation has the outcome of the calculation. -/
theorem evaluate_eq_value {limits : Limits} {text : List Char} {c : Calculation} (hts : tokenize text = .ok ts)
    (h : Derives limits.maxDepth.toNat .sum (plain ts) c) : evaluate limits text = c.value := by
  have hne : ¬ ts.isEmpty := fun hempty => h.ne_nil (by simp) (by rw [List.isEmpty_iff.1 hempty]; rfl)
  rw [evaluate, hts, Outcome.ok_bind, if_neg hne]
  exact valueOf_eq (h.complete (by simp [Stops]) ts (List.append_nil _).symm)

/-- A text evaluates to a number just when its tokens derive a calculation with that value. -/
theorem evaluate_eq_ok_iff {limits : Limits} {text : List Char} {v : Rat} : evaluate limits text = .ok v ↔
    ∃ ts c, tokenize text = .ok ts ∧ Derives limits.maxDepth.toNat .sum (plain ts) c ∧ c.value = .ok v := by
  constructor
  · intro h
    obtain ⟨ts, hts, h⟩ := Outcome.bind_eq_ok.1 h
    split at h
    · cases h
    · obtain ⟨r, hr, h⟩ := Outcome.bind_eq_ok.1 h
      split at h
      · rename_i hempty
        cases h
        obtain ⟨front, c, hfront, hderives, hvalue⟩ := sum_sound (deeperAt_sound _ _ _) hr
        have hts' : plain ts = front := by simpa [List.isEmpty_iff.1 hempty] using hfront
        exact ⟨ts, c, hts, hts' ▸ hderives, hvalue⟩
      · cases h
  · rintro ⟨ts, c, hts, hderives, hvalue⟩
    rw [evaluate_eq_value hts hderives, hvalue]

end ExactAlgebra.Arithmetic
