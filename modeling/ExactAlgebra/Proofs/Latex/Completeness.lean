import ExactAlgebra.Proofs.Latex.Soundness

/-!
# Completeness of the readers

A list of tokens that has a derivation is read to its end, provided that the token after it is none with which
the reader would go on. Inside an expression the grammar itself sees to that.
-/

namespace ExactAlgebra

namespace Reading

variable {ε τ α : Type} {input : List τ} {next : Continuation ε τ α} {r : Reading α input}

theorem extendOnce_of_none (h : next r.value r.rest = none) : r.extendOnce next = .ok r := by
  rw [extendOnce, h]

theorem extendOnce_of_ok {s : Reading α r.rest} (h : next r.value r.rest = some (.ok s)) :
    r.extendOnce next = .ok (r.followedBy s) := by
  rw [extendOnce, h]
  rfl

theorem extend_of_none (h : next r.value r.rest = none) : r.extend next = .ok r := by
  rw [extend, h]

theorem extend_of_ok {s : Reading α r.rest} (h : next r.value r.rest = some (.ok s)) :
    r.extend next = (r.followedBy s).extend next := by
  rw [extend, h]

end Reading

/-- The first item, if there is one, does not satisfy `p`. -/
def Stops {τ : Type} (p : τ → Bool) (next : List τ) : Prop := ∀ t ∈ next.head?, p t = false

theorem Stops.mono {τ : Type} {p q : τ → Bool} {next : List τ} (h : Stops q next)
    (hpq : ∀ t, q t = false → p t = false) : Stops p next := fun t ht => hpq t (h t ht)

theorem stops_cons {τ : Type} {p : τ → Bool} {t : τ} {next : List τ} (h : p t = false) : Stops p (t :: next) := by
  intro u hu
  obtain rfl : t = u := by simpa using hu
  exact h

namespace Latex

variable {f : Frame} {ts : Tokens} {next : List Token}

/-- The reader answers the value `v` and leaves the tokens `next`. -/
def Reads {α : Type} {ts : Tokens} (answer : Except Error (Reading α ts)) (next : List Token) (v : α) :
    Prop :=
  ∃ r, answer = .ok r ∧ plain r.rest = next ∧ r.value = v

/-! ## What may come next -/

/-- A power may go on with the token. -/
def Token.continuesPower (t : Token) : Bool := t = .caret

/-- A term may go on with the token. -/
def Token.continuesTerm (t : Token) : Bool :=
  t.continuesPower || t.beginsFactor || t = .times || t = .divide

/-- A sum may go on with the token. -/
def Token.continuesSum (t : Token) : Bool := t.continuesTerm || t = .plus || t = .minus

theorem stops_term_of_sum (h : Stops Token.continuesSum next) : Stops Token.continuesTerm next :=
  h.mono fun t ht => by simp_all [Token.continuesSum]

theorem stops_power_of_term (h : Stops Token.continuesTerm next) : Stops Token.continuesPower next :=
  h.mono fun t ht => by simp_all [Token.continuesTerm]

theorem continuesPower_of_beginsFactor {t : Token} (h : t.beginsFactor) : t.continuesPower = false := by
  cases t <;> first | rfl | cases h

theorem Derives.stops_power {d : Nat} {a e : Expr} {us : List Token}
    (h : Derives d (.factors a) us next e) (hnext : Stops Token.continuesTerm next) :
    Stops Token.continuesPower (us ++ next) := by
  cases h with
  | T_End => exact stops_power_of_term hnext
  | T_Times | T_Divide => exact stops_cons rfl
  | T_Beside ht => exact stops_cons (continuesPower_of_beginsFactor ht)

theorem Derives.stops_term {d : Nat} {a e : Expr} {us : List Token}
    (h : Derives d (.summands a) us next e) (hnext : Stops Token.continuesSum next) :
    Stops Token.continuesTerm (us ++ next) := by
  cases h with
  | S_End => exact stops_term_of_sum hnext
  | S_Plus | S_Minus => exact stops_cons rfl

/-! ## Single tokens and exponents -/

theorem expect_complete (f : Frame) {token : Token} (expected : Expected) (h : plain ts = token :: next) :
    Reads (f.expect token expected ts) next () := by
  obtain ⟨o, rest, rfl, hrest⟩ := plain_eq_cons h
  exact ⟨.first () rest, by simp [Frame.expect], hrest, rfl⟩

theorem bracedExponent_complete (f : Frame) (negative : Bool) {n : Numeral} (hn : n.isInteger)
    (h : plain ts = .number n :: .closeBrace :: next) :
    Reads (bracedExponent f negative ts) next (negative, n.digitsValue) := by
  obtain ⟨o, rest, rfl, hrest⟩ := plain_eq_cons h
  obtain ⟨closed, hclosed, hnext, _⟩ := expect_complete f .exponentEnd hrest
  refine ⟨(closed.map fun _ => (negative, n.digitsValue)).preceded ⟨.number n, o⟩, ?_, hnext, rfl⟩
  simp only [bracedExponent, hn, hclosed, if_true]
  rfl

theorem exponentDigits_complete (f : Frame) {front : List Token} {n : Int} (hn : ExponentLiteral front n)
    (h : plain ts = front ++ next) :
    ∃ r, exponentDigits f ts = .ok r ∧ plain r.rest = next ∧ r.value.2 ≤ maxExponent ∧
      signedExponent r.value = n := by
  cases hn with
  | @X_Bare n hn hmax =>
      obtain ⟨o, rest, rfl, hrest⟩ := plain_eq_cons h
      exact ⟨.first (false, n.digitsValue) rest, by simp [exponentDigits, hn], hrest, hmax, rfl⟩
  | X_Braced hn hmax =>
      obtain ⟨o, us, rfl, hus⟩ := plain_eq_cons h
      obtain ⟨digits, hdigits, hrest, hvalue⟩ := bracedExponent_complete f false hn hus
      obtain ⟨_, _, rfl, _⟩ := plain_eq_cons hus
      refine ⟨digits.preceded ⟨.openBrace, o⟩, ?_, hrest, ?_⟩
      · simp only [exponentDigits, hdigits, Outcome.map_ok]
      · simp [hvalue, hmax, signedExponent]
  | X_Negative hn hmax =>
      obtain ⟨o, us, rfl, hus⟩ := plain_eq_cons h
      obtain ⟨o', vs, rfl, hvs⟩ := plain_eq_cons hus
      obtain ⟨digits, hdigits, hrest, hvalue⟩ := bracedExponent_complete f true hn hvs
      refine ⟨(digits.preceded ⟨.minus, o'⟩).preceded ⟨.openBrace, o⟩, ?_, hrest, ?_⟩
      · simp only [exponentDigits, hdigits, Outcome.map_ok]
      · simp [hvalue, hmax, signedExponent]

theorem exponentLiteral_complete (f : Frame) {front : List Token} {n : Int} (hn : ExponentLiteral front n)
    (h : plain ts = front ++ next) : Reads (exponentLiteral f ts) next n := by
  obtain ⟨digits, hdigits, hrest, hmax, hvalue⟩ := exponentDigits_complete f hn h
  refine ⟨digits.map signedExponent, ?_, hrest, hvalue⟩
  simp only [exponentLiteral, hdigits, Outcome.ok_bind, if_pos hmax]
  rfl

theorem exponentAbove_literal {upper : TokenReader Int} {us : List Token} {n : Int}
    (hn : ExponentLiteral us n) (hnext : Stops Token.continuesPower next) (h : plain ts = us ++ next) :
    Reads (exponentAbove f upper ts) next n := by
  obtain ⟨⟨value, rest, hshorter⟩, hliteral, rfl, hvalue⟩ := exponentLiteral_complete f hn h
  refine ⟨⟨value, rest, hshorter⟩, ?_, rfl, hvalue⟩
  simp only [exponentAbove, hliteral, Outcome.ok_bind]
  refine Reading.extendOnce_of_none ?_
  simp only
  split
  · cases hnext _ rfl
  · rfl

theorem exponentAbove_raised {upper : TokenReader Int} {us vs : List Token} {n m : Int}
    (hn : ExponentLiteral us n) (hupper : ∀ ts, plain ts = vs ++ next → Reads (upper ts) next m)
    (hm : 0 ≤ m ∧ m < 4294967296) (hword : isWord64 (n ^ m.toNat))
    (h : plain ts = us ++ .caret :: (vs ++ next)) :
    Reads (exponentAbove f upper ts) next (n ^ m.toNat) := by
  obtain ⟨⟨value, rest, hshorter⟩, hliteral, hrest, rfl⟩ := exponentLiteral_complete f hn h
  obtain ⟨o, ws, rfl, hws⟩ := plain_eq_cons hrest
  obtain ⟨above, habove, hnext, rfl⟩ := hupper ws hws
  have hraise : raise f (f.position ts) value above.value = .ok (value ^ above.value.toNat) :=
    raise_eq_ok_iff.2 ⟨hm, hword, rfl⟩
  simp only [exponentAbove, hliteral, Outcome.ok_bind]
  rw [Reading.extendOnce_of_ok
    (s := (above.map fun _ => value ^ above.value.toNat).preceded ⟨.caret, o⟩)]
  · exact ⟨_, rfl, hnext, rfl⟩
  · simp only [habove, Outcome.ok_bind, hraise]
    rfl

theorem exponent_complete {d : Nat} {us : List Token} {n : Int} (hn : Exponent d us n)
    (hnext : Stops Token.continuesPower next) (h : plain ts = us ++ next) :
    Reads (exponent f d ts) next n := by
  induction hn generalizing ts next with
  | @X_Literal d us n hn =>
      cases d with
      | zero => exact exponentAbove_literal hn hnext h
      | succ d => exact exponentAbove_literal hn hnext h
  | X_Raised hn _ hm hm' hw ih =>
      exact exponentAbove_raised hn (fun ts hts => ih hnext hts) ⟨hm, hm'⟩ hw (by simpa using h)

/-! ## Atoms -/

theorem argument_complete (f : Frame) {α : Type} (first last : Expected) {read : TokenReader α}
    {front : List Token} {v : α}
    (hread : ∀ ts, plain ts = front ++ .closeBrace :: next → Reads (read ts) (.closeBrace :: next) v)
    (h : plain ts = .openBrace :: (front ++ .closeBrace :: next)) :
    ∃ r, f.argument first last read ts = .ok r ∧ plain r.rest = next ∧ r.value.value = v ∧
      plain r.value.tokens = front := by
  obtain ⟨opened, hopened, hus, _⟩ := expect_complete f first h
  obtain ⟨inside, hinside, hclose, rfl⟩ := hread opened.rest hus
  obtain ⟨closed, hclosed, hnext, _⟩ := expect_complete f last hclose
  refine ⟨((opened.followedBy inside).followedBy closed).map fun _ => ⟨inside.value, inside.taken⟩,
    ?_, ?_, ?_, ?_⟩
  · simp only [Frame.argument, hopened, hinside, hclosed, Outcome.ok_bind]
    rfl
  · exact hnext
  · rfl
  · exact plain_taken (hus.trans (by rw [hclose]))

variable {d : Nat} {deeper : Deeper}

theorem number_complete {n : Numeral} (hscalable : n.isScalable)
    (hn : ¬ (n.isInteger ∧ BeginsLiteralFraction next)) (h : plain ts = .number n :: next) : Reads (atom f deeper ts) next (.num n.value) := by
  obtain ⟨o, rest, rfl, hrest⟩ := plain_eq_cons h
  have hnone : afterNumeral n n.value rest = none := by
    unfold afterNumeral
    split
    · rename_i hinteger
      cases hread : LiteralFraction.read? rest with
      | none => rfl
      | some part =>
          obtain ⟨p, q, hp, hq, hts, _⟩ := literalFraction_sound hread
          exact absurd ⟨hinteger, p, q, _, hp, hq, hrest ▸ hts⟩ hn
    · rfl
  refine ⟨(Reading.first n.value rest).map .num, ?_, hrest, rfl⟩
  simp only [atom, hscalable, if_true]
  rw [Reading.extendOnce_of_none hnone]
  rfl

theorem mixed_complete {n p q : Numeral} (hn : n.isInteger) (hp : p.isInteger) (hq : q.isInteger)
    (hne : q.digitsValue ≠ 0) (h : plain ts = .number n :: (literalFraction p q ++ next)) :
    Reads (atom f deeper ts) next (.num (n.value + mkRat p.digitsValue q.digitsValue)) := by
  obtain ⟨o, rest, rfl, hrest⟩ := plain_eq_cons h
  obtain ⟨part, hpart, hnext, hnumerator, hdenominator⟩ := literalFraction_complete hp hq hrest
  have hsome : afterNumeral n n.value rest =
      some (.ok (part.map fun _ => n.value + mkRat p.digitsValue q.digitsValue)) := by
    simp [afterNumeral, hn, hpart, mixedNumber, hnumerator, hdenominator, hne]
  refine ⟨((Reading.first n.value rest).followedBy
    (part.map fun _ => n.value + mkRat p.digitsValue q.digitsValue)).map .num, ?_, hnext, rfl⟩
  simp only [atom, Numeral.isScalable_of_isInteger hn, if_true]
  rw [Reading.extendOnce_of_ok hsome]
  rfl

theorem paren_complete {us : List Token} {a : Expr}
    (ha : ∀ ts, plain ts = us ++ .closeParen :: next →
      Reads (deeper.expression ts) (.closeParen :: next) a)
    (h : plain ts = .openParen :: (us ++ .closeParen :: next)) :
    Reads (atom f deeper ts) next (.group a) := by
  obtain ⟨o, rest, rfl, hrest⟩ := plain_eq_cons h
  obtain ⟨inside, hinside, hclose, rfl⟩ := ha rest hrest
  obtain ⟨closed, hclosed, hnext, _⟩ := expect_complete f .closeParenthesis hclose
  refine ⟨((inside.followedBy closed).map fun _ => .group inside.value).preceded ⟨.openParen, o⟩,
    ?_, ?_, ?_⟩
  · simp only [atom, hinside, hclosed, Outcome.ok_bind]
    rfl
  · exact hnext
  · rfl

theorem brace_complete {us : List Token} {a : Expr}
    (ha : ∀ ts, plain ts = us ++ .closeBrace :: next →
      Reads (deeper.expression ts) (.closeBrace :: next) a)
    (h : plain ts = .openBrace :: (us ++ .closeBrace :: next)) : Reads (atom f deeper ts) next a := by
  obtain ⟨o, rest, rfl, hrest⟩ := plain_eq_cons h
  obtain ⟨inside, hinside, hclose, rfl⟩ := ha rest hrest
  obtain ⟨closed, hclosed, hnext, _⟩ := expect_complete f .closeBrace hclose
  refine ⟨((inside.followedBy closed).map fun _ => inside.value).preceded ⟨.openBrace, o⟩,
    ?_, ?_, ?_⟩
  · simp only [atom, hinside, hclosed, Outcome.ok_bind]
    rfl
  · exact hnext
  · rfl

theorem sqrt_complete {us : List Token} {a : Expr}
    (ha : ∀ ts, plain ts = us ++ .closeBrace :: next →
      Reads (deeper.expression ts) (.closeBrace :: next) a)
    (h : plain ts = .sqrt :: .openBrace :: (us ++ .closeBrace :: next)) :
    Reads (atom f deeper ts) next (.sqrt a) := by
  obtain ⟨o, rest, rfl, hrest⟩ := plain_eq_cons h
  obtain ⟨radicand, hradicand, hnext, rfl, _⟩ :=
    argument_complete f .radicand .radicandEnd ha hrest
  refine ⟨(radicand.map fun inside => .sqrt inside.value).preceded ⟨.sqrt, o⟩,
    ?_, ?_, ?_⟩
  · simp only [atom, hradicand, Outcome.ok_bind]
    rfl
  · exact hnext
  · rfl

theorem frac_complete {ns ds : List Token} {a b e : Expr}
    (ha : ∀ ts, plain ts = ns ++ .closeBrace :: .openBrace :: (ds ++ .closeBrace :: next) →
      Reads (deeper.expression ts) (.closeBrace :: .openBrace :: (ds ++ .closeBrace :: next)) a)
    (hb : ∀ ts, plain ts = ds ++ .closeBrace :: next →
      Reads (deeper.expression ts) (.closeBrace :: next) b)
    (he : FractionValue ns a ds b e)
    (h : plain ts =
      .frac :: .openBrace :: (ns ++ .closeBrace :: .openBrace :: (ds ++ .closeBrace :: next))) :
    Reads (atom f deeper ts) next e := by
  obtain ⟨o, rest, rfl, hrest⟩ := plain_eq_cons h
  obtain ⟨numerator, hnumerator, hopen, rfl, rfl⟩ :=
    argument_complete f .numerator .numeratorEnd ha hrest
  obtain ⟨denominator, hdenominator, hnext, rfl, rfl⟩ :=
    argument_complete f .denominator .denominatorEnd hb hopen
  have hvalue : quotient f numerator.value denominator.value = .ok e := quotient_complete he
  refine ⟨((numerator.followedBy denominator).map fun _ => e).preceded ⟨.frac, o⟩,
    ?_, ?_, ?_⟩
  · simp only [atom, fractionArguments, hnumerator, hdenominator, hvalue, Outcome.ok_bind]
    rfl
  · exact hnext
  · rfl

/-! ## Powers, terms and sums -/

theorem power_complete_atom {a : Expr} (hnext : Stops Token.continuesPower next)
    (ha : Reads (atom f deeper ts) next a) : Reads (power f deeper ts) next a := by
  obtain ⟨⟨value, rest, hshorter⟩, hbase, rfl, rfl⟩ := ha
  refine ⟨⟨value, rest, hshorter⟩, ?_, rfl, rfl⟩
  simp only [power, hbase, Outcome.ok_bind]
  refine Reading.extendOnce_of_none ?_
  simp only
  split
  · cases hnext _ rfl
  · rfl

theorem power_complete_raised {us : List Token} {a : Expr} {n : Int}
    (hn : ∀ ts, plain ts = us ++ next → Reads (deeper.exponent ts) next n)
    (ha : Reads (atom f deeper ts) (.caret :: (us ++ next)) a) :
    Reads (power f deeper ts) next (.power a n) := by
  obtain ⟨⟨value, rest, hshorter⟩, hbase, hrest, rfl⟩ := ha
  obtain ⟨o, vs, rfl, hvs⟩ := plain_eq_cons hrest
  obtain ⟨exponent, hexponent, hnext, rfl⟩ := hn vs hvs
  simp only [power, hbase, Outcome.ok_bind]
  rw [Reading.extendOnce_of_ok (s := (exponent.map (.power value)).preceded ⟨.caret, o⟩)]
  · exact ⟨_, rfl, hnext, rfl⟩
  · simp only [hexponent, Outcome.map_ok]

/-- A sign. -/
def Token.isSign (t : Token) : Bool := t = .plus || t = .minus

theorem unary_eq_power (h : Stops Token.isSign (plain ts)) : unary f deeper ts = power f deeper ts := by
  unfold unary
  split
  · cases h _ rfl
  · cases h _ rfl
  · rfl

/-- Where the atom at the front of an expression has an error, the expression has it. -/
theorem sum_eq_error {e : Error} (hsign : Stops Token.isSign (plain ts)) (h : atom f deeper ts = .error e) :
    sum f deeper ts = .error e := by
  have hunary : unary f deeper ts = .error e := by
    rw [unary_eq_power hsign, power, h, Outcome.error_bind]
  rw [sum, term, hunary, Outcome.error_bind, Outcome.error_bind]

theorem unary_complete_minus {us : List Token} {a : Expr}
    (ha : ∀ ts, plain ts = us → Reads (deeper.unary ts) next a) (h : plain ts = .minus :: us) :
    Reads (unary f deeper ts) next (.negate a) := by
  obtain ⟨o, rest, rfl, hrest⟩ := plain_eq_cons h
  obtain ⟨inner, hinner, hnext, rfl⟩ := ha rest hrest
  exact ⟨(inner.map .negate).preceded ⟨.minus, o⟩, by simp [unary, hinner], hnext, rfl⟩

theorem unary_complete_plus {us : List Token} {a : Expr}
    (ha : ∀ ts, plain ts = us → Reads (deeper.unary ts) next a) (h : plain ts = .plus :: us) :
    Reads (unary f deeper ts) next a := by
  obtain ⟨o, rest, rfl, hrest⟩ := plain_eq_cons h
  obtain ⟨inner, hinner, hnext, rfl⟩ := ha rest hrest
  exact ⟨inner.preceded ⟨.plus, o⟩, by simp [unary, hinner], hnext, rfl⟩

/-- A power begins with no sign. -/
theorem Derives.stops_sign {d : Nat} {us next rest : List Token} {e : Expr} (h : Derives d .power us next e) :
    Stops Token.isSign (us ++ rest) := by
  cases h with
  | P_Atom h | P_Raised h => cases h <;> exact stops_cons rfl

/-- The continuation goes on to the value `v` and leaves the tokens `next`. -/
def Continues {α : Type} {ts : Tokens} (answer : Option (Except Error (Reading α ts))) (next : List Token)
    (v : α) : Prop :=
  ∃ s, answer = some (.ok s) ∧ plain s.rest = next ∧ s.value = v

theorem extend_complete {α : Type} {continuation : Continuation Error (Placed Token) α} {r : Reading α ts}
    {us : List Token} {v e : α} (hstep : Continues (continuation r.value r.rest) us v)
    (hrest : ∀ s : Reading α ts, plain s.rest = us → s.value = v → Reads (s.extend continuation) next e) :
    Reads (r.extend continuation) next e := by
  obtain ⟨s, hs, hus, hv⟩ := hstep
  rw [Reading.extend_of_ok hs]
  exact hrest _ hus hv

theorem Reads.operator {answer : Except Error (Reading Expr ts)} {op : Operator} {left b : Expr}
    {t : Placed Token} (hb : Reads answer next b) :
    Continues (some (answer.map fun r => (r.map (Expr.binary op left)).preceded t)) next (.binary op left b) := by
  obtain ⟨right, rfl, hnext, rfl⟩ := hb
  exact ⟨(right.map (Expr.binary op left)).preceded t, rfl, hnext, rfl⟩

/-- The sign of an operator. -/
@[simp] def operatorToken : Operator → Token
  | .add => .plus
  | .sub => .minus
  | .mul => .times
  | .div => .divide

/-- What is read on the right of an operator. -/
def operand (f : Frame) (deeper : Deeper) : Operator → TokenReader Expr
  | .add | .sub => term f deeper
  | .mul | .div => unary f deeper

/-- The continuation that takes an operator with what is on its right. -/
def operation (f : Frame) (deeper : Deeper) : Operator → Continuation Error (Placed Token) Expr
  | .add | .sub => summand f deeper
  | .mul | .div => factor f deeper

theorem operation_complete (op : Operator) {us : List Token} {left b : Expr}
    (hb : ∀ ts, plain ts = us → Reads (operand f deeper op ts) next b) (h : plain ts = operatorToken op :: us) :
    Continues (operation f deeper op left ts) next (.binary op left b) := by
  obtain ⟨_, vs, rfl, hvs⟩ := plain_eq_cons h
  cases op with
  | add | sub | mul | div => exact (hb vs hvs).operator

theorem factor_complete_beside {t : Token} {us : List Token} {left b : Expr} (ht : t.beginsFactor)
    (hb : Reads (power f deeper ts) next b) (h : plain ts = t :: us) :
    Continues (factor f deeper left ts) next (.binary .mul left b) := by
  obtain ⟨right, hright, hnext, rfl⟩ := hb
  obtain ⟨o, vs, rfl, -⟩ := plain_eq_cons h
  refine ⟨right.map (.binary .mul left), ?_, hnext, rfl⟩
  cases t with
  | letter | openParen | openBrace | frac | sqrt => simp only [factor, ht, hright, Outcome.map_ok, if_true]
  | _ => cases ht

theorem factor_eq_none {left : Expr} (h : Stops Token.continuesTerm (plain ts)) :
    factor f deeper left ts = none := by
  unfold factor
  split
  · cases h _ rfl
  · cases h _ rfl
  · rename_i t _ _ _
    have ht : t.token.continuesTerm = false := h _ rfl
    simp_all [Token.continuesTerm]
  · rfl

theorem summand_eq_none {left : Expr} (h : Stops Token.continuesSum (plain ts)) :
    summand f deeper left ts = none := by
  unfold summand
  split
  · cases h _ rfl
  · cases h _ rfl
  · rfl

/-! ## Derivations -/

/-- Before `next`, the reader for the nonterminal answers `e` from the tokens `us`, and it leaves `next`. -/
def Complete (f : Frame) (d : Nat) (us next : List Token) (e : Expr) : Nonterminal → Prop
  | .sum => Stops Token.continuesSum next →
      ∀ ts, plain ts = us ++ next → Reads (sum f (deeperAt f d) ts) next e
  | .summands left => Stops Token.continuesSum next →
      ∀ ts (r : Reading Expr ts), plain r.rest = us ++ next → r.value = left →
        Reads (r.extend (summand f (deeperAt f d))) next e
  | .term => Stops Token.continuesTerm next →
      ∀ ts, plain ts = us ++ next → Reads (term f (deeperAt f d) ts) next e
  | .factors left => Stops Token.continuesTerm next →
      ∀ ts (r : Reading Expr ts), plain r.rest = us ++ next → r.value = left →
        Reads (r.extend (factor f (deeperAt f d))) next e
  | .unary => Stops Token.continuesPower next →
      ∀ ts, plain ts = us ++ next → Reads (unary f (deeperAt f d) ts) next e
  | .power => Stops Token.continuesPower next →
      ∀ ts, plain ts = us ++ next → Reads (power f (deeperAt f d) ts) next e
  | .atom => ∀ ts, plain ts = us ++ next → Reads (atom f (deeperAt f d) ts) next e

/-- What has a derivation is read. -/
theorem Derives.complete {d : Nat} {nt : Nonterminal} {us : List Token} {e : Expr}
    (h : Derives d nt us next e) : Complete f d us next e nt := by
  induction h with
  | S_First _ hrest iha ihe =>
      intro hnext ts hts
      obtain ⟨first, hfirst, hus, hvalue⟩ :=
        iha (hrest.stops_term hnext) ts (by simpa using hts)
      simp only [sum, hfirst, Outcome.ok_bind]
      exact ihe hnext ts first hus hvalue
  | S_End =>
      rintro hnext ts r hr rfl
      exact ⟨r, Reading.extend_of_none (summand_eq_none (hr ▸ hnext)), hr, rfl⟩
  | S_Plus _ hrest ihb ihe =>
      rintro hnext ts r hr rfl
      exact extend_complete (operation_complete .add (ihb (hrest.stops_term hnext)) (by simpa using hr))
        (ihe hnext ts)
  | S_Minus _ hrest ihb ihe =>
      rintro hnext ts r hr rfl
      exact extend_complete (operation_complete .sub (ihb (hrest.stops_term hnext)) (by simpa using hr))
        (ihe hnext ts)
  | T_First _ hrest iha ihe =>
      intro hnext ts hts
      obtain ⟨first, hfirst, hus, hvalue⟩ :=
        iha (hrest.stops_power hnext) ts (by simpa using hts)
      simp only [term, hfirst, Outcome.ok_bind]
      exact ihe hnext ts first hus hvalue
  | T_End =>
      rintro hnext ts r hr rfl
      exact ⟨r, Reading.extend_of_none (factor_eq_none (hr ▸ hnext)), hr, rfl⟩
  | T_Times _ hrest ihb ihe =>
      rintro hnext ts r hr rfl
      exact extend_complete (operation_complete .mul (ihb (hrest.stops_power hnext)) (by simpa using hr))
        (ihe hnext ts)
  | T_Divide _ hrest ihb ihe =>
      rintro hnext ts r hr rfl
      exact extend_complete (operation_complete .div (ihb (hrest.stops_power hnext)) (by simpa using hr))
        (ihe hnext ts)
  | T_Beside ht _ hrest ihb ihe =>
      rintro hnext ts r hr rfl
      have hb := ihb (hrest.stops_power hnext) r.rest (by simpa using hr)
      exact extend_complete (factor_complete_beside ht hb (by simpa using hr)) (ihe hnext ts)
  | U_Minus _ iha =>
      exact fun hnext ts hts => unary_complete_minus (iha hnext) hts
  | U_Plus _ iha =>
      exact fun hnext ts hts => unary_complete_plus (iha hnext) hts
  | U_Power ha iha =>
      intro hnext ts hts
      rw [unary_eq_power (hts ▸ ha.stops_sign)]
      exact iha hnext ts hts
  | P_Atom _ iha => exact fun hnext ts hts => power_complete_atom hnext (iha ts hts)
  | P_Raised _ hn iha =>
      intro hnext ts hts
      exact power_complete_raised (fun ts hts => exponent_complete hn hnext hts) (iha ts (by simpa using hts))
  | A_Number hscalable hn => exact fun ts hts => number_complete hscalable hn hts
  | A_Mixed hn hp hq hne => exact fun ts hts => mixed_complete hn hp hq hne (by simpa using hts)
  | A_Letter =>
      intro ts hts
      obtain ⟨o, rest, rfl, hrest⟩ := plain_eq_cons hts
      exact ⟨.first _ rest, rfl, hrest, rfl⟩
  | A_Paren _ iha => exact fun ts hts => paren_complete (iha (stops_cons rfl)) (by simpa using hts)
  | A_Brace _ iha => exact fun ts hts => brace_complete (iha (stops_cons rfl)) (by simpa using hts)
  | A_Frac _ _ hv iha ihb =>
      exact fun ts hts =>
        frac_complete (iha (stops_cons rfl)) (ihb (stops_cons rfl)) hv (by simpa using hts)
  | A_Sqrt _ iha => exact fun ts hts => sqrt_complete (iha (stops_cons rfl)) (by simpa using hts)

end Latex

end ExactAlgebra
