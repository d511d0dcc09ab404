import ExactAlgebra.Indices.Latex
import ExactAlgebra.Proofs.Indices.Collect
import ExactAlgebra.Proofs.Polynomial.Written

/-!
# The written form of a chain

The factors over and under the bar of a written chain, and the tokens that its text spells when the variables are
single letters. A number over or under the bar is a factor like others, with exponent one.
-/

namespace ExactAlgebra.Indices

open Latex

/-! ## Factors -/

def powerText (p : Base × Rat) : String := powerLatex p.1 p.2

/-- The powers with a positive exponent. -/
def Chain.above (c : Chain) : List (Base × Rat) := c.powers.filter fun p => 0 < p.2

/-- The inverses of the powers with a negative exponent. -/
def Chain.below (c : Chain) : List (Base × Rat) := (c.powers.filter fun p => p.2 < 0).map fun p => (p.1, -p.2)

/-- The factors of the numerator. -/
def Chain.numerator (c : Chain) : List (Base × Rat) :=
  if c.coefficient.num.natAbs ≠ 1 ∨ c.above.isEmpty then (.integer c.coefficient.num.natAbs, 1) :: c.above
  else c.above

/-- The factors of the denominator. -/
def Chain.denominator (c : Chain) : List (Base × Rat) :=
  if c.coefficient.den ≠ 1 then (.integer c.coefficient.den, 1) :: c.below else c.below

theorem Chain.forall_numerator {c : Chain} {P : Base × Rat → Prop} (hnumber : P (.integer c.coefficient.num.natAbs, 1))
    (hpowers : ∀ p ∈ c.powers, 0 < p.2 → P p) : ∀ p ∈ c.numerator, P p := by
  have habove : ∀ p ∈ c.above, P p := by
    intro p hp
    obtain ⟨hp, hpos⟩ := List.mem_filter.1 hp
    exact hpowers p hp (of_decide_eq_true hpos)
  unfold numerator
  split
  · exact List.forall_mem_cons.2 ⟨hnumber, habove⟩
  · exact habove

theorem Chain.forall_denominator {c : Chain} {P : Base × Rat → Prop} (hnumber : P (.integer c.coefficient.den, 1))
    (hpowers : ∀ p ∈ c.powers, p.2 < 0 → P (p.1, -p.2)) : ∀ p ∈ c.denominator, P p := by
  have hbelow : ∀ p ∈ c.below, P p := by
    intro p hp
    obtain ⟨q, hq, rfl⟩ := List.mem_map.1 hp
    obtain ⟨hq, hneg⟩ := List.mem_filter.1 hq
    exact hpowers q hq (of_decide_eq_true hneg)
  unfold denominator
  split
  · exact List.forall_mem_cons.2 ⟨hnumber, hbelow⟩
  · exact hbelow

theorem Chain.numeratorFactors_eq (c : Chain) : c.numeratorFactors = c.numerator.map powerText := by
  simp only [numeratorFactors, numerator, List.isEmpty_map, apply_ite (List.map powerText), List.map_cons]
  rfl

theorem Chain.denominatorFactors_eq (c : Chain) : c.denominatorFactors = c.denominator.map powerText := by
  simp only [denominatorFactors, denominator, below, apply_ite (List.map powerText), List.map_cons, List.map_map]
  rfl

/-! ## Tokens -/

/-- The base is a number that is not zero or a single letter. -/
def Base.Written : Base → Prop
  | integer n => n ≠ 0
  | letter name => IsLetter name

theorem Base.Among.written {names : List String} {b : Base} (hnames : ∀ name ∈ names, IsLetter name)
    (h : b.Among names) : b.Written := by
  cases b with
  | integer n => exact Nat.ne_zero_of_lt h
  | letter name => exact hnames name h

def Base.tokens : Base → List Token
  | integer n => [.number (numeral n)]
  | letter name => name.toList.map .letter

/-- The tokens of a power with a positive exponent. -/
def powerTokens (p : Base × Rat) : List Token :=
  if p.2 = 1 then p.1.tokens
  else if p.2.num = 1 ∧ p.2.den = 2 then .sqrt :: .openBrace :: (p.1.tokens ++ [.closeBrace])
  else p.1.tokens ++ .caret :: .openBrace :: (numberTokens p.2 ++ [.closeBrace])

/-- The tokens of a power after other factors. -/
def laterTokens (p : Base × Rat) : List Token :=
  if beginsWithDigit (powerText p) then .times :: powerTokens p else powerTokens p

def productTokens : List (Base × Rat) → List Token
  | [] => []
  | p :: ps => powerTokens p ++ ps.flatMap laterTokens

def Chain.tokens (c : Chain) : List Token :=
  if c.coefficient = 0 then [.number (numeral 0)]
  else
    (if c.coefficient < 0 then [.minus] else []) ++
      if c.denominator.isEmpty then productTokens c.numerator
      else
        .frac :: .openBrace :: (productTokens c.numerator ++
          .closeBrace :: .openBrace :: (productTokens c.denominator ++ [.closeBrace]))

/-! ## Spelling -/

variable {cs : List Char} {us : List Token} {p : Base × Rat} {ps : List (Base × Rat)}

theorem Base.spells {b : Base} (hb : b.Written) (hcs : EndsNumeral cs) (h : Spells cs us) :
    Spells (b.latex.toList ++ cs) (b.tokens ++ us) := by
  cases b with
  | integer n => exact h.natural hcs
  | letter name =>
      obtain ⟨a, ha, rfl⟩ := hb
      simpa [Base.latex, Base.tokens] using h.letter ha

theorem spells_power (hp : p.1.Written) (hpos : 0 < p.2) (hcs : EndsNumeral cs) (h : Spells cs us) :
    Spells ((powerText p).toList ++ cs) (powerTokens p ++ us) := by
  unfold powerText powerLatex powerTokens
  split
  · exact Base.spells hp hcs h
  · split
    · have hbase := Base.spells hp (endsNumeral_cons rfl) h.closeBrace
      simpa [Markup.root, Markup.braced] using hbase.openBrace.sqrt
    · have hexponent := h.closeBrace.rational hpos.le (endsNumeral_cons rfl)
      have hcaret : Spells ('^' :: '\x7b' :: ((Markup.rational p.2).toList ++ '\x7d' :: cs))
          (.caret :: .openBrace :: (numberTokens p.2 ++ .closeBrace :: us)) :=
        hexponent.openBrace.character (by decide) (by decide) rfl rfl
      simpa [Markup.power, Markup.braced] using Base.spells hp (endsNumeral_cons rfl) hcaret

theorem beginsWithDigit_cons {s : String} {a : Char} {as : List Char} (h : s.toList = a :: as) :
    beginsWithDigit s = a.isDigit := by
  rw [beginsWithDigit, h]

/-- A written power begins with a digit, or with a letter or a command, which begins a factor. -/
theorem powerText_begins (hp : p.1.Written) :
    ∃ a as t ts, (powerText p).toList = a :: as ∧ powerTokens p = t :: ts ∧ t ≠ .frac ∧
      (a.isDigit ∨ Numeral.continues a = false ∧ t.beginsFactor) := by
  have hbase : ∃ a as t ts, p.1.latex.toList = a :: as ∧ p.1.tokens = t :: ts ∧ t ≠ .frac ∧
      (a.isDigit ∨ Numeral.continues a = false ∧ t.beginsFactor) := by
    cases hb : p.1 with
    | integer n =>
        obtain ⟨a, as, has, ha⟩ := Markup.natural_begins n
        exact ⟨a, as, _, _, has, rfl, by simp, .inl ha⟩
    | letter name =>
        rw [hb] at hp
        obtain ⟨a, ha, rfl⟩ := hp
        exact ⟨a, [], .letter a, [], by rw [Base.latex, String.toList_singleton],
          by rw [Base.tokens, String.toList_singleton]; rfl, by simp, .inr ⟨Numeral.continues_of_isAlpha ha, rfl⟩⟩
  obtain ⟨a, as, t, ts, has, hts, ht, ha⟩ := hbase
  unfold powerText powerLatex powerTokens
  split
  · exact ⟨a, as, t, ts, has, hts, ht, ha⟩
  · split
    · exact ⟨'\\', _, .sqrt, _, by rw [Markup.root, String.toList_append]; rfl, rfl, by simp, .inr ⟨rfl, rfl⟩⟩
    · exact ⟨a, _, t, _, by rw [Markup.power, String.toList_append, String.toList_append, has, List.cons_append,
        List.cons_append], by rw [hts, List.cons_append], ht, ha⟩

theorem endsNumeral_later (hp : p.1.Written) : EndsNumeral ((laterFactor (powerText p)).toList ++ cs) := by
  obtain ⟨a, as, _, _, has, _, _, ha⟩ := powerText_begins hp
  unfold laterFactor
  rw [beginsWithDigit_cons has]
  split
  · simpa [Markup.times] using endsNumeral_cons rfl
  · rename_i hdigit
    rw [has]
    exact endsNumeral_cons (ha.resolve_left hdigit).1

theorem spells_later (hp : p.1.Written) (hpos : 0 < p.2) (hcs : EndsNumeral cs) (h : Spells cs us) :
    Spells ((laterFactor (powerText p)).toList ++ cs) (laterTokens p ++ us) := by
  have hpower := spells_power hp hpos hcs h
  obtain ⟨a, as, _, _, has, _⟩ := powerText_begins hp
  unfold laterFactor laterTokens
  rw [beginsWithDigit_cons has]
  split
  · rename_i hdigit
    have htimes := hpower.times fun b hb => by
      obtain rfl : a = b := by simpa [has] using hb
      exact Bool.eq_false_iff.2 fun halpha => by simp [Text.isDigit_of_isAlpha halpha] at hdigit
    simpa [Markup.times] using htimes
  · exact hpower

theorem spells_laters (hps : ∀ p ∈ ps, p.1.Written ∧ 0 < p.2) (hcs : EndsNumeral cs) (h : Spells cs us) :
    EndsNumeral ((String.join (ps.map fun p => laterFactor (powerText p))).toList ++ cs) ∧
      Spells ((String.join (ps.map fun p => laterFactor (powerText p))).toList ++ cs)
        (ps.flatMap laterTokens ++ us) := by
  induction ps with
  | nil => simpa using And.intro hcs h
  | cons p ps ih =>
      have ⟨⟨hp, hpos⟩, hps⟩ := List.forall_mem_cons.1 hps
      obtain ⟨hend, hspells⟩ := ih hps
      rw [List.map_cons, String.join_cons, String.toList_append, List.append_assoc, List.flatMap_cons,
        List.append_assoc]
      exact ⟨endsNumeral_later hp, spells_later hp hpos hend hspells⟩

theorem spells_product (hps : ∀ p ∈ ps, p.1.Written ∧ 0 < p.2) (hcs : EndsNumeral cs) (h : Spells cs us) :
    Spells ((joinFactors (ps.map powerText)).toList ++ cs) (productTokens ps ++ us) := by
  cases ps with
  | nil => simpa [joinFactors, productTokens] using h
  | cons p ps =>
      have ⟨⟨hp, hpos⟩, hps⟩ := List.forall_mem_cons.1 hps
      obtain ⟨hend, hspells⟩ := spells_laters hps hcs h
      rw [List.map_cons, joinFactors, List.map_map, String.toList_append, List.append_assoc, productTokens,
        List.append_assoc]
      exact spells_power hp hpos hend hspells

namespace Chain

variable {c : Chain}

/-- All bases of the chain are numbers that are not zero or single letters. -/
def Lettered (c : Chain) : Prop := ∀ p ∈ c.powers, p.1.Written

theorem written_numerator (hc : c.Lettered) (hne : c.coefficient ≠ 0) :
    ∀ p ∈ c.numerator, p.1.Written ∧ 0 < p.2 :=
  forall_numerator ⟨Int.natAbs_ne_zero.2 (Rat.num_ne_zero.2 hne), one_pos⟩ fun p hp hpos => ⟨hc p hp, hpos⟩

theorem written_denominator (hc : c.Lettered) : ∀ p ∈ c.denominator, p.1.Written ∧ 0 < p.2 :=
  forall_denominator ⟨c.coefficient.den_nz, one_pos⟩ fun p hp hneg => ⟨hc p hp, neg_pos.2 hneg⟩

theorem latex_eq_of_isEmpty (hne : c.coefficient ≠ 0) (h : c.denominator = []) :
    c.latex = (if c.coefficient < 0 then "-" else "") ++ joinFactors (c.numerator.map powerText) := by
  rw [latex, if_neg hne, numeratorFactors_eq, denominatorFactors_eq, h, List.map_nil]

theorem latex_eq_fraction (hne : c.coefficient ≠ 0) (h : c.denominator ≠ []) :
    c.latex = (if c.coefficient < 0 then "-" else "") ++
      Markup.fraction (joinFactors (c.numerator.map powerText)) (joinFactors (c.denominator.map powerText)) := by
  obtain ⟨p, ps, hps⟩ := List.exists_cons_of_ne_nil h
  rw [latex, if_neg hne, numeratorFactors_eq, denominatorFactors_eq, hps, List.map_cons]

/-- The tokens that the text of a chain spells. -/
theorem spells (hc : c.Lettered) : Spells c.latex.toList c.tokens := by
  unfold tokens
  split
  · rename_i hzero
    have hnumeral := spells_nil.natural (n := 0) endsNumeral_nil
    rw [List.append_nil] at hnumeral
    rwa [latex, if_pos hzero]
  · rename_i hne
    have hsign {text : List Char} {us : List Token} (h : Spells text us) :
        Spells ((if c.coefficient < 0 then "-" else "").toList ++ text)
          ((if c.coefficient < 0 then [.minus] else []) ++ us) := by
      split
      · exact h.character (by decide) (by decide) rfl rfl
      · exact h
    have hnumerator := written_numerator hc hne
    by_cases hempty : c.denominator.isEmpty
    · rw [latex_eq_of_isEmpty hne (List.isEmpty_iff.1 hempty), String.toList_append, if_pos hempty]
      refine hsign ?_
      simpa using spells_product hnumerator endsNumeral_nil spells_nil
    · rw [latex_eq_fraction hne (by simpa using hempty), String.toList_append, if_neg hempty]
      refine hsign ?_
      have hlast := spells_product (written_denominator hc) (endsNumeral_cons rfl) spells_nil.closeBrace
      have hfirst := spells_product hnumerator (endsNumeral_cons rfl) hlast.openBrace.closeBrace
      simpa [Markup.fraction, Markup.braced] using hfirst.openBrace.frac

end Chain

theorem Collects.lettered {treatment : Treatment} {k : ℚ} {e : Expr} {c : Chain} (h : Collects treatment k e c)
    (hnames : ∀ name ∈ e.names, IsLetter name) : c.Lettered := fun p hp => (h.among p hp).written hnames

end ExactAlgebra.Indices
