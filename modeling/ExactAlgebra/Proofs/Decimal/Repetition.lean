import ExactAlgebra.Rational.Repeating
import ExactAlgebra.Text.Numeral
import Mathlib

/-!
# Repetitions of digits

Digits that are a block written at least twice. The shortest such block is found by trying the lengths in ascending
order, and the value of the decimal with the block repeated without end does not depend on the block: all digits over as
many nines are the same number.
-/

namespace ExactAlgebra

/-- The digits are the block written at least twice. -/
def Repetition (block digits : List Char) : Prop := ∃ k, 2 ≤ k ∧ digits = (List.replicate k block).flatten

/-- At least three digits, not all of them zeros, that are some block written at least twice. -/
def Repeats (digits : List Char) : Prop :=
  3 ≤ digits.length ∧ (∃ d ∈ digits, d ≠ '0') ∧ ∃ block, Repetition block digits

/-- No shorter block is repeated to the digits. -/
structure ShortestBlock (block digits : List Char) : Prop where
  repetition : Repetition block digits
  length_le : ∀ b, Repetition b digits → block.length ≤ b.length

variable {block digits : List Char} {n : ℕ}

/-! ## Blocks -/

theorem length_flatten_replicate (k : ℕ) (block : List Char) :
    (List.replicate k block).flatten.length = k * block.length := by
  rw [List.length_flatten, List.map_replicate, List.sum_replicate, smul_eq_mul]

theorem flatten_replicate_mul (j k : ℕ) (block : List Char) :
    (List.replicate k (List.replicate j block).flatten).flatten = (List.replicate (k * j) block).flatten := by
  induction k with
  | zero => simp
  | succ k ih => rw [List.replicate_succ, List.flatten_cons, ih, Nat.succ_mul, Nat.add_comm, List.replicate_add,
      List.flatten_append]

namespace Repetition

theorem length_eq (h : Repetition block digits) : ∃ k, 2 ≤ k ∧ digits.length = k * block.length := by
  obtain ⟨k, hk, rfl⟩ := h
  exact ⟨k, hk, length_flatten_replicate k block⟩

/-- The digits begin with the block. -/
theorem eq_take (h : Repetition block digits) : block = digits.take block.length := by
  obtain ⟨k, hk, rfl⟩ := h
  obtain ⟨k, rfl⟩ := Nat.exists_eq_add_of_le' hk
  rw [List.replicate_succ, List.flatten_cons, List.take_left]

theorem length_mem (h : Repetition block digits) (hne : digits ≠ []) :
    1 ≤ block.length ∧ block.length ≤ digits.length / 2 := by
  obtain ⟨k, hk, hlength⟩ := h.length_eq
  have hpos := List.length_pos_iff.2 hne
  have hdouble := Nat.mul_le_mul_right block.length hk
  refine ⟨Nat.pos_of_ne_zero fun hzero => ?_, by omega⟩
  rw [hzero, Nat.mul_zero] at hlength
  omega

theorem length_mem_range' (h : Repetition block digits) (hne : digits ≠ []) :
    block.length ∈ List.range' 1 (digits.length / 2) := by
  obtain ⟨hpos, hle⟩ := h.length_mem hne
  exact List.mem_range'_1.2 ⟨hpos, by omega⟩

/-- The digits are those of the block. -/
theorem mem_iff (h : Repetition block digits) (d : Char) : d ∈ digits ↔ d ∈ block := by
  obtain ⟨k, hk, rfl⟩ := h
  simp only [List.mem_flatten, List.mem_replicate]
  constructor
  · rintro ⟨_, ⟨-, rfl⟩, hd⟩
    exact hd
  · intro hd
    exact ⟨block, ⟨by omega, rfl⟩, hd⟩

end Repetition

/-- The shortest block is not a repetition itself. -/
theorem ShortestBlock.not_repetition (h : ShortestBlock block digits) (hne : digits ≠ []) :
    ∀ b, ¬ Repetition b block := by
  rintro b ⟨j, hj, rfl⟩
  obtain ⟨hpos, -⟩ := h.repetition.length_mem hne
  obtain ⟨k, hk, rfl⟩ := h.repetition
  have hle := h.length_le b ⟨k * j, hk.trans (Nat.le_mul_of_pos_right k (by omega)), flatten_replicate_mul j k b⟩
  rw [length_flatten_replicate] at hpos hle
  have hdouble := Nat.mul_le_mul_right b.length hj
  omega

/-! ## Finding the block -/

theorem tiles_iff (hne : block ≠ []) : tiles block digits ↔ ∃ k, digits = (List.replicate k block).flatten := by
  have hpos := List.length_pos_iff.2 hne
  rw [tiles, beq_iff_eq]
  constructor
  · intro h
    exact ⟨_, h.symm⟩
  · rintro ⟨k, rfl⟩
    rw [length_flatten_replicate, Nat.mul_div_cancel _ hpos]

/-- A block of at most half of the digits tiles them just when they are a repetition of it. -/
theorem tiles_iff_repetition (hne : block ≠ []) (hhalf : 2 * block.length ≤ digits.length) :
    tiles block digits ↔ Repetition block digits := by
  have hpos := List.length_pos_iff.2 hne
  rw [tiles_iff hne]
  constructor
  · rintro ⟨k, rfl⟩
    rw [length_flatten_replicate] at hhalf
    exact ⟨k, Nat.le_of_mul_le_mul_right hhalf hpos, rfl⟩
  · rintro ⟨k, -, hk⟩
    exact ⟨k, hk⟩

/-- The first digits, if they are a block that is not all zeros and tiles all digits. -/
def blockOfLength? (digits : List Char) (length : ℕ) : Option (List Char) :=
  let block := digits.take length
  if tiles block digits && !block.all (· == '0') then some block else none

theorem blockOfLength?_eq_some_iff (hn : n ∈ List.range' 1 (digits.length / 2)) :
    blockOfLength? digits n = some block ↔
      block.length = n ∧ Repetition block digits ∧ ∃ d ∈ digits, d ≠ '0' := by
  obtain ⟨hpos, hle⟩ := List.mem_range'_1.1 hn
  have hlength : (digits.take n).length = n := List.length_take_of_le (by omega)
  have hne : digits.take n ≠ [] := List.length_pos_iff.1 (by omega)
  have htiles : tiles (digits.take n) digits ↔ Repetition (digits.take n) digits :=
    tiles_iff_repetition hne (by omega)
  simp only [blockOfLength?, Option.ite_none_right_eq_some, Bool.and_eq_true, htiles, Option.some_inj]
  constructor
  · rintro ⟨⟨hrepetition, hzeros⟩, rfl⟩
    refine ⟨hlength, hrepetition, ?_⟩
    simpa [hrepetition.mem_iff] using hzeros
  · rintro ⟨rfl, hrepetition, hzeros⟩
    rw [← hrepetition.eq_take]
    refine ⟨⟨hrepetition, ?_⟩, rfl⟩
    simpa [hrepetition.mem_iff] using hzeros

theorem repeatingBlock?_eq (digits : List Char) :
    repeatingBlock? digits =
      if digits.length < 3 then none
      else (List.range' 1 (digits.length / 2)).findSome? (blockOfLength? digits) := rfl

/-- A search through ascending numbers ends at the least one that has an answer. -/
theorem findSome?_eq_some_iff_least {α : Type} {f : ℕ → Option α} {l : List ℕ} (hl : l.Pairwise (· < ·)) {a : α} :
    l.findSome? f = some a ↔ ∃ i ∈ l, f i = some a ∧ ∀ j ∈ l, j < i → f j = none := by
  rw [List.findSome?_eq_some_iff]
  constructor
  · rintro ⟨front, i, back, rfl, hi, hfront⟩
    obtain ⟨-, hback, -⟩ := List.pairwise_append.1 hl
    refine ⟨i, by simp, hi, fun j hj hlt => ?_⟩
    obtain hj | rfl | hj := by simpa using hj
    · exact hfront j hj
    · exact absurd hlt (lt_irrefl j)
    · exact absurd hlt (List.rel_of_pairwise_cons hback hj).not_gt
  · rintro ⟨i, hmem, hi, hnone⟩
    obtain ⟨front, back, rfl⟩ := List.append_of_mem hmem
    obtain ⟨-, -, hfront⟩ := List.pairwise_append.1 hl
    exact ⟨front, i, back, rfl, hi, fun j hj => hnone j (by simp [hj]) (hfront j hj i (by simp))⟩

/-- Lengths are tried in ascending order, and a shorter block is passed over only when all digits are zeros. -/
theorem repeatingBlock?_eq_some_iff :
    repeatingBlock? digits = some block ↔
      3 ≤ digits.length ∧ (∃ d ∈ digits, d ≠ '0') ∧ ShortestBlock block digits := by
  rw [repeatingBlock?_eq, Option.ite_none_left_eq_some, not_lt,
    findSome?_eq_some_iff_least List.pairwise_lt_range']
  refine and_congr_right fun hlength => ?_
  have hne : digits ≠ [] := List.length_pos_iff.1 (by omega)
  constructor
  · rintro ⟨n, hn, hblock, hnone⟩
    obtain ⟨rfl, hrepetition, hzeros⟩ := (blockOfLength?_eq_some_iff hn).1 hblock
    -- a shorter block has been tried before, and is not all zeros either
    refine ⟨hzeros, hrepetition, fun b hb => not_lt.1 fun hlt => ?_⟩
    have := (blockOfLength?_eq_some_iff (hb.length_mem_range' hne)).2 ⟨rfl, hb, hzeros⟩
    simp [hnone _ (hb.length_mem_range' hne) hlt] at this
  · rintro ⟨hzeros, hshortest⟩
    have hn := hshortest.repetition.length_mem_range' hne
    refine ⟨_, hn, (blockOfLength?_eq_some_iff hn).2 ⟨rfl, hshortest.repetition, hzeros⟩, fun j hj hlt => ?_⟩
    rw [Option.eq_none_iff_forall_ne_some]
    intro b hb
    obtain ⟨rfl, hrepetition, -⟩ := (blockOfLength?_eq_some_iff hj).1 hb
    exact absurd (hshortest.length_le b hrepetition) (not_le.2 hlt)

theorem repeatingBlock?_eq_none_iff : repeatingBlock? digits = none ↔ ¬ Repeats digits := by
  constructor
  · rintro hnone ⟨hlength, hzeros, block, hblock⟩
    have hne : digits ≠ [] := List.length_pos_iff.1 (by omega)
    have hn := hblock.length_mem_range' hne
    rw [repeatingBlock?_eq, if_neg (not_lt.2 hlength), List.findSome?_eq_none_iff] at hnone
    have := (blockOfLength?_eq_some_iff hn).2 ⟨rfl, hblock, hzeros⟩
    simp [hnone _ hn] at this
  · intro h
    rw [Option.eq_none_iff_forall_ne_some]
    intro block hblock
    obtain ⟨hlength, hzeros, hshortest⟩ := repeatingBlock?_eq_some_iff.1 hblock
    exact h ⟨hlength, hzeros, block, hshortest.repetition⟩

/-! ## Values -/

theorem natural_append (front back : List Char) :
    Text.natural (front ++ back) = Text.natural front * 10 ^ back.length + Text.natural back := by
  rw [Text.natural, Nat.ofDigitChars_append, Nat.ofDigitChars_eq_ofDigitChars_zero, mul_comm]
  rfl

/-- A number written `k` times over is the number times one, a power of ten, its square and so on. -/
theorem natural_flatten_replicate (k : ℕ) (block : List Char) :
    (Text.natural (List.replicate k block).flatten : ℚ) * (10 ^ block.length - 1) =
      Text.natural block * (10 ^ (k * block.length) - 1) := by
  induction k with
  | zero => simp [Text.natural]
  | succ k ih =>
      rw [List.replicate_succ', List.flatten_append, List.flatten_singleton, natural_append]
      push_cast
      rw [add_mul, mul_right_comm, ih, Nat.succ_mul, pow_add]
      ring

/-- The digits over as many nines are the block over as many nines. -/
theorem Repetition.nines (h : Repetition block digits) (hne : digits ≠ []) :
    (Text.natural block : ℚ) / (10 ^ block.length - 1) = Text.natural digits / (10 ^ digits.length - 1) := by
  have hnines {n : ℕ} (hn : n ≠ 0) : (10 : ℚ) ^ n - 1 ≠ 0 :=
    (sub_pos.2 (one_lt_pow₀ (by norm_num) hn)).ne'
  obtain ⟨hpos, -⟩ := h.length_mem hne
  have hlength := List.length_pos_iff.2 hne
  rw [div_eq_div_iff (hnines (by omega)) (hnines (by omega))]
  obtain ⟨k, -, rfl⟩ := h
  rw [natural_flatten_replicate, length_flatten_replicate]

end ExactAlgebra
