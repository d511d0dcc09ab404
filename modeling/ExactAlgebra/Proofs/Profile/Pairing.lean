import ExactAlgebra.Proofs.Profile.Matching

/-!
# Pairs of parentheses

The profile of any text, balanced or not, pairs its parentheses. What matching has found is there in the order of the
opening parentheses, and where all have a partner, the depths are those of the nesting.
-/

namespace ExactAlgebra.Profile

namespace Parentheses

/-- The parenthesis at the place has a partner. -/
def Paired (r : Parentheses) (i : Nat) : Prop := ∃ p ∈ r.pairs, p.EndsAt i

/-- The profile is a pairing of the parentheses of the text. -/
structure IsPairing (r : Parentheses) (text : List Char) : Prop where
  ends : ∀ p ∈ r.pairs, (p.opening, '(') ∈ Text.withOffsets 0 text ∧ (p.closing, ')') ∈ Text.withOffsets 0 text ∧
    p.opening < p.closing
  ascending : r.pairs.Pairwise fun p q => p.opening < q.opening
  unique : ∀ p ∈ r.pairs, ∀ q ∈ r.pairs, ∀ i, p.EndsAt i → q.EndsAt i → p = q
  apart : ∀ p ∈ r.pairs, ∀ q ∈ r.pairs, p ≠ q → p.Apart q
  inside : ∀ p ∈ r.pairs, ∀ i c, (i, c) ∈ Text.withOffsets 0 text → Text.isParenthesis c →
    p.opening < i → i < p.closing → ∃ q ∈ r.pairs, q.EndsAt i ∧ p.Encloses q
  unpaired : ∀ i j, (i, ')') ∈ Text.withOffsets 0 text → (j, '(') ∈ Text.withOffsets 0 text →
    ¬ r.Paired i → ¬ r.Paired j → i < j
  balanced : r.balanced ↔ ∀ i c, (i, c) ∈ Text.withOffsets 0 text → Text.isParenthesis c → r.Paired i
  innermost_isSome : r.innermost.isSome ↔ r.pairs ≠ []
  innermost : ∀ inner ∈ r.innermost, ∀ c ∈ inner, Text.isParenthesis c = false
  depth : r.balanced → ∀ p ∈ r.pairs, p.depth = 1 + r.pairs.countP (·.Encloses p)
  maxDepth : r.balanced → IsGreatest (excesses text) r.maxDepth

variable {text : List Char} {m : Matching} {i : Nat} {p q : ParenPair}

theorem mem_pairs : p ∈ (ofText text).pairs ↔ p ∈ (Matching.ofText text).pairs := List.mem_mergeSort

theorem paired_iff : (ofText text).Paired i ↔ ∃ p ∈ (Matching.ofText text).pairs, p.EndsAt i := by
  simp only [Paired, mem_pairs]

theorem found_ofText (text : List Char) : Matching.Found (Text.withOffsets 0 text) (Matching.ofText text) :=
  Matching.found_run (Text.pairwise_withOffsets 0 text)

theorem ascending_ofText (text : List Char) : (ofText text).pairs.Pairwise fun p q => p.opening < q.opening := by
  have hfound := found_ofText text
  have hsorted : (ofText text).pairs.Pairwise fun p q => decide (p.opening ≤ q.opening) :=
    List.pairwise_mergeSort (by simp; omega) (by simp; omega) _
  have hapart : (ofText text).pairs.Pairwise ParenPair.Apart :=
    ((List.mergeSort_perm _ _).pairwise_iff ParenPair.Apart.symm).2 (hfound.laminar.imp ParenPair.Follows.apart)
  refine (hsorted.and hapart).imp_of_mem fun {p q} hp hq h => ?_
  have hplt := (hfound.ends p (mem_pairs.1 hp)).2.2
  have hqlt := (hfound.ends q (mem_pairs.1 hq)).2.2
  obtain ⟨hle, hapart⟩ := h
  have hle := of_decide_eq_true hle
  unfold ParenPair.Apart ParenPair.Encloses at hapart
  omega

theorem balanced_iff_free : (ofText text).balanced ↔
    (Matching.ofText text).unbroken ∧ (Matching.ofText text).free = [] := by
  simp [ofText]

theorem balanced_iff : (ofText text).balanced ↔
    ∀ i c, (i, c) ∈ Text.withOffsets 0 text → Text.isParenthesis c → (ofText text).Paired i := by
  have hfound := found_ofText text
  simp only [balanced_iff_free, paired_iff]
  constructor
  · rintro ⟨hunbroken, hfree⟩ i c hi hc
    rcases Bool.or_eq_true_iff.1 hc with hopen | hclose
    · obtain rfl := eq_of_beq hopen
      rcases hfound.opened i hi with hmem | ⟨p, hp, rfl⟩
      · simp [hfree] at hmem
      · exact ⟨p, hp, .inl rfl⟩
    · obtain rfl := eq_of_beq hclose
      rcases hfound.closed i hi with hun | ⟨p, hp, rfl⟩
      · exact absurd hunbroken (Bool.eq_false_iff.1 hun.unbroken)
      · exact ⟨p, hp, .inr rfl⟩
  · intro h
    refine ⟨?_, List.eq_nil_iff_forall_not_mem.2 fun i hi => ?_⟩
    · by_contra hbroken
      obtain ⟨i, hi, hun⟩ := hfound.broken (Bool.eq_false_iff.2 hbroken)
      obtain ⟨p, hp, hend⟩ := h i ')' hi rfl
      exact (hun.pairs p hp).not_endsAt (hfound.ends p hp).2.2 hend
    · obtain ⟨p, hp, hend⟩ := h i '(' (hfound.free i hi) rfl
      exact (hfound.outside i hi p hp).not_endsAt (hfound.ends p hp).2.2 hend

/-- Where there are pairs, one of them is the deepest. -/
theorem innermost_isSome_iff : (ofText text).innermost.isSome ↔ (ofText text).pairs ≠ [] := by
  rw [ofText, Option.isSome_map, List.find?_isSome]
  constructor
  · rintro ⟨p, hp, -⟩
    exact List.ne_nil_of_mem hp
  · intro hne
    have hdepths : (ofText text).pairs.map ParenPair.depth ≠ [] := mt List.map_eq_nil_iff.1 hne
    have hmem : (ofText text).maxDepth ∈ (ofText text).pairs.map ParenPair.depth :=
      List.maximum_mem (List.foldr_max_of_ne_nil hdepths).symm
    obtain ⟨p, hp, hdepth⟩ := List.mem_map.1 hmem
    exact ⟨p, hp, beq_iff_eq.2 hdepth⟩

theorem innermost_ofText : ∀ inner ∈ (ofText text).innermost, ∀ c ∈ inner, Text.isParenthesis c = false := by
  intro inner hinner c hc
  obtain ⟨p, hfind, rfl⟩ := Option.map_eq_some_iff.1 hinner
  obtain ⟨⟨i, d⟩, hi, hd⟩ := List.mem_filterMap.1 hc
  have hp := List.mem_of_find?_eq_some hfind
  have hdeepest := List.find?_some hfind
  have hdepth : p.depth = (ofText text).maxDepth := eq_of_beq hdeepest
  split at hd
  · rename_i hinside
    cases hd
    simp only [Bool.and_eq_true, decide_eq_true_eq] at hinside
    -- a pair that ends here would be deeper than the deepest one
    by_contra hparenthesis
    obtain ⟨q, hq, -, hencloses⟩ := (found_ofText text).inside (mem_pairs.1 hp) hi
      (by simpa using hparenthesis) hinside.1 hinside.2
    have hlt := (found_ofText text).depth_lt (mem_pairs.1 hp) hq hencloses
    have hle : q.depth ≤ (ofText text).maxDepth :=
      List.le_max_of_le' 0 (List.mem_map_of_mem (mem_pairs.2 hq)) (Nat.le_refl _)
    omega
  · cases hd

theorem maxDepth_ofText (h : (ofText text).balanced) : IsGreatest (excesses text) (ofText text).maxDepth := by
  obtain ⟨hunbroken, hfree⟩ := balanced_iff_free.1 h
  have hgreatest := (Matching.rises_run (Text.withOffsets 0 text) hunbroken).greatest
  have hpeak : (Matching.ofText text).peak = (ofText text).maxDepth := by
    have hperm := (List.mergeSort_perm (Matching.ofText text).pairs fun p q => p.opening ≤ q.opening).map
      ParenPair.depth
    rw [Matching.peak, hfree]
    exact (hperm.foldr_eq 0).symm
  rwa [Text.map_snd_withOffsets, ← Matching.ofText, hpeak] at hgreatest

/-- In every text, balanced or not, the parentheses are paired. -/
theorem ofText_isPairing (text : List Char) : (ofText text).IsPairing text := by
  have hfound := found_ofText text
  constructor
  case ends => exact fun p hp => hfound.ends p (mem_pairs.1 hp)
  case ascending => exact ascending_ofText text
  case unique =>
    intro p hp q hq i hpi hqi
    by_contra hne
    have hplt := (hfound.ends p (mem_pairs.1 hp)).2.2
    have hqlt := (hfound.ends q (mem_pairs.1 hq)).2.2
    have hapart := hfound.apart (mem_pairs.1 hp) (mem_pairs.1 hq) hne
    unfold ParenPair.Apart ParenPair.Encloses at hapart
    unfold ParenPair.EndsAt at hpi hqi
    omega
  case apart => exact fun p hp q hq => hfound.apart (mem_pairs.1 hp) (mem_pairs.1 hq)
  case inside =>
    intro p hp i c hi hc hlow hhigh
    simp only [mem_pairs] at hp ⊢
    exact hfound.inside hp hi hc hlow hhigh
  case unpaired =>
    intro i j hi hj hni hnj
    rw [paired_iff] at hni hnj
    have hun := (hfound.closed i hi).resolve_right fun ⟨p, hp, hend⟩ => hni ⟨p, hp, .inr hend.symm⟩
    have hfree := (hfound.opened j hj).resolve_right fun ⟨p, hp, hend⟩ => hnj ⟨p, hp, .inl hend.symm⟩
    exact hun.free j hfree
  case balanced => exact balanced_iff
  case innermost_isSome => exact innermost_isSome_iff
  case innermost => exact innermost_ofText
  case depth =>
    intro hbalanced p hp
    have hfree := (balanced_iff_free.1 hbalanced).2
    have hperm := List.mergeSort_perm (Matching.ofText text).pairs fun p q => p.opening ≤ q.opening
    rw [hfound.depth p (mem_pairs.1 hp), hfree, List.countP_nil, Nat.add_zero, ← hperm.countP_eq]
    rfl
  case maxDepth => exact maxDepth_ofText

end Parentheses

end ExactAlgebra.Profile
