import ExactAlgebra.Proofs.Profile.Parentheses
import Mathlib.Data.List.Infix
import Mathlib.Data.List.MinMax
import Mathlib.Order.Bounds.Basic

/-!
# Matching parentheses

What matching has found after each place of a text, balanced or not: pairs that lie apart or one inside the other, with
nothing inside them that is free or has no partner.
-/

namespace ExactAlgebra

theorem Text.le_of_mem_withOffsets {offset : Nat} {cs : List Char} :
    ∀ place ∈ withOffsets offset cs, offset ≤ place.1 := by
  induction cs generalizing offset with
  | nil => exact List.forall_mem_nil _
  | cons c cs ih => exact List.forall_mem_cons.2 ⟨Nat.le_refl _, fun place h => (Nat.le_add_right ..).trans (ih place h)⟩

theorem Text.pairwise_withOffsets (offset : Nat) (cs : List Char) :
    (withOffsets offset cs).Pairwise fun a b => a.1 < b.1 := by
  induction cs generalizing offset with
  | nil => exact .nil
  | cons c cs ih =>
      refine List.pairwise_cons.2 ⟨fun place h => ?_, ih _⟩
      exact Nat.lt_of_lt_of_le (Nat.lt_add_of_pos_right c.utf8Size_pos) (le_of_mem_withOffsets place h)

namespace Profile

namespace ParenPair

/-- The other pair stands inside this one. -/
def Encloses (p q : ParenPair) : Prop := p.opening < q.opening ∧ q.closing < p.closing

instance (p q : ParenPair) : Decidable (p.Encloses q) := inferInstanceAs (Decidable (_ ∧ _))

/-- The pair, which is closed later than the other one, stands behind it or around it. -/
def Follows (p q : ParenPair) : Prop := q.closing < p.opening ∨ p.Encloses q

/-- One of two pairs stands before the other one, or inside it. -/
def Apart (p q : ParenPair) : Prop :=
  p.closing < q.opening ∨ q.closing < p.opening ∨ p.Encloses q ∨ q.Encloses p

theorem Apart.symm {p q : ParenPair} (h : p.Apart q) : q.Apart p := by
  unfold Apart at h ⊢
  tauto

theorem Encloses.trans {p q r : ParenPair} (h : q.Encloses r) (h' : p.Encloses q) : p.Encloses r :=
  ⟨h'.1.trans h.1, h.2.trans h'.2⟩

/-- The place is one of the ends. -/
def EndsAt (p : ParenPair) (i : Nat) : Prop := i = p.opening ∨ i = p.closing

/-- The place is outside of the pair. -/
def Avoids (p : ParenPair) (i : Nat) : Prop := i < p.opening ∨ p.closing < i

theorem Follows.apart {p q : ParenPair} (h : p.Follows q) : p.Apart q := by
  unfold Follows at h
  unfold Apart
  tauto

theorem Avoids.not_endsAt {p : ParenPair} {i : Nat} (h : p.Avoids i) (hlt : p.opening < p.closing) :
    ¬ p.EndsAt i := by
  unfold Avoids at h
  unfold EndsAt
  omega

end ParenPair

namespace Matching

/-- A closing parenthesis that has no partner: what is free now stands behind it, and no pair around it. -/
structure Unpaired (m : Matching) (i : Nat) : Prop where
  unbroken : m.unbroken = false
  free : ∀ j ∈ m.free, i < j
  pairs : ∀ p ∈ m.pairs, p.Avoids i

/-- What matching has found in the places that were seen. -/
structure Found (seen : List (Nat × Char)) (m : Matching) : Prop where
  ends : ∀ p ∈ m.pairs, (p.opening, '(') ∈ seen ∧ (p.closing, ')') ∈ seen ∧ p.opening < p.closing
  laminar : m.pairs.Pairwise ParenPair.Follows
  free : ∀ i ∈ m.free, (i, '(') ∈ seen
  descending : m.free.Pairwise (· > ·)
  outside : ∀ i ∈ m.free, ∀ p ∈ m.pairs, p.Avoids i
  opened : ∀ i, (i, '(') ∈ seen → i ∈ m.free ∨ ∃ p ∈ m.pairs, p.opening = i
  closed : ∀ i, (i, ')') ∈ seen → m.Unpaired i ∨ ∃ p ∈ m.pairs, p.closing = i
  broken : m.unbroken = false → ∃ i, (i, ')') ∈ seen ∧ m.Unpaired i
  depth : ∀ p ∈ m.pairs, p.depth = 1 + m.pairs.countP (·.Encloses p) + m.free.countP (· < p.opening)

variable {seen : List (Nat × Char)} {m : Matching} {i j : Nat} {free : List Nat} {c : Char}

theorem found_start : Found [] start := by
  constructor <;> simp [start]

theorem Found.other (h : Found seen m) (hc : Text.isParenthesis c = false) : Found (seen ++ [(i, c)]) m := by
  have hmem {j : Nat} {d : Char} (hd : Text.isParenthesis d) : (j, d) ∈ seen ++ [(i, c)] ↔ (j, d) ∈ seen := by
    rw [List.mem_append, List.mem_singleton, Prod.mk.injEq, or_iff_left]
    rintro ⟨-, rfl⟩
    exact absurd hd (by simp [hc])
  have hopen {j : Nat} : (j, '(') ∈ seen ++ [(i, c)] ↔ (j, '(') ∈ seen := hmem rfl
  have hclose {j : Nat} : (j, ')') ∈ seen ++ [(i, c)] ↔ (j, ')') ∈ seen := hmem rfl
  constructor
  case ends => simpa only [hopen, hclose] using h.ends
  case laminar => exact h.laminar
  case free => simpa only [hopen] using h.free
  case descending => exact h.descending
  case outside => exact h.outside
  case opened => simpa only [hopen] using h.opened
  case closed => simpa only [hclose] using h.closed
  case broken => simpa only [hclose] using h.broken
  case depth => exact h.depth

theorem Found.opening (h : Found seen m) (hlast : ∀ place ∈ seen, place.1 < i) :
    Found (seen ++ [(i, '(')]) { m with free := i :: m.free } := by
  have hopen {k : Nat} : (k, '(') ∈ seen ++ [(i, '(')] ↔ (k, '(') ∈ seen ∨ k = i := by simp
  have hclose {k : Nat} : (k, ')') ∈ seen ++ [(i, '(')] ↔ (k, ')') ∈ seen := by simp
  have hpairs : ∀ p ∈ m.pairs, p.closing < i := fun p hp => hlast _ (h.ends p hp).2.1
  have hunpaired {k : Nat} (hk : (k, ')') ∈ seen) (hun : m.Unpaired k) :
      Unpaired { m with free := i :: m.free } k :=
    ⟨hun.unbroken, List.forall_mem_cons.2 ⟨hlast _ hk, hun.free⟩, hun.pairs⟩
  constructor
  case ends =>
    intro p hp
    obtain ⟨hp₁, hp₂, hlt⟩ := h.ends p hp
    exact ⟨hopen.2 (.inl hp₁), hclose.2 hp₂, hlt⟩
  case laminar => exact h.laminar
  case free => exact List.forall_mem_cons.2 ⟨hopen.2 (.inr rfl), fun k hk => hopen.2 (.inl (h.free k hk))⟩
  case descending => exact List.pairwise_cons.2 ⟨fun k hk => hlast _ (h.free k hk), h.descending⟩
  case outside => exact List.forall_mem_cons.2 ⟨fun p hp => .inr (hpairs p hp), h.outside⟩
  case opened =>
    intro k hk
    rcases hopen.1 hk with hk | rfl
    · exact (h.opened k hk).imp_left (List.mem_cons_of_mem i)
    · exact .inl List.mem_cons_self
  case closed => exact fun k hk => (h.closed k (hclose.1 hk)).imp_left (hunpaired (hclose.1 hk))
  case broken =>
    intro hbroken
    obtain ⟨k, hk, hun⟩ := h.broken hbroken
    exact ⟨k, hclose.2 hk, hunpaired hk hun⟩
  case depth =>
    intro p hp
    have hi : ¬ i < p.opening := by
      have := (h.ends p hp).2.2
      have := hpairs p hp
      omega
    rw [h.depth p hp, List.countP_cons_of_neg (by simpa using hi)]

theorem Found.closing (h : Found seen m) (hlast : ∀ place ∈ seen, place.1 < i) (hfree : m.free = j :: free) :
    Found (seen ++ [(i, ')')]) { m with free := free, pairs := ⟨j, i, free.length + 1⟩ :: m.pairs } := by
  have hopen {k : Nat} : (k, '(') ∈ seen ++ [(i, ')')] ↔ (k, '(') ∈ seen := by simp
  have hclose {k : Nat} : (k, ')') ∈ seen ++ [(i, ')')] ↔ (k, ')') ∈ seen ∨ k = i := by simp
  have hpairs : ∀ p ∈ m.pairs, p.closing < i := fun p hp => hlast _ (h.ends p hp).2.1
  obtain ⟨hj, hfree'⟩ := List.forall_mem_cons.1 (hfree ▸ h.free)
  obtain ⟨hlow, hdescending⟩ := List.pairwise_cons.1 (hfree ▸ h.descending)
  obtain ⟨hjpairs, houtside⟩ := List.forall_mem_cons.1 (hfree ▸ h.outside)
  have hunpaired {k : Nat} (hun : m.Unpaired k) :
      Unpaired { m with free := free, pairs := ⟨j, i, free.length + 1⟩ :: m.pairs } k := by
    obtain ⟨hk, hk'⟩ := List.forall_mem_cons.1 (hfree ▸ hun.free)
    exact ⟨hun.unbroken, hk', List.forall_mem_cons.2 ⟨.inl hk, hun.pairs⟩⟩
  constructor
  case ends =>
    refine List.forall_mem_cons.2 ⟨⟨hopen.2 hj, hclose.2 (.inr rfl), hlast _ hj⟩, fun p hp => ?_⟩
    obtain ⟨hp₁, hp₂, hlt⟩ := h.ends p hp
    exact ⟨hopen.2 hp₁, hclose.2 (.inl hp₂), hlt⟩
  case laminar =>
    refine List.pairwise_cons.2 ⟨fun q hq => ?_, h.laminar⟩
    exact (hjpairs q hq).symm.imp_right fun hlt => ⟨hlt, hpairs q hq⟩
  case free => exact fun k hk => hopen.2 (hfree' k hk)
  case descending => exact hdescending
  case outside => exact fun k hk => List.forall_mem_cons.2 ⟨.inl (hlow k hk), houtside k hk⟩
  case opened =>
    intro k hk
    rcases h.opened k (hopen.1 hk) with hk | ⟨p, hp, rfl⟩
    · rcases List.mem_cons.1 (hfree ▸ hk) with rfl | hk
      · exact .inr ⟨_, List.mem_cons_self, rfl⟩
      · exact .inl hk
    · exact .inr ⟨p, List.mem_cons_of_mem _ hp, rfl⟩
  case closed =>
    intro k hk
    rcases hclose.1 hk with hk | rfl
    · rcases h.closed k hk with hun | ⟨p, hp, rfl⟩
      · exact .inl (hunpaired hun)
      · exact .inr ⟨p, List.mem_cons_of_mem _ hp, rfl⟩
    · exact .inr ⟨_, List.mem_cons_self, rfl⟩
  case broken =>
    intro hbroken
    obtain ⟨k, hk, hun⟩ := h.broken hbroken
    exact ⟨k, hclose.2 (.inl hk), hunpaired hun⟩
  case depth =>
    refine List.forall_mem_cons.2 ⟨?_, fun p hp => ?_⟩
    · have hnone : ∀ q ∈ ⟨j, i, free.length + 1⟩ :: m.pairs, ¬ q.Encloses ⟨j, i, free.length + 1⟩ :=
        List.forall_mem_cons.2 ⟨fun hq => Nat.lt_irrefl _ hq.1, fun q hq hq' => (hpairs q hq).not_gt hq'.2⟩
      rw [List.countP_eq_zero.2 (by simpa using hnone), List.countP_eq_length.2 (by simpa using hlow),
        Nat.add_comm]
    · -- the new pair is around those that are behind its opening, which was free before
      have hencloses : ParenPair.Encloses ⟨j, i, free.length + 1⟩ p ↔ j < p.opening := and_iff_left (hpairs p hp)
      rw [h.depth p hp, hfree, List.countP_cons, List.countP_cons]
      simp only [hencloses]
      omega

theorem Found.unpaired (h : Found seen m) (hlast : ∀ place ∈ seen, place.1 < i) (hfree : m.free = []) :
    Found (seen ++ [(i, ')')]) { m with unbroken := false } := by
  have hopen {k : Nat} : (k, '(') ∈ seen ++ [(i, ')')] ↔ (k, '(') ∈ seen := by simp
  have hclose {k : Nat} : (k, ')') ∈ seen ++ [(i, ')')] ↔ (k, ')') ∈ seen ∨ k = i := by simp
  have hpairs : ∀ p ∈ m.pairs, p.closing < i := fun p hp => hlast _ (h.ends p hp).2.1
  have hnew : Unpaired { m with unbroken := false } i := ⟨rfl, by simp [hfree], fun p hp => .inr (hpairs p hp)⟩
  constructor
  case ends =>
    intro p hp
    obtain ⟨hp₁, hp₂, hlt⟩ := h.ends p hp
    exact ⟨hopen.2 hp₁, hclose.2 (.inl hp₂), hlt⟩
  case laminar => exact h.laminar
  case free => exact fun k hk => hopen.2 (h.free k hk)
  case descending => exact h.descending
  case outside => exact h.outside
  case opened => exact fun k hk => h.opened k (hopen.1 hk)
  case closed =>
    intro k hk
    rcases hclose.1 hk with hk | rfl
    · exact (h.closed k hk).imp_left fun hun => ⟨rfl, hun.free, hun.pairs⟩
    · exact .inl hnew
  case broken => exact fun _ => ⟨i, hclose.2 (.inr rfl), hnew⟩
  case depth => exact h.depth

theorem step_close (hfree : m.free = j :: free) :
    step m (i, ')') = { m with free := free, pairs := ⟨j, i, free.length + 1⟩ :: m.pairs } := by
  simp [step, hfree]

theorem step_unpaired (hfree : m.free = []) : step m (i, ')') = { m with unbroken := false } := by
  simp [step, hfree]

theorem unbroken_of_step {place : Nat × Char} (h : (m.step place).unbroken) : m.unbroken := by
  unfold step at h
  split at h
  · exact h
  · split at h
    · split at h
      · cases h
      · exact h
    · exact h

theorem Found.step (h : Found seen m) (hlast : ∀ place ∈ seen, place.1 < i) :
    Found (seen ++ [(i, c)]) (m.step (i, c)) := by
  by_cases hopen : c = '('
  · subst hopen
    exact h.opening hlast
  by_cases hclose : c = ')'
  · subst hclose
    cases hfree : m.free with
    | nil =>
        rw [step_unpaired hfree]
        exact h.unpaired hlast hfree
    | cons j free =>
        rw [step_close hfree]
        exact h.closing hlast hfree
  have hc : Text.isParenthesis c = false := by simp [Text.isParenthesis, hopen, hclose]
  rw [step_of_not_parenthesis hc]
  exact h.other hc

/-- Places in ascending order are matched from the first to the last. -/
theorem found_run {places : List (Nat × Char)} (h : places.Pairwise fun a b => a.1 < b.1) :
    Found places (places.foldl Matching.step start) := by
  induction places using List.reverseRecOn with
  | nil => exact found_start
  | append_singleton seen place ih =>
      obtain ⟨hseen, -, hlast⟩ := List.pairwise_append.1 h
      rw [List.foldl_append, List.foldl_cons, List.foldl_nil]
      exact (ih hseen).step fun q hq => hlast q hq place (List.mem_singleton_self place)

/-! ## The height of a text -/

end Matching

/-- How many more opening than closing parentheses there are. -/
def excess (cs : List Char) : Int := cs.count '(' - cs.count ')'

/-- The excess of each front of a text. -/
def excesses (cs : List Char) : Set Int := excess '' {front | front <+: cs}

theorem excesses_concat (cs : List Char) (c : Char) :
    excesses (cs ++ [c]) = insert (excess (cs ++ [c])) (excesses cs) := by
  have hfronts : {front | front <+: cs ++ [c]} = insert (cs ++ [c]) {front | front <+: cs} :=
    Set.ext fun front => List.prefix_concat_iff
  rw [excesses, hfronts, Set.image_insert_eq, ← excesses]

namespace Matching

/-- The greatest number of parentheses that were free at once. -/
def peak (m : Matching) : Nat := (m.pairs.map ParenPair.depth).foldr max m.free.length

/-- As long as every closing parenthesis has a partner, the free ones are the excess. -/
structure Rises (seen : List Char) (m : Matching) : Prop where
  excess : excess seen = m.free.length
  greatest : IsGreatest (excesses seen) m.peak

theorem rises_start : Rises [] start := by
  refine ⟨rfl, ?_⟩
  have hfronts : {front : List Char | front <+: []} = {[]} := Set.ext fun front => List.prefix_nil
  rw [excesses, hfronts, Set.image_singleton]
  exact isGreatest_singleton

theorem free_le_peak (m : Matching) : m.free.length ≤ m.peak := by
  have hpeak := foldr_max_max (m.pairs.map ParenPair.depth) m.free.length m.free.length
  rw [Nat.max_self] at hpeak
  exact (Nat.le_max_left _ _).trans_eq hpeak.symm

theorem Rises.step {seen : List Char} (h : Rises seen m) (hunbroken : (m.step (i, c)).unbroken) :
    Rises (seen ++ [c]) (m.step (i, c)) := by
  suffices hstep : Profile.excess (seen ++ [c]) = (m.step (i, c)).free.length ∧
      (m.step (i, c)).peak = max (m.step (i, c)).free.length m.peak by
    refine ⟨hstep.1, ?_⟩
    rw [excesses_concat, hstep.1, hstep.2, Nat.cast_max]
    exact h.greatest.insert _
  have hexcess := h.excess
  have hpeak := m.free_le_peak
  simp only [Profile.excess, List.count_append] at hexcess ⊢
  by_cases hopen : c = '('
  · subst hopen
    refine ⟨?_, ?_⟩
    · rw [Matching.step, if_pos rfl, List.length_cons, List.count_singleton_self]
      simp
      omega
    · rw [Matching.step, if_pos rfl, peak, List.length_cons, peak, ← foldr_max_max,
        Nat.max_eq_left (Nat.le_succ _)]
  by_cases hclose : c = ')'
  · subst hclose
    cases hfree : m.free with
    | nil =>
        rw [step_unpaired hfree] at hunbroken
        cases hunbroken
    | cons j free =>
        rw [step_close hfree]
        rw [hfree, List.length_cons] at hexcess hpeak
        refine ⟨?_, ?_⟩
        · simp
          omega
        · have hclosed : peak { m with free := free, pairs := ⟨j, i, free.length + 1⟩ :: m.pairs } = m.peak := by
            rw [peak, List.map_cons, List.foldr_cons, ← foldr_max_max, Nat.max_eq_left (Nat.le_succ _), peak, hfree,
              List.length_cons]
          rw [hclosed, Nat.max_eq_right (Nat.le_of_succ_le hpeak)]
  have hc : Text.isParenthesis c = false := by simp [Text.isParenthesis, hopen, hclose]
  rw [step_of_not_parenthesis hc, List.count_singleton, List.count_singleton]
  simp [hopen, hclose, hexcess, hpeak]

/-- While no closing parenthesis is without a partner, the peak is the greatest excess of a front. -/
theorem rises_run (places : List (Nat × Char)) (h : (places.foldl Matching.step start).unbroken) :
    Rises (places.map Prod.snd) (places.foldl Matching.step start) := by
  induction places using List.reverseRecOn with
  | nil => exact rises_start
  | append_singleton seen place ih =>
      rw [List.foldl_append, List.foldl_cons, List.foldl_nil] at h ⊢
      rw [List.map_append, List.map_singleton]
      exact (ih (unbroken_of_step h)).step h

/-! ## What is found -/

variable {p q : ParenPair}

theorem Found.apart (h : Found seen m) (hp : p ∈ m.pairs) (hq : q ∈ m.pairs) (hne : p ≠ q) : p.Apart q := by
  have hsymm : Std.Symm ParenPair.Apart := ⟨fun _ _ => ParenPair.Apart.symm⟩
  exact (h.laminar.imp ParenPair.Follows.apart).forall hp hq hne

/-- What stands inside a pair has its partner there. -/
theorem Found.inside (h : Found seen m) (hp : p ∈ m.pairs) (hi : (i, c) ∈ seen) (hc : Text.isParenthesis c)
    (hlow : p.opening < i) (hhigh : i < p.closing) : ∃ q ∈ m.pairs, q.EndsAt i ∧ p.Encloses q := by
  have hinside : ¬ p.Avoids i := by
    unfold ParenPair.Avoids
    omega
  have hpartner : ∃ q ∈ m.pairs, q.EndsAt i := by
    rcases Bool.or_eq_true_iff.1 hc with hopen | hclose
    · obtain rfl := eq_of_beq hopen
      rcases h.opened i hi with hfree | ⟨q, hq, rfl⟩
      · exact absurd (h.outside i hfree p hp) hinside
      · exact ⟨q, hq, .inl rfl⟩
    · obtain rfl := eq_of_beq hclose
      rcases h.closed i hi with hun | ⟨q, hq, rfl⟩
      · exact absurd (hun.pairs p hp) hinside
      · exact ⟨q, hq, .inr rfl⟩
  obtain ⟨q, hq, hend⟩ := hpartner
  refine ⟨q, hq, hend, ?_⟩
  have hne : p ≠ q := by
    rintro rfl
    unfold ParenPair.EndsAt at hend
    omega
  have hlt := (h.ends q hq).2.2
  have hapart := h.apart hp hq hne
  unfold ParenPair.Apart ParenPair.Encloses at hapart
  unfold ParenPair.EndsAt at hend
  unfold ParenPair.Encloses
  omega

/-- A pair inside another one is deeper. -/
theorem Found.depth_lt (h : Found seen m) (hp : p ∈ m.pairs) (hq : q ∈ m.pairs) (hencloses : p.Encloses q) :
    p.depth < q.depth := by
  have hfree : m.free.countP (· < p.opening) ≤ m.free.countP (· < q.opening) :=
    List.countP_mono_left fun i _ hi => by
      have := hencloses.1
      simp only [decide_eq_true_eq] at hi ⊢
      omega
  have hmono (ps : List ParenPair) : ps.countP (·.Encloses p) ≤ ps.countP (·.Encloses q) :=
    List.countP_mono_left fun r _ hr => decide_eq_true (hencloses.trans (of_decide_eq_true hr))
  have hpairs : m.pairs.countP (·.Encloses p) < m.pairs.countP (·.Encloses q) := by
    obtain ⟨before, behind, hsplit⟩ := List.append_of_mem hp
    have hbefore := hmono before
    have hbehind := hmono behind
    have hself : ¬ p.Encloses p := fun hp => Nat.lt_irrefl _ hp.1
    rw [hsplit, List.countP_append, List.countP_append, List.countP_cons_of_neg (by simpa using hself),
      List.countP_cons_of_pos (by simpa using hencloses)]
    omega
  rw [h.depth p hp, h.depth q hq]
  omega

end Matching

end Profile

end ExactAlgebra
