import ExactAlgebra.Proofs.Profile.Marks
import Mathlib.Data.List.Forall2
import Mathlib.Data.List.ReduceOption

/-!
# Levels of fractions

How deep the fractions of a list of marks stand one inside the other. Marks are read from left to right with a stack of
the groups that are open; a fraction is one level deeper than the arguments of fractions among these.
-/

namespace ExactAlgebra.Profile

/-! ## The deepest level -/

/-- The greatest of some levels, and zero if there are none. -/
def deepest (ns : List Nat) : Nat := ns.foldr max 0

theorem deepest_append (ms ns : List Nat) : deepest (ms ++ ns) = max (deepest ms) (deepest ns) := by
  induction ms with
  | nil => exact (Nat.zero_max _).symm
  | cons m ms ih => rw [List.cons_append, deepest, List.foldr_cons, ← deepest, ih, ← Nat.max_assoc]; rfl

/-- One level around others. -/
theorem deepest_around (ns : List Nat) : deepest (1 :: ns.map (· + 1)) = deepest ns + 1 := by
  induction ns with
  | nil => rfl
  | cons n ns ih =>
      simp only [deepest, List.map_cons, List.foldr_cons] at ih ⊢
      omega

theorem lt_deepest_iff {k : Nat} {ns : List Nat} : k < deepest ns ↔ ∃ n ∈ ns, k < n := by
  induction ns with
  | nil => simp [deepest]
  | cons n ns ih =>
      rw [List.exists_mem_cons_iff, ← ih]
      simp only [deepest, List.foldr_cons]
      omega

theorem deepest_le_of_forall₂ {ms ns : List Nat} (h : List.Forall₂ (· ≤ ·) ms ns) : deepest ms ≤ deepest ns := by
  induction h with
  | nil => exact Nat.le_refl 0
  | cons hle _ ih =>
      simp only [deepest, List.foldr_cons] at ih ⊢
      omega

/-! ## Places -/

/-- What a group in braces is. -/
inductive Role where
  | numerator
  | denominator
  | other
  deriving DecidableEq

def Role.isArgument : Role → Bool
  | numerator => true
  | denominator => true
  | other => false

/-- What a group would be that comes right behind another one. -/
def Role.following : Role → Role
  | numerator => denominator
  | _ => other

/-- Where reading stands: the groups that are open, the innermost one first, and what a group would be that was opened
next. -/
structure Place where
  opened : List Role
  next : Role

namespace Place

def start : Place := ⟨[], .other⟩

/-- The number of arguments of fractions that are open. -/
def depth (p : Place) : Nat := p.opened.countP Role.isArgument

/-- The place behind a mark, or behind something without a mark. -/
def after (p : Place) : Option Mark → Place
  | some .fraction => ⟨p.opened, .numerator⟩
  | some .opening => ⟨p.next :: p.opened, .other⟩
  | some .closing => ⟨p.opened.tail, (p.opened.headD .other).following⟩
  | none => ⟨p.opened, .other⟩

/-- The place behind a list of marks. -/
def run (p : Place) (us : List (Option Mark)) : Place := us.foldl after p

/-- The levels of the fractions, in the order in which they are written. -/
def levels (p : Place) : List (Option Mark) → List Nat
  | [] => []
  | u :: us => (if u = some .fraction then [p.depth + 1] else []) ++ (p.after u).levels us

variable {p q : Place} {opened base : List Role} {role : Role} {u : Option Mark} {us vs ws : List (Option Mark)}

theorem levels_append (us vs : List (Option Mark)) : p.levels (us ++ vs) = p.levels us ++ (p.run us).levels vs := by
  induction us generalizing p with
  | nil => rfl
  | cons u us ih => rw [List.cons_append, levels, ih, ← List.append_assoc]; rfl

theorem levels_cons (hu : u ≠ some .fraction) : p.levels (u :: us) = (p.after u).levels us := by
  rw [levels, if_neg hu, List.nil_append]

theorem levels_eq_nil (h : some .fraction ∉ us) : p.levels us = [] := by
  induction us generalizing p with
  | nil => rfl
  | cons u us ih =>
      obtain ⟨hu, hus⟩ := List.ne_and_not_mem_of_not_mem_cons h
      rw [levels_cons hu.symm, ih hus]

/-- What the next group would be matters only if one is opened next. -/
theorem levels_next (h : us.head? ≠ some (some .opening)) (role' : Role) :
    levels ⟨opened, role⟩ us = levels ⟨opened, role'⟩ us := by
  match us with
  | [] | none :: _ | some .fraction :: _ | some .closing :: _ => rfl
  | some .opening :: _ => exact absurd rfl h

/-- A mark that opens no argument is read the same behind something without a mark. -/
theorem after_loose (h : u = some .opening → p.next.isArgument = false) : (p.after none).after u = p.after u := by
  match u with
  | none | some .fraction | some .closing => rfl
  | some .opening =>
      have hnext : p.next = .other := by
        cases hnext : p.next with
        | numerator | denominator => exact absurd (h rfl) (by simp [hnext, Role.isArgument])
        | other => rfl
      rw [after, after, after, hnext]

/-! ### Outside of arguments -/

/-- No argument of a fraction is open, and none would be opened next. -/
structure IsOutside (p : Place) : Prop where
  depth : p.depth = 0
  next : p.next = .other

theorem start_isOutside : start.IsOutside := ⟨rfl, rfl⟩

theorem IsOutside.after (h : p.IsOutside) (hu : u ≠ some .fraction) : (p.after u).IsOutside := by
  obtain ⟨opened, next⟩ := p
  obtain ⟨hdepth, rfl⟩ : opened.countP Role.isArgument = 0 ∧ next = .other := ⟨h.depth, h.next⟩
  match u with
  | none => exact ⟨hdepth, rfl⟩
  | some .fraction => exact absurd rfl hu
  | some .opening => exact ⟨by rwa [Place.depth, Place.after, List.countP_cons_of_neg Bool.false_ne_true], rfl⟩
  | some .closing =>
      cases opened with
      | nil => exact ⟨rfl, rfl⟩
      | cons role opened =>
          cases role with
          | numerator | denominator => simp [Role.isArgument] at hdepth
          | other => exact ⟨by rwa [List.countP_cons_of_neg Bool.false_ne_true] at hdepth, rfl⟩

theorem IsOutside.run (h : p.IsOutside) (hus : some .fraction ∉ us) : (p.run us).IsOutside := by
  induction us generalizing p with
  | nil => exact h
  | cons u us ih =>
      obtain ⟨hu, hus⟩ := List.ne_and_not_mem_of_not_mem_cons hus
      exact ih (h.after hu.symm) hus

/-! ### Groups -/

/-- The same place with more groups open around. -/
def above (p : Place) (base : List Role) : Place := ⟨p.opened ++ base, p.next⟩

theorem depth_above : (p.above base).depth = p.depth + base.countP Role.isArgument := List.countP_append

/-- If the marks close what is open, and nothing else, then each fraction is deeper by the arguments around. -/
theorem levels_above {bound : Nat} (p : Place) (base : List Role) (h : Nests bound p.opened.length us.reduceOption 0) :
    (p.above base).levels us = (p.levels us).map (· + base.countP Role.isArgument) ∧
      ((p.above base).run us).opened = base := by
  induction us generalizing p with
  | nil =>
      cases p with
      | mk opened next =>
          cases opened with
          | nil => exact ⟨rfl, rfl⟩
          | cons role opened => cases h
  | cons u us ih =>
      have step (hafter : (p.above base).after u = (p.after u).above base)
          (hnests : Nests bound (p.after u).opened.length us.reduceOption 0) :
          (p.above base).levels (u :: us) = (p.levels (u :: us)).map (· + base.countP Role.isArgument) ∧
            ((p.above base).run (u :: us)).opened = base := by
        obtain ⟨hlevels, hrun⟩ := ih _ hnests
        refine ⟨?_, ?_⟩
        · rw [levels, levels, hafter, hlevels, depth_above, List.map_append]
          split
          · rw [List.map_singleton, Nat.add_right_comm]
          · rfl
        · rw [run, List.foldl_cons, hafter]
          exact hrun
      match u with
      | none =>
          rw [List.reduceOption_cons_of_none] at h
          exact step rfl h
      | some .fraction =>
          rw [List.reduceOption_cons_of_some] at h
          generalize hlevel : p.opened.length = level at h
          cases h with
          | fraction _ h => exact step rfl (by rwa [← hlevel] at h)
      | some .opening =>
          rw [List.reduceOption_cons_of_some] at h
          generalize hlevel : p.opened.length = level at h
          cases h with
          | opening h => exact step rfl (by rwa [← hlevel] at h)
      | some .closing =>
          rw [List.reduceOption_cons_of_some] at h
          obtain ⟨_ | ⟨role, opened⟩, next⟩ := p
          · cases h
          · cases h with
            | closing h => exact step rfl h

/-- A group deepens the fractions inside if it is an argument. -/
theorem levels_group {bound : Nat} (h : Nests bound 0 vs.reduceOption 0) :
    levels ⟨opened, role⟩ (some .opening :: (vs ++ some .closing :: ws)) =
      (start.levels vs).map (· + (role :: opened).countP Role.isArgument) ++
        levels ⟨opened, role.following⟩ ws := by
  obtain ⟨hlevels, hrun⟩ := start.levels_above (role :: opened) h
  have hclosed : ((start.above (role :: opened)).run vs).after (some .closing) = ⟨opened, role.following⟩ := by
    rw [after, hrun]
    rfl
  rw [levels_cons (u := some .opening) nofun, levels_append, levels_cons (u := some .closing) nofun, ← hclosed,
    ← hlevels]
  rfl

/-- A fraction outside of others is of level one, and those in its numerator are one level deeper. -/
theorem levels_numerator {bound : Nat} (hp : p.depth = 0) (h : Nests bound 0 vs.reduceOption 0) :
    p.levels (some .fraction :: some .opening :: (vs ++ some .closing :: ws)) =
      1 :: ((start.levels vs).map (· + 1) ++ levels ⟨p.opened, .denominator⟩ ws) := by
  have hcount : (Role.numerator :: p.opened).countP Role.isArgument = 1 := by
    rw [List.countP_cons, ← depth, hp]
    rfl
  rw [levels, after, levels_group h, hcount, hp]
  rfl

/-- So are those in its denominator. -/
theorem levels_denominator {bound : Nat} (hp : p.depth = 0) (h : Nests bound 0 vs.reduceOption 0) :
    levels ⟨p.opened, .denominator⟩ (some .opening :: (vs ++ some .closing :: ws)) =
      (start.levels vs).map (· + 1) ++ levels ⟨p.opened, .other⟩ ws := by
  have hcount : (Role.denominator :: p.opened).countP Role.isArgument = 1 := by
    rw [List.countP_cons, ← depth, hp]
    rfl
  rw [levels_group h, hcount]
  rfl

/-! ### Groups that are taken for less -/

/-- The same groups are open, some of them not known as arguments. -/
structure Below (q p : Place) : Prop where
  opened : List.Forall₂ (fun role role' => role = role' ∨ role = .other) q.opened p.opened
  next : q.next = p.next ∨ q.next = .other

theorem Below.refl (p : Place) : p.Below p := ⟨List.forall₂_same.2 fun _ _ => .inl rfl, .inl rfl⟩

theorem Below.depth_le (h : q.Below p) : q.depth ≤ p.depth := by
  obtain ⟨opened, next⟩ := q
  obtain ⟨opened', next'⟩ := p
  obtain ⟨hopened, -⟩ := h
  simp only [depth] at hopened ⊢
  induction hopened with
  | nil => exact Nat.le_refl _
  | cons hrole _ ih =>
      rw [List.countP_cons, List.countP_cons]
      rcases hrole with rfl | rfl
      · exact Nat.add_le_add_right ih _
      · exact Nat.le_add_right_of_le ih

theorem Below.loosen (h : q.Below p) : (q.after none).Below p := ⟨h.opened, .inr rfl⟩

theorem Below.after (h : q.Below p) (u : Option Mark) : (q.after u).Below (p.after u) := by
  obtain ⟨opened, next⟩ := q
  obtain ⟨opened', next'⟩ := p
  obtain ⟨hopened, hnext⟩ := h
  match u with
  | none => exact ⟨hopened, .inl rfl⟩
  | some .fraction => exact ⟨hopened, .inl rfl⟩
  | some .opening => exact ⟨.cons hnext hopened, .inl rfl⟩
  | some .closing =>
      cases hopened with
      | nil => exact ⟨.nil, .inl rfl⟩
      | cons hrole hopened =>
          refine ⟨hopened, ?_⟩
          rcases hrole with rfl | rfl
          · exact .inl rfl
          · exact .inr rfl

end Place

end ExactAlgebra.Profile
