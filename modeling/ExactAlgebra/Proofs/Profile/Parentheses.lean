import ExactAlgebra.Profile.Parentheses
import ExactAlgebra.Proofs.Expr.Paths
import ExactAlgebra.Proofs.Latex.Parentheses

/-!
# Parentheses of texts that are expressions

Where a text is an expression, matching its parentheses finds the groups of the tree: one pair for each group, and
pairs inside each other where groups stand on one path.
-/

namespace ExactAlgebra

/-- The expression stands in parentheses. -/
def Expr.isGroup : Expr → Bool
  | group _ => true
  | _ => false

namespace Profile

theorem foldr_max_max (ds : List Nat) (a b : Nat) : ds.foldr max (max a b) = max a (ds.foldr max b) := by
  induction ds with
  | nil => rfl
  | cons d ds ih => rw [List.foldr_cons, ih, List.foldr_cons, Nat.max_left_comm]

namespace Matching

/-- Between two states, `count` pairs were found, at most `depth` of them one inside the other, and as many
parentheses are free as before. -/
structure Finds (m m' : Matching) (count depth : Nat) : Prop where
  free : m'.free = m.free
  unbroken : m'.unbroken = m.unbroken
  pairs : ∃ new, m'.pairs = new ++ m.pairs ∧ new.length = count ∧
    (new.map ParenPair.depth).foldr max m.free.length = m.free.length + depth

variable {m m' m'' : Matching} {count count' depth depth' : Nat}

theorem Finds.refl (m : Matching) : Finds m m 0 0 := ⟨rfl, rfl, [], rfl, rfl, rfl⟩

theorem Finds.trans (h : Finds m m' count depth) (h' : Finds m' m'' count' depth') :
    Finds m m'' (count + count') (max depth depth') := by
  obtain ⟨hfree, hunbroken, new, hpairs, hcount, hdepth⟩ := h
  obtain ⟨hfree', hunbroken', new', hpairs', hcount', hdepth'⟩ := h'
  refine ⟨hfree'.trans hfree, hunbroken'.trans hunbroken, new' ++ new, ?_, ?_, ?_⟩
  · rw [hpairs', hpairs, List.append_assoc]
  · rw [List.length_append, hcount, hcount', Nat.add_comm]
  · rw [hfree] at hdepth'
    rw [List.map_append, List.foldr_append, hdepth, ← Nat.max_eq_left (Nat.le_add_right m.free.length depth),
      foldr_max_max, hdepth']
    omega

/-- What is found between an opening and a closing parenthesis is enclosed in one more pair. -/
theorem Finds.enclose {opening closing : Nat} (h : Finds (step m (opening, '(')) m' count depth) :
    Finds m (step m' (closing, ')')) (count + 1) (depth + 1) := by
  obtain ⟨hfree, hunbroken, new, hpairs, hcount, hdepth⟩ := h
  have hopened : (step m (opening, '(')).free = opening :: m.free := rfl
  rw [hopened] at hfree hdepth
  have hclosed : step m' (closing, ')') =
      { m' with free := m.free, pairs := ⟨opening, closing, m.free.length + 1⟩ :: m'.pairs } := by
    simp [step, hfree]
  rw [hclosed]
  refine ⟨rfl, hunbroken, ⟨opening, closing, m.free.length + 1⟩ :: new, ?_, ?_, ?_⟩
  · rw [hpairs]
    rfl
  · rw [List.length_cons, hcount]
  · rw [List.length_cons] at hdepth
    rw [List.map_cons, List.foldr_cons, ← foldr_max_max, Nat.max_eq_left (Nat.le_add_right _ 1), hdepth,
      Nat.add_right_comm, Nat.add_assoc]

theorem step_of_not_parenthesis {place : Nat × Char} (h : Text.isParenthesis place.2 = false) : step m place = m := by
  obtain ⟨hopen, hclose⟩ := Bool.or_eq_false_iff.1 h
  rw [step, if_neg (beq_eq_false_iff_ne.1 hopen), if_neg (beq_eq_false_iff_ne.1 hclose)]

/-- Only the parentheses of a text matter. -/
theorem foldl_step_filter (places : List (Nat × Char)) (m : Matching) :
    (places.filter (Text.isParenthesis ∘ Prod.snd)).foldl step m = places.foldl step m := by
  induction places generalizing m with
  | nil => rfl
  | cons place places ih =>
      rw [List.filter_cons, List.foldl_cons]
      split
      · rw [List.foldl_cons, ih]
      · rename_i hnot
        rw [step_of_not_parenthesis (Bool.eq_false_iff.2 hnot), ih]

/-- Among the parentheses that an expression is written with, matching finds a pair for each of its groups. -/
theorem finds_parentheses (e : Expr) {places : List (Nat × Char)} (h : places.map Prod.snd = e.parentheses)
    (m : Matching) :
    Finds m (places.foldl step m) (e.nodes.countP Expr.isGroup) (e.deepest Expr.isGroup) := by
  induction e generalizing places m with
  | num | var =>
      obtain rfl := List.map_eq_nil_iff.1 h
      exact .refl m
  | binary op l r ihl ihr =>
      obtain ⟨left, right, rfl, hl, hr⟩ := List.map_eq_append_iff.1 h
      have hfinds := (ihl hl m).trans (ihr hr (left.foldl step m))
      rw [← List.foldl_append, ← List.countP_append] at hfinds
      simpa [Expr.nodes, Expr.deepest, Expr.isGroup] using hfinds
  | power | negate | sqrt =>
      rename_i ih
      simpa [Expr.nodes, Expr.deepest, Expr.isGroup] using ih h m
  | group inner ih =>
      obtain ⟨⟨opening, _⟩, rest, rfl, rfl, hrest⟩ := List.map_eq_cons_iff.1 h
      obtain ⟨inside, last, rfl, hinside, hlast⟩ := List.map_eq_append_iff.1 hrest
      obtain ⟨⟨closing, _⟩, rfl, rfl⟩ := List.map_eq_singleton_iff.1 hlast
      have hfinds : Finds m (step (inside.foldl step (step m (opening, '('))) (closing, ')')) _ _ :=
        (ih hinside (step m (opening, '('))).enclose
      rw [List.foldl_cons, List.foldl_append, List.foldl_cons, List.foldl_nil, Expr.nodes, List.countP_cons_of_pos rfl,
        Expr.deepest, if_pos (show inner.group.isGroup from rfl), Nat.add_comm 1]
      exact hfinds

end Matching

/-! ## The profile -/

namespace Parentheses

/-- A text without parentheses has no pairs. -/
theorem pairs_of_filter_eq_nil {text : List Char} (h : text.filter Text.isParenthesis = []) :
    (ofText text).pairs = [] := by
  have hplaces : (Text.withOffsets 0 text).filter (Text.isParenthesis ∘ Prod.snd) = [] := by
    rw [← List.map_eq_nil_iff (f := Prod.snd), ← List.filter_map, Text.map_snd_withOffsets, h]
  rw [ofText, Matching.ofText, ← Matching.foldl_step_filter, hplaces]
  exact List.mergeSort_nil

/-- The parentheses of a text that is an expression are balanced. There is a pair for each group of the tree, and the
deepest pair is as deep as there are groups on one path from the root to a leaf. -/
theorem groups_of_parse {limit : Nat} {text : List Char} {e : Expr} (h : Latex.parse limit text = .ok e) :
    (ofText text).balanced ∧ (ofText text).pairs.length = e.nodes.countP Expr.isGroup ∧
      (∃ path ∈ e.paths, path.countP Expr.isGroup = (ofText text).maxDepth) ∧
      ∀ path ∈ e.paths, path.countP Expr.isGroup ≤ (ofText text).maxDepth := by
  have hplaces : ((Text.withOffsets 0 text).filter (Text.isParenthesis ∘ Prod.snd)).map Prod.snd = e.parentheses := by
    rw [← List.filter_map, Text.map_snd_withOffsets, Latex.filter_of_parse h]
  obtain ⟨hfree, hunbroken, new, hpairs, hcount, hdepth⟩ := Matching.finds_parentheses e hplaces .start
  rw [Matching.foldl_step_filter, ← Matching.ofText] at hfree hunbroken hpairs
  obtain rfl : (Matching.ofText text).pairs = new := hpairs.trans (List.append_nil new)
  have hsorted : (Matching.ofText text).pairs.mergeSort (fun p q => p.opening ≤ q.opening) |>.Perm
    (Matching.ofText text).pairs := List.mergeSort_perm _ _
  have hmaxDepth : (ofText text).maxDepth = e.deepest Expr.isGroup := by
    rw [ofText, (hsorted.map ParenPair.depth).foldr_eq 0, ← Nat.zero_add (e.deepest _)]
    exact hdepth
  rw [hmaxDepth]
  refine ⟨?_, hsorted.length_eq.trans hcount, e.exists_countP_eq_deepest, fun _ => Expr.countP_le_deepest⟩
  rw [ofText, hunbroken, hfree]
  rfl

theorem groups_of_parse_nested :
    ∃ e, Latex.parse 64 "\\left(2(a)\\right)\\frac\x7b(x)\x7d\x7b5\x7d".toList = .ok e ∧
      e.nodes.countP Expr.isGroup = 3 ∧
      (ofText "\\left(2(a)\\right)\\frac\x7b(x)\x7d\x7b5\x7d".toList).balanced ∧
      (ofText "\\left(2(a)\\right)\\frac\x7b(x)\x7d\x7b5\x7d".toList).pairs.length = e.nodes.countP Expr.isGroup ∧
      (∃ path ∈ e.paths, path.countP Expr.isGroup =
        (ofText "\\left(2(a)\\right)\\frac\x7b(x)\x7d\x7b5\x7d".toList).maxDepth) ∧
      ∀ path ∈ e.paths, path.countP Expr.isGroup ≤
        (ofText "\\left(2(a)\\right)\\frac\x7b(x)\x7d\x7b5\x7d".toList).maxDepth := by
  have h : Latex.parse 64 "\\left(2(a)\\right)\\frac\x7b(x)\x7d\x7b5\x7d".toList =
      .ok (.binary .mul (.group (.binary .mul (.num 2) (.group (.var "a"))))
        (.binary .div (.group (.var "x")) (.num 5))) := by cbv
  exact ⟨_, h, rfl, groups_of_parse h⟩

end Parentheses

end Profile

end ExactAlgebra
