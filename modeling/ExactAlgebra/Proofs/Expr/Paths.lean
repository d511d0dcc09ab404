import ExactAlgebra.Expr

/-!
# Nodes and paths of expressions

The nodes of the tree of an expression, and the paths from its root to its leaves. How many nodes of one kind stand
on a path is at most what `deepest` counts, and as many stand on one of the paths.
-/

namespace ExactAlgebra.Expr

/-- The nodes of the tree, each with all that is below it. -/
def nodes : Expr → List Expr
  | num value => [num value]
  | var name => [var name]
  | binary op left right => binary op left right :: (left.nodes ++ right.nodes)
  | power base n => power base n :: base.nodes
  | negate inner => negate inner :: inner.nodes
  | group inner => group inner :: inner.nodes
  | sqrt inner => sqrt inner :: inner.nodes

/-- The paths from the root to the leaves, each as the list of its nodes. -/
def paths : Expr → List (List Expr)
  | num value => [[num value]]
  | var name => [[var name]]
  | binary op left right => (left.paths ++ right.paths).map (binary op left right :: ·)
  | power base n => base.paths.map (power base n :: ·)
  | negate inner => inner.paths.map (negate inner :: ·)
  | group inner => inner.paths.map (group inner :: ·)
  | sqrt inner => inner.paths.map (sqrt inner :: ·)

/-- The largest number of nodes on one path that satisfy a test. -/
def deepest (test : Expr → Bool) (e : Expr) : Nat :=
  (if test e then 1 else 0) +
    match e with
    | num _ => 0
    | var _ => 0
    | binary _ left right => max (left.deepest test) (right.deepest test)
    | power base _ => base.deepest test
    | negate inner => inner.deepest test
    | group inner => inner.deepest test
    | sqrt inner => inner.deepest test

variable {test : Expr → Bool}

theorem countP_le_deepest {e : Expr} {path : List Expr} (h : path ∈ e.paths) : path.countP test ≤ e.deepest test := by
  induction e generalizing path with
  | num | var =>
      obtain rfl := List.mem_singleton.1 h
      rw [deepest, List.countP_singleton]
      exact Nat.le_add_right _ _
  | binary op l r ihl ihr =>
      obtain ⟨path, hpath, rfl⟩ := List.mem_map.1 h
      have hle : path.countP test ≤ max (l.deepest test) (r.deepest test) :=
        (List.mem_append.1 hpath).elim (fun hl => Nat.le_trans (ihl hl) (Nat.le_max_left _ _))
          fun hr => Nat.le_trans (ihr hr) (Nat.le_max_right _ _)
      rw [deepest, List.countP_cons]
      omega
  | power | negate | group | sqrt =>
      rename_i ih
      obtain ⟨path, hpath, rfl⟩ := List.mem_map.1 h
      have hle := ih hpath
      rw [deepest, List.countP_cons]
      omega

theorem exists_countP_eq_deepest (e : Expr) : ∃ path ∈ e.paths, path.countP test = e.deepest test := by
  induction e with
  | num | var => exact ⟨_, List.mem_singleton_self _, by rw [deepest, List.countP_singleton, Nat.add_zero]⟩
  | binary op l r ihl ihr =>
      obtain ⟨path, hpath, hcount⟩ : ∃ path ∈ l.paths ++ r.paths,
          path.countP test = max (l.deepest test) (r.deepest test) := by
        rcases Nat.le_total (r.deepest test) (l.deepest test) with hle | hle
        · obtain ⟨path, hpath, hcount⟩ := ihl
          exact ⟨path, List.mem_append_left _ hpath, by omega⟩
        · obtain ⟨path, hpath, hcount⟩ := ihr
          exact ⟨path, List.mem_append_right _ hpath, by omega⟩
      exact ⟨_, List.mem_map_of_mem hpath, by rw [deepest, List.countP_cons, hcount, Nat.add_comm]⟩
  | power | negate | group | sqrt =>
      rename_i ih
      obtain ⟨path, hpath, hcount⟩ := ih
      exact ⟨_, List.mem_map_of_mem hpath, by rw [deepest, List.countP_cons, hcount, Nat.add_comm]⟩

end ExactAlgebra.Expr
