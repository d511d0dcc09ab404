import ExactAlgebra.Text.Offset

/-!
# Parentheses in a text

Each closing parenthesis belongs to the last opening one that is still free. What has no partner is left out,
and the text is then not balanced.
-/

namespace ExactAlgebra.Profile

/-- A pair of parentheses: the byte offsets of its ends, and how many opening parentheses were free when it was
closed, its own included. -/
structure ParenPair where
  opening : Nat
  closing : Nat
  depth : Nat
  deriving DecidableEq

/-- The state of matching parentheses: the offsets of free opening ones, the last one first, the pairs found,
and whether every closing one has had a partner. -/
structure Matching where
  free : List Nat
  pairs : List ParenPair
  unbroken : Bool

namespace Matching

/-- Before the first character. -/
def start : Matching := ⟨[], [], true⟩

/-- Takes one more character at its offset. -/
def step (m : Matching) (place : Nat × Char) : Matching :=
  if place.2 = '(' then { m with free := place.1 :: m.free }
  else if place.2 = ')' then
    match m.free with
    | [] => { m with unbroken := false }
    | opening :: free =>
        { m with free := free, pairs := ⟨opening, place.1, free.length + 1⟩ :: m.pairs }
  else m

def ofText (text : List Char) : Matching := (Text.withOffsets 0 text).foldl step start

end Matching

/-- What is known about the parentheses of a text. -/
structure Parentheses where
  /-- Every parenthesis has its partner. -/
  balanced : Bool
  /-- The depth of the deepest pair. -/
  maxDepth : Nat
  /-- The text in the leftmost one of the deepest pairs. -/
  innermost : Option (List Char)
  /-- The pairs in the order of their opening parentheses. -/
  pairs : List ParenPair

namespace Parentheses

/-- The text between the ends of a pair. -/
def inside (text : List Char) (pair : ParenPair) : List Char :=
  (Text.withOffsets 0 text).filterMap fun place =>
    if pair.opening < place.1 && place.1 < pair.closing then some place.2 else none

def ofText (text : List Char) : Parentheses :=
  let matching := Matching.ofText text
  let pairs := matching.pairs.mergeSort fun p q => p.opening ≤ q.opening
  let maxDepth := (pairs.map ParenPair.depth).foldr max 0
  { balanced := matching.unbroken && matching.free.isEmpty
    maxDepth := maxDepth
    innermost := (pairs.find? fun pair => pair.depth == maxDepth).map (inside text)
    pairs := pairs }

end Parentheses

end ExactAlgebra.Profile
