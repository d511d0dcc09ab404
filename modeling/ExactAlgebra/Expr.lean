/-!
# Expressions

The trees that stand for written expressions. Parentheses are kept as nodes.
-/

namespace ExactAlgebra

/-- The four operators between two expressions. -/
inductive Operator where
  | add
  | sub
  | mul
  | div
  deriving DecidableEq

/-- The sign of an operator. -/
def Operator.symbol : Operator → String
  | .add => "+"
  | .sub => "-"
  | .mul => "\\times"
  | .div => "\\div"

/-- An expression over rational numbers and named variables. -/
inductive Expr where
  | num (value : Rat)
  | var (name : String)
  | binary (op : Operator) (left right : Expr)
  | power (base : Expr) (exponent : Int)
  | negate (inner : Expr)
  | group (inner : Expr)
  | sqrt (inner : Expr)
  deriving DecidableEq

namespace Expr

/-- The expression inside any number of parentheses around it. -/
def ungrouped : Expr → Expr
  | group inner => ungrouped inner
  | e => e

/-- The number that the expression is, apart from parentheses. -/
def asNumber? (e : Expr) : Option Rat :=
  match e.ungrouped with
  | num value => some value
  | _ => none

/-- The operator at the root, apart from parentheses. -/
def rootOperator? (e : Expr) : Option Operator :=
  match e.ungrouped with
  | binary op _ _ => some op
  | _ => none

/-- The number of nodes on the longest path from the root to a leaf. -/
def depth : Expr → Nat
  | num _ => 1
  | var _ => 1
  | binary _ left right => 1 + max left.depth right.depth
  | power base _ => 1 + base.depth
  | negate inner => 1 + inner.depth
  | group inner => 1 + inner.depth
  | sqrt inner => 1 + inner.depth

/-- Whether some node, the root included, satisfies a test. -/
def any (test : Expr → Bool) (e : Expr) : Bool :=
  test e ||
    match e with
    | num _ => false
    | var _ => false
    | binary _ left right => left.any test || right.any test
    | power base _ => base.any test
    | negate inner => inner.any test
    | group inner => inner.any test
    | sqrt inner => inner.any test

/-- The names of the variables from left to right, each as often as it occurs. -/
def names : Expr → List String
  | num _ => []
  | var name => [name]
  | binary _ left right => left.names ++ right.names
  | power base _ => base.names
  | negate inner => inner.names
  | group inner => inner.names
  | sqrt inner => inner.names

end Expr

end ExactAlgebra
