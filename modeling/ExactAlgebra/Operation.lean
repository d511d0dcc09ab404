/-!
# Operations

The operations that can be asked for by name.
-/

namespace ExactAlgebra

/-- An operation on a written expression. -/
inductive Operation where
  | combine
  | reduce
  | expand
  | primeFactorize
  | simplifyIndices
  | normalize
  | decimalFraction
  | simplifyOneTerm
  | numberCalculate
  deriving DecidableEq

namespace Operation

/-- All operations, in the order in which they are listed. -/
def all : List Operation :=
  [combine, reduce, expand, primeFactorize, simplifyIndices, normalize, decimalFraction,
    simplifyOneTerm, numberCalculate]

def name : Operation → String
  | combine => "combine"
  | reduce => "reduce"
  | expand => "expand"
  | primeFactorize => "prime-factorize"
  | simplifyIndices => "simplify-indices"
  | normalize => "normalize"
  | decimalFraction => "decimal-fraction"
  | simplifyOneTerm => "simplify-one-term"
  | numberCalculate => "number-calculate"

def ofName? (name : String) : Option Operation := all.find? fun op => op.name == name

theorem ofName?_name (op : Operation) : ofName? op.name = some op := by cases op <;> decide

end Operation

end ExactAlgebra
