import ExactAlgebra.Profile.Report

/-!
# Availability

Whether an operation is worth offering for a text. Only the text, its tokens and its tree are looked at, so the
question is cheap also where the operation itself would meet a limit.
-/

namespace ExactAlgebra

/-- Whether a text is one integer literal that may be factorized. -/
def isFactorableLiteral (limits : Limits) (text : List Char) : Bool :=
  match Latex.tokenize text with
  | .ok [⟨.number n, _⟩] =>
      n.isInteger && 2 ≤ n.digitsValue && n.digitsValue ≤ limits.maxFactorInput.toNat
  | _ => false

/-- Whether a text is an expression whose tree passes a test. -/
def treeSatisfies (limits : Limits) (text : List Char) (test : Expr → Bool) : Bool :=
  match Expr.ofText limits text with
  | .ok tree => test tree
  | .error _ => false

namespace Operation

/-- Whether an operation would do something useful for a text. -/
def isAvailable (limits : Limits) (op : Operation) (text : List Char) : Bool :=
  match op with
  | combine => treeSatisfies limits text (Profile.Report.likeTermsIn limits)
  | reduce =>
      (Profile.Fractions.ofText limits.maxDepth.toNat text).present
        && treeSatisfies limits text fun _ => true
  | expand =>
      let parentheses := Profile.Parentheses.ofText text
      !parentheses.pairs.isEmpty && parentheses.balanced
        && treeSatisfies limits text fun _ => true
  | primeFactorize => isFactorableLiteral limits text
  | simplifyIndices => treeSatisfies limits text (Profile.isIndexChain false)
  | normalize => treeSatisfies limits text fun _ => true
  | decimalFraction => Decimal.isPointed text
  | simplifyOneTerm => treeSatisfies limits text fun tree =>
      Profile.isIndexChain true tree && (Profile.indexBases tree).length ≤ 1
  | numberCalculate => Arithmetic.isCalculation text

/-- The operations that are available for a text. -/
def available (limits : Limits) (text : List Char) : List Operation :=
  all.filter fun op => op.isAvailable limits text

end Operation

/-- Whether the operation of a given name is available; an unknown one never is. -/
def isOperationAvailable (limits : Limits) (name : String) (text : List Char) : Bool :=
  match Operation.ofName? name with
  | some op => op.isAvailable limits text
  | none => false

end ExactAlgebra
