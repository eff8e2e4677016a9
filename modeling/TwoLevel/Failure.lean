import TwoLevel.Cube.Set
import TwoLevel.Number.Shortest

/-!
What can go wrong in minimizing a function, with the wording of each failure.
-/

namespace TwoLevel

inductive Stage where
  | search
  | expansion
  | covering
deriving DecidableEq, Repr

instance : ToString Stage where
  toString
    | .search => "coverage-directed search"
    | .expansion => "implicant expansion"
    | .covering => "unate covering"

inductive Failure where
  /-- The row at `index` does not fix exactly the variables of its table. -/
  | incompleteMinterm (index arity : Nat) (cube : Cube)
  | dimensionMismatch (expected actual : Nat)
  | overlappingSets (minterm : Cube)
  /-- No literal with a finite score was offered for the cube. -/
  | noCandidates (stage : Stage) (cube : Cube)
  | unsafeImplicant (cube : Cube)
  | invalidInteractivity (value : Float)
  | invalidBlendWeight (value : Float)
  | invalidResolution (value : Float)
  | uncoverableMinterm (minterm : Cube)
  /-- The stage would have gone beyond its budget; what it had found is kept. -/
  | budgetExhausted (stage : Stage) (budget : Nat) (found : CubeSet)
  /-- A sum of counts is too great for a word, and the run breaks off. No caller gets this as an
  answer. -/
  | overflow
deriving DecidableEq

namespace Failure

def message : Failure → String
  | incompleteMinterm index arity cube =>
      s!"Element {index} ({cube}) is not a fully specified minterm over {arity} variables"
  | dimensionMismatch expected actual =>
      s!"Dimension mismatch: expected {expected} variables, found {actual}"
  | overlappingSets minterm =>
      s!"Onset and offset are not disjoint: minterm {minterm} appears in both"
  | noCandidates stage cube =>
      s!"No literal candidates during {stage} for term {cube}; onset and offset are not disjoint"
  | unsafeImplicant cube => s!"Term {cube} is not an implicant: it intersects the offset"
  | invalidInteractivity value =>
      "Interactivity " ++ Number.floatText value ++ " is outside the range [0, 1]"
  | invalidBlendWeight value =>
      "Centrality blend weight " ++ Number.floatText value ++ " is outside the range [0, 1]"
  | invalidResolution value =>
      "Score resolution " ++ Number.floatText value ++ " must be positive and finite"
  | uncoverableMinterm minterm =>
      s!"Onset minterm {minterm} is not covered by any prime implicant"
  | budgetExhausted stage budget found =>
      s!"{stage} exceeded its budget of {budget} nodes with {found.size} partial results"
  | overflow => "chunk size must be non-zero"

inductive Cause where
  | argument
  | data
  | budget
deriving DecidableEq, Repr

def cause : Failure → Cause
  | invalidInteractivity _ | invalidBlendWeight _ | invalidResolution _ => .argument
  | budgetExhausted .. => .budget
  | _ => .data

end Failure

end TwoLevel
