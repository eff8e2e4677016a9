import TwoLevel.Failure
import TwoLevel.Random.Source

/-!
A pass of one stage of the minimizer: what it found or how it failed, how many work items it took
up, and the source of random words after it. A budget bounds the work items.
-/

namespace TwoLevel

structure Pass where
  result : Except Failure CubeSet
  nodes : Nat
  source : Source

/-- The limit, if one is set and `nodes` items have used it up. -/
def exhausted? (budget : Option Nat) (nodes : Nat) : Option Nat :=
  budget.filter fun limit => decide (limit ≤ nodes)

def Pass.cut (stage : Stage) (limit : Nat) (found : CubeSet) (nodes : Nat) (source : Source) :
    Pass :=
  ⟨.error (.budgetExhausted stage limit found), nodes, source⟩

end TwoLevel
