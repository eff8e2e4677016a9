/-!
Queues that give out the soonest element first: trees with the soonest element of every subtree at
its top.
-/

namespace TwoLevel

inductive Queue (α : Type) where
  | empty
  | node (top : α) (left right : Queue α)

namespace Queue

variable {α : Type}

def toList : Queue α → List α
  | empty => []
  | node top left right => top :: (left.toList ++ right.toList)

def size : Queue α → Nat
  | empty => 0
  | node _ left right => left.size + right.size + 1

/-- The sides are exchanged on the way down, which keeps the trees low. -/
@[specialize] def merge (sooner : α → α → Bool) : Queue α → Queue α → Queue α
  | empty, other => other
  | queue, empty => queue
  | node a left right, node b left' right' =>
      if sooner b a then node b (merge sooner (node a left right) right') left'
      else node a (merge sooner right (node b left' right')) left
termination_by queue other => queue.size + other.size
decreasing_by all_goals simp only [size]; omega

@[specialize] def push (sooner : α → α → Bool) (queue : Queue α) (a : α) : Queue α :=
  merge sooner queue (node a empty empty)

@[specialize] def pop? (sooner : α → α → Bool) : Queue α → Option (α × Queue α)
  | empty => none
  | node top left right => some (top, merge sooner left right)

theorem size_merge (sooner : α → α → Bool) (queue other : Queue α) :
    (merge sooner queue other).size = queue.size + other.size := by
  fun_induction merge sooner queue other with
  | case1 => simp [size]
  | case2 => simp [size]
  | case3 => simp only [size] at *; omega
  | case4 => simp only [size] at *; omega

theorem size_of_pop? {sooner : α → α → Bool} {queue rest : Queue α} {top : α}
    (popped : queue.pop? sooner = some (top, rest)) : queue.size = rest.size + 1 := by
  cases queue with
  | empty => cases popped
  | node a left right =>
      cases popped
      rw [size, size_merge]

end Queue

end TwoLevel
