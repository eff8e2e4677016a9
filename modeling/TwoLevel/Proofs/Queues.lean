import Mathlib.Tactic.Tauto
import TwoLevel.Graph.Queue

/-!
A queue holds what was put in and not taken out, and gives out an element than which none that is
left is sooner.
-/

namespace TwoLevel.Queue

variable {α : Type} {sooner : α → α → Bool} {queue other rest : Queue α} {a b top : α}

theorem mem_merge : a ∈ (merge sooner queue other).toList ↔ a ∈ queue.toList ∨ a ∈ other.toList := by
  fun_induction merge sooner queue other with
  | case1 => simp [toList]
  | case2 => simp [toList]
  | case3 b left right c left' right' _ ih =>
      simp only [toList, List.mem_cons, List.mem_append, ih]
      tauto
  | case4 b left right c left' right' _ ih =>
      simp only [toList, List.mem_cons, List.mem_append, ih]
      tauto

theorem mem_push : a ∈ (queue.push sooner b).toList ↔ a ∈ queue.toList ∨ a = b := by
  rw [push, mem_merge]
  simp [toList]

theorem mem_of_pop? (popped : queue.pop? sooner = some (top, rest)) :
    a ∈ queue.toList ↔ a = top ∨ a ∈ rest.toList := by
  cases queue with
  | empty => cases popped
  | node top left right =>
      cases popped
      rw [mem_merge]
      simp [toList]

theorem toList_of_pop?_eq_none (empty : queue.pop? sooner = none) : queue.toList = [] := by
  cases queue with
  | empty => rfl
  | node => cases empty

/-- Nothing below the top of a subtree is sooner than it. -/
def Ordered (sooner : α → α → Bool) : Queue α → Prop
  | empty => True
  | node top left right =>
      (∀ a, a ∈ left.toList ∨ a ∈ right.toList → ¬sooner a top) ∧
        left.Ordered sooner ∧ right.Ordered sooner

/-- Being no sooner is an order of a kind in which all elements can be compared. -/
structure Ranks (sooner : α → α → Bool) : Prop where
  asymm : ∀ {a b}, sooner a b → ¬sooner b a
  trans : ∀ {a b c}, ¬sooner b a → ¬sooner c b → ¬sooner c a

theorem ordered_merge (ranks : Ranks sooner) (first : queue.Ordered sooner)
    (second : other.Ordered sooner) : (merge sooner queue other).Ordered sooner := by
  fun_induction merge sooner queue other with
  | case1 => exact second
  | case2 => exact first
  | case3 a left right b left' right' less ih =>
      refine ⟨fun c member => ?_, ih first second.2.2, second.2.1⟩
      rw [mem_merge, toList, List.mem_cons, List.mem_append] at member
      rcases member with ((rfl | below) | right) | left
      · exact ranks.asymm less
      · exact ranks.trans (ranks.asymm less) (first.1 c below)
      · exact second.1 c (.inr right)
      · exact second.1 c (.inl left)
  | case4 a left right b left' right' notLess ih =>
      refine ⟨fun c member => ?_, ih first.2.2 second, first.2.1⟩
      rw [mem_merge, toList, List.mem_cons, List.mem_append] at member
      rcases member with (right | rfl | below) | left
      · exact first.1 c (.inr right)
      · exact notLess
      · exact ranks.trans notLess (second.1 c below)
      · exact first.1 c (.inl left)

theorem ordered_push (ranks : Ranks sooner) (ordered : queue.Ordered sooner) (a : α) :
    (queue.push sooner a).Ordered sooner :=
  ordered_merge ranks ordered ⟨fun _ member => by simp [toList] at member, trivial, trivial⟩

theorem ordered_of_pop? (ranks : Ranks sooner) (ordered : queue.Ordered sooner)
    (popped : queue.pop? sooner = some (top, rest)) : rest.Ordered sooner := by
  cases queue with
  | empty => cases popped
  | node top left right =>
      cases popped
      exact ordered_merge ranks ordered.2.1 ordered.2.2

theorem not_sooner_of_pop? (ordered : queue.Ordered sooner)
    (popped : queue.pop? sooner = some (top, rest)) (left : a ∈ rest.toList) : ¬sooner a top := by
  cases queue with
  | empty => cases popped
  | node top left right =>
      cases popped
      exact ordered.1 a (mem_merge.1 ‹_›)

end TwoLevel.Queue
