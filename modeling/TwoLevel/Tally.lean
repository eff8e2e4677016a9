/-!
Tallies: how often each of the numbers below a bound occurs among the keys of some elements.
-/

namespace TwoLevel

variable {α : Type}

def bump (counts : Array Nat) (place : Nat) : Array Nat := counts.modify place (· + 1)

@[specialize] def tally (size : Nat) (key : α → Nat) (lists : List (List α)) : Array Nat :=
  lists.foldl (fun counts list => list.foldl (fun counts a => bump counts (key a)) counts)
    (Array.replicate size 0)

theorem getD_bump (counts : Array Nat) (place other : Nat) :
    (bump counts place).getD other 0 =
      counts.getD other 0 + if place = other ∧ other < counts.size then 1 else 0 := by
  simp only [bump, Array.getD_eq_getD_getElem?, Array.getElem?_modify]
  by_cases same : place = other <;> by_cases inside : other < counts.size <;> simp [same, inside]

theorem getD_foldl_bump (key : α → Nat) (list : List α) (counts : Array Nat) (place : Nat) :
    (list.foldl (fun counts a => bump counts (key a)) counts).getD place 0 =
      counts.getD place 0 + if place < counts.size then list.countP (key · == place) else 0 := by
  induction list generalizing counts with
  | nil => simp
  | cons a rest ih =>
      have size : (bump counts (key a)).size = counts.size := by simp [bump]
      rw [List.foldl_cons, ih, getD_bump, size, List.countP_cons]
      by_cases inside : place < counts.size
      · by_cases same : key a = place
        · simp [inside, same]; omega
        · simp [inside, same]
      · simp [inside]

theorem getD_tally (size : Nat) (key : α → Nat) (lists : List (List α)) (place : Nat) :
    (tally size key lists).getD place 0 =
      if place < size then lists.flatten.countP (key · == place) else 0 := by
  have := getD_foldl_bump key lists.flatten (Array.replicate size 0) place
  rw [List.foldl_flatten] at this
  rw [tally, this]
  by_cases inside : place < size <;> simp [Array.getD_eq_getD_getElem?, inside]

end TwoLevel
