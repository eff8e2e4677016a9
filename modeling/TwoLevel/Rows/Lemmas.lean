import TwoLevel.Rows.Basic
import TwoLevel.Cube.Lemmas

/-!
What the operations on rows do.
-/

namespace TwoLevel.Rows

variable {rows : Rows} {c : Cube}

theorem meets_iff : rows.meets c = true ↔ ∃ m ∈ rows.minterms, c.admits m = true := by
  simp [meets]

theorem leastDistance?_eq_none : rows.leastDistance? c = none ↔ rows.minterms = [] := by
  simp [leastDistance?]

theorem leastDistance?_eq_some {least : Nat} :
    rows.leastDistance? c = some least ↔
      (∃ m ∈ rows.minterms, c.distance m = least) ∧ ∀ m ∈ rows.minterms, least ≤ c.distance m := by
  simp [leastDistance?, List.min?_eq_some_iff]

theorem length_le_of_ascending {literals : List Literal} {low n : Nat}
    (ascending : literals.Pairwise (fun l m => l.var < m.var))
    (above : ∀ l ∈ literals, low ≤ l.var) (below : ∀ l ∈ literals, l.var < n) :
    literals.length ≤ n - low := by
  induction literals generalizing low with
  | nil => simp
  | cons l rest ih =>
      have ⟨head, tail⟩ := List.pairwise_cons.1 ascending
      have := ih tail (fun m member => head m member) fun m member => below m (by simp [member])
      have := above l (by simp)
      have := below l (by simp)
      simp only [List.length_cons]
      omega

/-- A cube that holds a row fixes only variables of the table. -/
theorem size_le_of_meets (rows : Rows) {c : Cube} (meets : rows.meets c = true) :
    c.size ≤ rows.arity := by
  obtain ⟨m, member, holds⟩ := meets_iff.1 meets
  have below : ∀ l ∈ c.literals, l.var < rows.arity := fun l inside =>
    Cube.var_lt_of_mem (rows.complete m member) (Cube.admits_iff.1 holds l inside)
  have := length_le_of_ascending c.ascending (fun _ _ => Nat.zero_le _) below
  simpa [Cube.size] using this

end TwoLevel.Rows
