import TwoLevel.Scoring.Basic
import TwoLevel.Proofs.Rows

/-!
What the frequency of literals counts: the rows within a cube that have a literal, for each literal
on a free variable that some such row has. The counts depend on which rows there are and how often,
not on their order; and a cube that holds a row either is that row or can grow by one of its
literals.
-/

namespace TwoLevel

variable {rows other offset : Rows} {c m : Cube} {l : Literal} {count : Nat}

theorem Literal.rank_lt {arity : Nat} : l.rank < 2 * arity ↔ l.var < arity := by
  cases l with
  | mk var polarity =>
      cases polarity <;> simp only [rank, Polarity.value, Bool.toNat_false, Bool.toNat_true] <;>
        omega

theorem Cube.countP_rank (c : Cube) (l : Literal) :
    c.literals.countP (·.rank == l.rank) = if c.contains l then 1 else 0 := by
  have same : c.literals.countP (·.rank == l.rank) = c.literals.count l := by
    apply List.countP_congr
    intro k _
    rw [beq_iff_eq, beq_iff_eq]
    exact ⟨Literal.rank_injective, fun equal => by rw [equal]⟩
  rw [same, c.nodup_literals.count]
  simp

theorem countP_flatten_rank (cubes : List Cube) (l : Literal) :
    (cubes.map (·.literals)).flatten.countP (·.rank == l.rank) = cubes.countP (·.contains l) := by
  induction cubes with
  | nil => rfl
  | cons c rest ih =>
      rw [List.map_cons, List.flatten_cons, List.countP_append, ih, c.countP_rank, List.countP_cons]
      omega

namespace Rows

theorem mem_within : m ∈ rows.within c ↔ m ∈ rows.minterms ∧ c.admits m = true := List.mem_filter

theorem tally_within (rows : Rows) (c : Cube) (l : Literal) :
    (tally (2 * rows.arity) Literal.rank ((rows.within c).map (·.literals))).getD l.rank 0 =
      (rows.within c).countP (·.contains l) := by
  rw [getD_tally, countP_flatten_rank]
  split
  · rfl
  · rename_i beyond
    symm
    rw [List.countP_eq_zero]
    intro m member inside
    have row := rows.complete m (mem_within.1 member).1
    exact beyond (Literal.rank_lt.2 (Cube.var_lt_of_mem row (Cube.contains_iff.1 inside)))

end Rows

namespace Scoring

def frequencyOf (c : Cube) (rows : Rows) (l : Literal) : Nat :=
  (rows.within c).countP (·.contains l)

theorem counts_eq (c : Cube) (rows : Rows) : counts c rows =
    (((List.range rows.arity).filter (!c.fixes ·)).flatMap fun var =>
      [(.complement var, frequencyOf c rows (.complement var)),
        (.normal var, frequencyOf c rows (.normal var))]).filter (0 < ·.2) := by
  unfold counts
  dsimp only
  split
  · rename_i none
    have zero (l : Literal) : frequencyOf c rows l = 0 := by
      rw [frequencyOf, List.isEmpty_iff.1 none]
      rfl
    symm
    rw [List.filter_eq_nil_iff]
    intro entry member
    obtain ⟨var, -, listed⟩ := List.mem_flatMap.1 member
    rcases List.mem_cons.1 listed with rfl | listed
    · simp [zero]
    · rw [List.mem_singleton.1 listed]
      simp [zero]
  · simp only [rows.tally_within c, frequencyOf]

theorem mem_counts : (l, count) ∈ counts c rows ↔
    c.fixes l.var = false ∧ 0 < count ∧ count = frequencyOf c rows l := by
  rw [counts_eq, List.mem_filter, List.mem_flatMap, decide_eq_true_eq]
  constructor
  · intro counted
    obtain ⟨⟨var, free, listed⟩, positive⟩ := counted
    have unfixed : c.fixes var = false := by simpa using (List.mem_filter.1 free).2
    rcases List.mem_cons.1 listed with same | listed
    · cases same
      exact ⟨unfixed, positive, rfl⟩
    · cases List.mem_singleton.1 listed
      exact ⟨unfixed, positive, rfl⟩
  · intro counted
    obtain ⟨unfixed, positive, rfl⟩ := counted
    refine ⟨⟨l.var, List.mem_filter.2 ⟨?_, by simp [unfixed]⟩, ?_⟩, positive⟩
    · obtain ⟨m, member, inside⟩ := List.countP_pos_iff.1 positive
      have row := rows.complete m (Rows.mem_within.1 member).1
      exact List.mem_range.2 (Cube.var_lt_of_mem row (Cube.contains_iff.1 inside))
    · cases l with
      | mk var polarity => cases polarity <;> simp [Literal.complement, Literal.normal]

theorem frequencyOf_pos : 0 < frequencyOf c rows l ↔
    ∃ m ∈ rows.minterms, c.admits m = true ∧ l ∈ m.literals := by
  rw [frequencyOf, List.countP_pos_iff]
  constructor
  · intro counted
    obtain ⟨m, member, inside⟩ := counted
    obtain ⟨row, holds⟩ := Rows.mem_within.1 member
    exact ⟨m, row, holds, Cube.contains_iff.1 inside⟩
  · intro held
    obtain ⟨m, row, holds, inside⟩ := held
    exact ⟨m, Rows.mem_within.2 ⟨row, holds⟩, Cube.contains_iff.2 inside⟩

theorem frequencyOf_le (c : Cube) (rows : Rows) (l : Literal) :
    frequencyOf c rows l ≤ rows.size := by
  have counted : frequencyOf c rows l ≤ (rows.within c).length := List.countP_le_length
  have inside : (rows.within c).length ≤ rows.minterms.length := List.length_filter_le _ _
  exact counted.trans inside

theorem insert_admits_of_mem_counts (member : (l, count) ∈ counts c rows) :
    ∃ m ∈ rows.minterms, (c.insert l).admits m = true := by
  obtain ⟨-, positive, rfl⟩ := mem_counts.1 member
  obtain ⟨m, row, holds, inside⟩ := frequencyOf_pos.1 positive
  exact ⟨m, row, Cube.insert_admits holds inside⟩

theorem eq_or_counts_ne_nil (row : m ∈ rows.minterms) (holds : c.admits m = true) :
    c = m ∨ counts c rows ≠ [] := by
  by_cases full : ∀ var < rows.arity, c.fixes var = true
  · exact .inl (Cube.eq_of_admits_of_fixes (rows.complete m row) holds full)
  · push Not at full
    obtain ⟨var, below, free⟩ := full
    obtain ⟨l, inside, rfl⟩ := Cube.exists_literal_of_lt (rows.complete m row) below
    have counted : (l, frequencyOf c rows l) ∈ counts c rows :=
      mem_counts.2 ⟨by simpa using free, frequencyOf_pos.2 ⟨m, row, holds, inside⟩, rfl⟩
    exact .inr (List.ne_nil_of_mem counted)

end Scoring

end TwoLevel
