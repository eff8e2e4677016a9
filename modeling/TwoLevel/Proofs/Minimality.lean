import TwoLevel.Proofs.Expansion

/-!
Primality is minimality. With fewer literals a cube holds more rows, so a cube that meets the
offset still meets it when it loses literals. If it cannot lose any single literal without meeting
the offset, it cannot lose several of them either.
-/

namespace TwoLevel

variable {offset : Rows} {a b c d : Cube} {l : Literal}

/-- The literals of the first cube are some of those of the second, but not all. -/
def Cube.Below (d c : Cube) : Prop := d.literals ⊆ c.literals ∧ ¬ c.literals ⊆ d.literals

theorem Cube.erase_below (member : l ∈ c.literals) : (c.erase l).Below c := by
  refine ⟨fun k kept => (List.mem_filter.1 kept).1, fun all => ?_⟩
  have kept := (List.mem_filter.1 (all member)).2
  simp at kept

theorem Cube.Below.exists_erase (below : d.Below c) :
    ∃ l ∈ c.literals, d.literals ⊆ (c.erase l).literals := by
  obtain ⟨inside, proper⟩ := below
  obtain ⟨l, member, absent⟩ : ∃ l ∈ c.literals, l ∉ d.literals := by
    simpa [List.subset_def] using proper
  refine ⟨l, member, fun k own => List.mem_filter.2 ⟨inside own, ?_⟩⟩
  have different : k ≠ l := fun same => absent (same ▸ own)
  simpa using different

namespace Rows

theorem meets_of_subset (inside : a.literals ⊆ b.literals) (meets : offset.meets b = true) :
    offset.meets a = true := by
  obtain ⟨m, row, holds⟩ := meets_iff.1 meets
  have wider : a.admits b = true := Cube.admits_iff.2 fun l own => inside own
  exact meets_iff.2 ⟨m, row, Cube.admits_trans wider holds⟩

theorem removable_eq_nil :
    offset.removable c = [] ↔ ∀ l ∈ c.literals, offset.meets (c.erase l) = true := by
  simp only [List.eq_nil_iff_forall_not_mem, mem_removable, not_and, Bool.not_eq_false]

/-- A cube is prime exactly if it avoids the offset and each cube with only some of its literals
meets the offset, down to the universal cube. For whatever meets the offset still does so with fewer
literals. -/
theorem isPrime_minimal (offset : Rows) (c : Cube) :
    (offset.isPrime c = true ↔
      offset.meets c = false ∧ ∀ d : Cube, d.Below c → offset.meets d = true) ∧
    ∀ a b : Cube, a.literals ⊆ b.literals → offset.meets b = true → offset.meets a = true := by
  refine ⟨?_, fun a b => meets_of_subset⟩
  rw [isPrime_iff, removable_eq_nil]
  refine and_congr_right fun avoids => ⟨fun single d below => ?_, fun all l member => ?_⟩
  · obtain ⟨l, member, inside⟩ := below.exists_erase
    exact meets_of_subset inside (single l member)
  · exact all (c.erase l) (Cube.erase_below member)

end Rows

end TwoLevel
