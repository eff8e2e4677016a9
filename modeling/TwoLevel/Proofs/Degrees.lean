import TwoLevel.Graph.Centrality
import TwoLevel.Proofs.Edges
import TwoLevel.Proofs.Scaling

/-!
How large the degrees in the graph of a table can be. Two variables meet no more often than the rows
have pairs of literals, only the heavier of these numbers are kept, and a variable has no more
neighbours than there are variables.
-/

namespace TwoLevel

open Double

variable {α : Type} {rows : Rows} {m : Cube} {matrix : Array (Array Nat)}
  {edges : List (Nat × Float)} {n limit node : Nat}

/-! ## Numbers of meetings -/

theorem length_pairs_le (list : List α) : (pairs list).length ≤ list.length * list.length := by
  induction list with
  | nil => exact Nat.le_refl 0
  | cons a rest ih =>
      calc (pairs (a :: rest)).length = rest.length + (pairs rest).length := by
            rw [pairs, List.length_append, List.length_map]
        _ ≤ rest.length + rest.length * rest.length := Nat.add_le_add_left ih _
        _ = rest.length * (a :: rest).length := by rw [List.length_cons]; ring
        _ ≤ (a :: rest).length * (a :: rest).length :=
            Nat.mul_le_mul_right _ (Nat.le_succ rest.length)

theorem Cube.IsMinterm.length_normals_le (minterm : m.IsMinterm n) : m.normals.length ≤ n := by
  rw [normals, List.length_map]
  exact (List.length_filter_le _ _).trans minterm.1.le

/-- Every entry of the matrix is at most the limit. -/
def Within (limit : Nat) (matrix : Array (Array Nat)) : Prop :=
  ∀ row ∈ matrix, ∀ entry ∈ row, entry ≤ limit

theorem Within.cell?_le {i j entry : Nat} (within : Within limit matrix)
    (located : Graph.cell? matrix i j = some entry) : entry ≤ limit := by
  obtain ⟨row, found, inside⟩ := Option.bind_eq_some_iff.1 located
  exact within row (Array.mem_of_getElem? found) entry (Array.mem_of_getElem? inside)

theorem mem_tally_le {size : Nat} {key : α → Nat} {lists : List (List α)} {count : Nat}
    (member : count ∈ tally size key lists) : count ≤ lists.flatten.length := by
  obtain ⟨place, found⟩ := Array.mem_iff_getElem?.1 member
  have counted := getD_tally size key lists place
  rw [Array.getD_eq_getD_getElem?, found, Option.getD_some] at counted
  rw [counted]
  split
  · exact List.countP_le_length
  · exact Nat.zero_le _

theorem Rows.length_pairs_normals_le (rows : Rows) :
    (rows.minterms.map fun m => pairs m.normals).flatten.length ≤
      rows.size * (rows.arity * rows.arity) := by
  rw [List.length_flatten, List.map_map]
  have each : ∀ count ∈ rows.minterms.map (List.length ∘ fun m => pairs m.normals),
      count ≤ rows.arity * rows.arity := by
    intro count member
    obtain ⟨m, row, rfl⟩ := List.mem_map.1 member
    have few := (rows.complete m row).length_normals_le
    exact (length_pairs_le m.normals).trans (Nat.mul_le_mul few few)
  simpa [Rows.size] using List.sum_le_card_nsmul _ _ each

theorem Rows.coOccurrence_within (rows : Rows) :
    Within (rows.size * (rows.arity * rows.arity)) rows.coOccurrence := by
  intro row member entry inside
  obtain ⟨i, -, rfl⟩ := Array.mem_map.1 member
  obtain ⟨j, located⟩ := Array.mem_iff_getElem?.1 inside
  rw [Array.getElem?_extract] at located
  split at located
  · exact (mem_tally_le (Array.mem_of_getElem? located)).trans rows.length_pairs_normals_le
  · cases located

namespace Graph

theorem thin_within (within : Within limit matrix) (density : Float) :
    Within limit (thin matrix density) := by
  unfold thin
  dsimp only
  split
  · exact within
  · intro row member entry inside
    obtain ⟨whole, original, rfl⟩ := Array.mem_map.1 member
    obtain ⟨j, -, rfl⟩ := Array.mem_map.1 inside
    split
    · rename_i value located
      split
      · exact within whole original value (Array.mem_of_getElem? located)
      · exact Nat.zero_le limit
    · exact Nat.zero_le limit

/-! ## Edges -/

theorem weight_le_of_ofMatrix {a b weight : Nat} {ids : IdSequence} (within : Within limit matrix)
    (joined : (ofMatrix matrix ids).1.weight? a b = some weight) : weight ≤ limit := by
  have undirected := Undirected.ofMatrix matrix ids
  wlog less : a < b generalizing a b with swapped
  · rcases lt_or_eq_of_le (not_lt.1 less) with more | rfl
    · exact swapped ((undirected.symmetric b a).trans joined) more
    · rw [undirected.loopless] at joined
      cases joined
  have inside : b < matrix.size := by
    rw [← size_ofMatrix matrix ids]
    exact undirected.lt_size (by rw [joined]; rfl)
  rw [weight?_ofMatrix less inside] at joined
  exact within.cell?_le (Option.filter_eq_some_iff.1 joined).1

/-- The edges of a variable are few, and weigh no more than two variables can meet. -/
theorem neighbours_ofRows (rows : Rows) (density : Float) (ids : IdSequence) (node : Nat) :
    ∃ edges : List (Nat × Nat),
      (ofRows rows (some density) ids).1.neighbours node =
        edges.map (fun edge => (edge.1, .ofNat edge.2)) ∧
      edges.length ≤ rows.arity ∧
      ∀ edge ∈ edges, edge.2 ≤ rows.size * (rows.arity * rows.arity) := by
  cases more : rows.isEmpty with
  | true =>
      rw [ofRows_of_isEmpty more]
      exact ⟨[], neighbours_isolated Float rows.arity ids node, Nat.zero_le _, by simp⟩
  | false =>
      have undirected := Undirected.ofMatrix (kept rows (some density)) ids
      rw [ofRows_of_rows more, neighbours_mapWeights]
      refine ⟨_, rfl, ?_, fun edge member => ?_⟩
      · rw [← size_kept rows (some density), ← size_ofMatrix _ ids]
        exact undirected.length_neighbours_le node
      · exact weight_le_of_ofMatrix (thin_within rows.coOccurrence_within density)
          (undirected.mem_neighbours.1 member)

end Graph

/-! ## Sums -/

theorem onScale_multiple {k : Nat} {e : ℤ} (small : k < 2 ^ 53) (low : 0 ≤ e) :
    OnScale (k * 2 ^ e) :=
  ⟨k, e, by rw [abs_of_nonneg (Int.natCast_nonneg k)]; exact_mod_cast small, by omega, by norm_cast⟩

theorem multiple_le_greatest {k : Nat} {e : ℤ} (small : k < 2 ^ 53) (high : e ≤ 970) :
    (k : ℚ) * 2 ^ e ≤ greatest := by
  have digits : (k : ℚ) ≤ 2 ^ (53 : ℤ) := by exact_mod_cast small.le
  calc (k : ℚ) * 2 ^ e ≤ 2 ^ (53 : ℤ) * 2 ^ e := mul_le_mul_of_nonneg_right digits (by positivity)
    _ = 2 ^ (53 + e) := (zpow_add₀ two_ne_zero ..).symm
    _ ≤ greatest := two_pow_le_greatest (by omega)

/-- Each of fewer than `2 ^ 53` edges adds at most the greatest weight to the sum. -/
theorem upTo_sum {start : Float} {k : Nat} {e : ℤ} (low : 0 ≤ e) (high : e ≤ 970)
    (started : UpTo (k * 2 ^ e) start) (weights : ∀ edge ∈ edges, UpTo (2 ^ e) edge.2)
    (few : k + edges.length < 2 ^ 53) :
    UpTo ((k + edges.length : ℕ) * 2 ^ e) (edges.foldl (fun sum edge => sum + edge.2) start) := by
  induction edges generalizing start k with
  | nil => exact started
  | cons edge rest ih =>
      have ⟨here, later⟩ := List.forall_mem_cons.1 weights
      have places : k + (edge :: rest).length = k + 1 + rest.length := by
        rw [List.length_cons]
        omega
      rw [places] at few ⊢
      have nonneg : 0 ≤ value start + value edge.2 := add_nonneg started.nonneg here.nonneg
      have sum : value start + value edge.2 ≤ (k + 1 : ℕ) * 2 ^ e := by
        push_cast
        linarith [started.le, here.le]
      have added : Approximates (start + edge.2) (value start + value edge.2) := by
        apply approximates_add started.finite here.finite
        rw [abs_of_nonneg nonneg]
        exact sum.trans (multiple_le_greatest (by omega) high)
      exact ih (added.upTo (onScale_multiple (by omega) low) nonneg sum) later few

theorem Graph.degrees_upTo (size : rows.size < UInt64.size)
    (arity : rows.arity * rows.arity < UInt64.size) (density : Float) (ids : IdSequence) :
    ∀ x ∈ (Graph.ofRows rows (some density) ids).1.degrees, UpTo (2 ^ (160 : ℤ)) x := by
  intro x member
  obtain ⟨node, -, rfl⟩ := List.mem_map.1 member
  obtain ⟨edges, same, few, light⟩ := neighbours_ofRows rows density ids node
  have counted : rows.arity < 2 ^ 32 := by
    by_contra many
    have := Nat.mul_le_mul (not_lt.1 many) (not_lt.1 many)
    exact absurd arity (not_lt.2 this)
  have weights : ∀ edge ∈ edges.map (fun edge => (edge.1, Float.ofNat edge.2)),
      UpTo (2 ^ (128 : ℤ)) edge.2 := by
    intro edge joined
    obtain ⟨whole, original, rfl⟩ := List.mem_map.1 joined
    have weight : whole.2 ≤ 2 ^ 64 * 2 ^ 64 :=
      (light whole original).trans (Nat.mul_le_mul size.le arity.le)
    exact upTo_ofNat (by norm_num) (by norm_num) (by exact_mod_cast weight)
  have zero : UpTo ((0 : ℕ) * 2 ^ (128 : ℤ)) (.ofNat 0) := upTo_zero (by positivity)
  have summed := upTo_sum (by norm_num) (by norm_num) zero weights (by rw [List.length_map]; omega)
  rw [same]
  refine ⟨summed.finite, summed.nonneg, summed.le.trans ?_⟩
  have edges_le : ((0 + (edges.map fun edge => (edge.1, Float.ofNat edge.2)).length : ℕ) : ℚ) ≤
      2 ^ (32 : ℤ) := by
    rw [List.length_map]
    exact_mod_cast (by omega : 0 + edges.length ≤ 2 ^ 32)
  calc _ ≤ 2 ^ (32 : ℤ) * 2 ^ (128 : ℤ) := mul_le_mul_of_nonneg_right edges_le (by positivity)
    _ = 2 ^ (160 : ℤ) := (zpow_add₀ two_ne_zero ..).symm

end TwoLevel
