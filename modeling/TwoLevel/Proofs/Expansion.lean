import TwoLevel.Prime
import TwoLevel.Proofs.Rows

/-!
Correctness of expansion, for any scoring. `Descent` ties the cubes of the queue and the primes
found to the implicants that they come from: each of them widens one, and each implicant is widened
by one of them. An expansion that succeeds ends in `Descent` with an empty queue.
-/

namespace TwoLevel

variable {scoring : Scoring} {offset : Rows} {budget : Option Nat} {implicants primes set : CubeSet}
  {queue rest : List Cube} {nodes limit : Nat} {c : Cube} {l : Literal} {source next : Source}

/-! ## Single steps -/

theorem expandFrom_nil (scoring : Scoring) (offset : Rows) (budget : Option Nat) (primes : CubeSet)
    (nodes : Nat) (source : Source) :
    expandFrom scoring offset budget [] primes nodes source = ⟨.ok primes, nodes, source⟩ := by
  rw [expandFrom]

theorem expandFrom_of_exhausted (spent : exhausted? budget nodes = some limit) :
    expandFrom scoring offset budget (c :: rest) primes nodes source =
      .cut .expansion limit primes nodes source := by
  rw [expandFrom, spent]

theorem expandFrom_of_prime (allowed : exhausted? budget nodes = none)
    (fixed : offset.removable c = []) :
    expandFrom scoring offset budget (c :: rest) primes nodes source =
      expandFrom scoring offset budget rest (primes.insert c) (nodes + 1) source := by
  rw [expandFrom, allowed]
  simp [fixed]

theorem expandFrom_of_none (allowed : exhausted? budget nodes = none)
    (more : offset.removable c ≠ [])
    (chosen : selectBest (scoring.safeRemoval c (offset.removable c) offset) source =
      (none, next)) :
    expandFrom scoring offset budget (c :: rest) primes nodes source =
      ⟨.error (.noCandidates .expansion c), nodes + 1, next⟩ := by
  rw [expandFrom, allowed]
  simp only [List.isEmpty_iff, more, if_false]
  split
  · rename_i after same
    rw [chosen] at same
    cases same
    rfl
  · rename_i after same
    rw [chosen] at same
    cases same

theorem expandFrom_of_some (allowed : exhausted? budget nodes = none)
    (more : offset.removable c ≠ [])
    (chosen : selectBest (scoring.safeRemoval c (offset.removable c) offset) source =
      (some l, next)) :
    expandFrom scoring offset budget (c :: rest) primes nodes source =
      expandFrom scoring offset budget (rest ++ [c.erase l]) primes (nodes + 1) next := by
  rw [expandFrom, allowed]
  simp only [List.isEmpty_iff, more, if_false]
  split
  · rename_i after same
    rw [chosen] at same
    cases same
  · rename_i after same
    rw [chosen] at same
    cases same
    rfl

/-! ## What an expansion preserves -/

namespace Rows

theorem isPrime_iff :
    offset.isPrime c = true ↔ offset.meets c = false ∧ offset.removable c = [] := by
  simp [isPrime]

theorem meets_erase_of_removable (member : l ∈ offset.removable c) :
    offset.meets (c.erase l) = false :=
  (mem_removable.1 member).2

end Rows

/-- How the cubes of a queue and the primes found go back to the implicants. -/
structure Descent (offset : Rows) (implicants : CubeSet) (queue : List Cube) (primes : CubeSet) :
    Prop where
  safe : ∀ c ∈ queue, offset.meets c = false
  prime : ∀ c ∈ primes, offset.isPrime c = true
  origin : ∀ c, c ∈ queue ∨ c ∈ primes → ∃ d ∈ implicants, c.admits d = true
  heir : ∀ d ∈ implicants, ∃ c, (c ∈ queue ∨ c ∈ primes) ∧ c.admits d = true

namespace Descent

theorem start (safe : ∀ c ∈ implicants, offset.meets c = false) :
    Descent offset implicants implicants.cubes ∅ where
  safe := safe
  prime c member := absurd member (CubeSet.not_mem_empty c)
  origin c place := ⟨c, place.resolve_right (CubeSet.not_mem_empty c), c.admits_refl⟩
  heir d member := ⟨d, .inl member, d.admits_refl⟩

theorem settle (descent : Descent offset implicants (c :: rest) primes)
    (fixed : offset.removable c = []) : Descent offset implicants rest (primes.insert c) where
  safe d member := descent.safe d (List.mem_cons_of_mem c member)
  prime d member := by
    rcases CubeSet.mem_insert.1 member with rfl | old
    · exact Rows.isPrime_iff.2 ⟨descent.safe d List.mem_cons_self, fixed⟩
    · exact descent.prime d old
  origin d place := by
    apply descent.origin d
    rw [CubeSet.mem_insert] at place
    rw [List.mem_cons]
    tauto
  heir d member := by
    obtain ⟨e, place, wider⟩ := descent.heir d member
    refine ⟨e, ?_, wider⟩
    rw [List.mem_cons] at place
    rw [CubeSet.mem_insert]
    tauto

theorem shrink (descent : Descent offset implicants (c :: rest) primes)
    (removable : l ∈ offset.removable c) :
    Descent offset implicants (rest ++ [c.erase l]) primes where
  safe d member := by
    rcases List.mem_append.1 member with old | new
    · exact descent.safe d (List.mem_cons_of_mem c old)
    · rw [List.mem_singleton.1 new]
      exact Rows.meets_erase_of_removable removable
  prime := descent.prime
  origin d place := by
    by_cases new : d = c.erase l
    · obtain ⟨e, member, wider⟩ := descent.origin c (.inl List.mem_cons_self)
      exact ⟨e, member, new ▸ Cube.admits_trans (c.erase_admits l) wider⟩
    · apply descent.origin d
      simp only [List.mem_append, List.mem_singleton, new, or_false] at place
      exact place.imp_left (List.mem_cons_of_mem c)
  heir d member := by
    obtain ⟨e, place, wider⟩ := descent.heir d member
    by_cases shrunk : e = c
    · refine ⟨c.erase l, .inl (by simp), ?_⟩
      exact Cube.admits_trans (c.erase_admits l) (shrunk ▸ wider)
    · refine ⟨e, place.imp_left fun member => ?_, wider⟩
      exact List.mem_append_left _ ((List.mem_cons.1 member).resolve_left shrunk)

theorem admits (descent : Descent offset implicants [] primes) {m : Cube}
    (inside : implicants.admits m = true) : primes.admits m = true := by
  obtain ⟨d, member, holds⟩ := CubeSet.admits_iff.1 inside
  obtain ⟨c, place, wider⟩ := descent.heir d member
  have prime : c ∈ primes := place.resolve_left List.not_mem_nil
  exact CubeSet.admits_iff.2 ⟨c, prime, Cube.admits_trans wider holds⟩

end Descent

theorem expandFrom_ok
    (run : (expandFrom scoring offset budget queue primes nodes source).result = .ok set)
    (descent : Descent offset implicants queue primes) : Descent offset implicants [] set := by
  fun_induction expandFrom scoring offset budget queue primes nodes source with
  | case1 primes nodes source =>
      cases run
      exact descent
  | case2 => simp [Pass.cut] at run
  | case3 primes nodes source c rest unlimited candidates none_left ih =>
      exact ih run (descent.settle (List.isEmpty_iff.1 none_left))
  | case4 => simp at run
  | case5 primes nodes source c rest unlimited candidates more l after chosen ih =>
      exact ih run (descent.shrink (Scoring.mem_of_selectBest_safeRemoval chosen))

theorem expand_ok (run : (expand scoring offset implicants budget source).result = .ok set) :
    Descent offset implicants [] set := by
  unfold expand at run
  split at run
  · simp at run
  · rename_i safe
    apply expandFrom_ok run
    apply Descent.start
    intro c member
    simpa using List.find?_eq_none.1 safe c member

end TwoLevel
