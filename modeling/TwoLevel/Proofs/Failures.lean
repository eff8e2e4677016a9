import TwoLevel.Proofs.Search
import TwoLevel.Proofs.Expansion
import TwoLevel.Proofs.Covering

/-!
Which failures a stage can have, for any scoring. The loop of a stage fails by running out of
candidates or of its budget, and names the stage. Before its loop an expansion refuses the first
cube that meets the offset, and a covering the first row that lies in no prime.
-/

namespace TwoLevel

variable {scoring : Scoring} {onset offset remainder : Rows} {budget : Option Nat} {stage : Stage}
  {implicants primes found : CubeSet} {queue : List Cube} {nodes limit : Nat} {c m : Cube}
  {failure : Failure} {source next : Source}

theorem eq_some_of_exhausted? (spent : exhausted? budget nodes = some limit) :
    budget = some limit := by
  simp only [exhausted?, Option.filter_eq_some_iff] at spent
  exact spent.1

/-- The failures of the loop of a stage. -/
inductive Failure.Within (stage : Stage) (budget : Option Nat) : Failure → Prop
  | noCandidates (c : Cube) : Within stage budget (.noCandidates stage c)
  | budgetExhausted (limit : Nat) (part : CubeSet) (limited : budget = some limit) :
      Within stage budget (.budgetExhausted stage limit part)

theorem Failure.Within.stage_eq {other : Stage} {budget' : Option Nat}
    (first : failure.Within stage budget) (second : failure.Within other budget') :
    stage = other := by
  cases first with
  | noCandidates c =>
      cases second
      rfl
  | budgetExhausted limit part =>
      cases second
      rfl

theorem growFrom_within (run : growFrom scoring remainder offset c source = (.error failure, next))
    (budget : Option Nat) : failure.Within .search budget := by
  obtain ⟨d, rfl, -⟩ := growFrom_error run
  exact .noCandidates d

theorem searchFrom_within
    (run : (searchFrom scoring offset budget remainder found nodes source).result =
      .error failure) : failure.Within .search budget := by
  fun_induction searchFrom scoring offset budget remainder found nodes source with
  | case1 remainder found nodes source limit spent =>
      cases run
      exact .budgetExhausted limit found (eq_some_of_exhausted? spent)
  | case2 => cases run
  | case3 remainder found nodes source allowed more failure after stuck =>
      cases run
      exact growFrom_within stuck budget
  | case4 remainder found nodes source allowed more c after grown rest smaller ih => exact ih run
  | case5 remainder found nodes source allowed more c after grown rest stays =>
      cases run
      exact .noCandidates c

theorem expandFrom_within
    (run : (expandFrom scoring offset budget queue primes nodes source).result = .error failure) :
    failure.Within .expansion budget := by
  fun_induction expandFrom scoring offset budget queue primes nodes source with
  | case1 => cases run
  | case2 primes nodes source c rest limit spent =>
      cases run
      exact .budgetExhausted limit primes (eq_some_of_exhausted? spent)
  | case3 primes nodes source c rest allowed candidates none_left ih => exact ih run
  | case4 primes nodes source c rest allowed candidates more after chosen =>
      cases run
      exact .noCandidates c
  | case5 primes nodes source c rest allowed candidates more l after chosen ih => exact ih run

theorem expand_of_meets (first : implicants.cubes.find? offset.meets = some c)
    (budget : Option Nat) (source : Source) :
    expand scoring offset implicants budget source = ⟨.error (.unsafeImplicant c), 0, source⟩ := by
  unfold expand
  rw [first]

theorem expand_of_avoids (avoid : implicants.cubes.find? offset.meets = none) (budget : Option Nat)
    (source : Source) : expand scoring offset implicants budget source =
      expandFrom scoring offset budget implicants.cubes ∅ 0 source := by
  unfold expand
  rw [avoid]

theorem expand_of_all_avoid (avoid : ∀ c ∈ implicants, offset.meets c = false)
    (budget : Option Nat) (source : Source) : expand scoring offset implicants budget source =
      expandFrom scoring offset budget implicants.cubes ∅ 0 source := by
  refine expand_of_avoids (List.find?_eq_none.2 fun c member => ?_) budget source
  rw [avoid c member]
  exact Bool.false_ne_true

theorem expand_failure
    (run : (expand scoring offset implicants budget source).result = .error failure) :
    (∃ c, implicants.cubes.find? offset.meets = some c ∧ failure = .unsafeImplicant c) ∨
      failure.Within .expansion budget := by
  cases first : implicants.cubes.find? offset.meets with
  | some c =>
      rw [expand_of_meets first] at run
      cases run
      exact .inl ⟨c, rfl, rfl⟩
  | none =>
      rw [expand_of_avoids first] at run
      exact .inr (expandFrom_within run)

namespace Grid

variable {grid : Grid} {uncovered : List (List Nat)} {chosen : List Nat}

theorem chooseFrom_within
    (run : (grid.chooseFrom budget uncovered chosen nodes source).result = .error failure) :
    failure.Within .covering budget := by
  fun_induction chooseFrom grid budget uncovered chosen nodes source with
  | case1 => cases run
  | case2 uncovered chosen nodes source more limit spent =>
      cases run
      exact .budgetExhausted limit _ (eq_some_of_exhausted? spent)
  | case3 => cases run
  | case4 uncovered chosen nodes source more allowed place after picked ih => exact ih run

/-- The pass that a choice of places makes. -/
def Choice.pass (grid : Grid) (choice : Choice) : Pass :=
  ⟨choice.result.map fun chosen => grid.cubes (grid.irredundant chosen), choice.nodes,
    choice.source⟩

end Grid

theorem cover_of_uncoverable (first : onset.minterms.find? (!primes.admits ·) = some m)
    (budget : Option Nat) (source : Source) :
    cover onset primes budget source = ⟨.error (.uncoverableMinterm m), 0, source⟩ := by
  unfold cover
  rw [Grid.ofRows_eq, first]

theorem cover_of_coverable (coverable : onset.minterms.find? (!primes.admits ·) = none)
    (budget : Option Nat) (source : Source) : cover onset primes budget source =
      ((Grid.incidence onset primes).chooseFrom budget (Grid.incidence onset primes).rows
        [] 0 source).pass (Grid.incidence onset primes) := by
  unfold cover
  rw [Grid.ofRows_eq, coverable]
  rfl

theorem cover_failure (run : (cover onset primes budget source).result = .error failure) :
    (∃ m, onset.minterms.find? (!primes.admits ·) = some m ∧ failure = .uncoverableMinterm m) ∨
      failure.Within .covering budget := by
  cases first : onset.minterms.find? (!primes.admits ·) with
  | some m =>
      rw [cover_of_uncoverable first] at run
      cases run
      exact .inl ⟨m, rfl, rfl⟩
  | none =>
      rw [cover_of_coverable first] at run
      cases choice : ((Grid.incidence onset primes).chooseFrom budget
          (Grid.incidence onset primes).rows [] 0 source).result with
      | ok chosen => simp [Grid.Choice.pass, choice, Except.map] at run
      | error stopped =>
          simp only [Grid.Choice.pass, choice, Except.map] at run
          cases run
          exact .inr (Grid.chooseFrom_within choice)

end TwoLevel
