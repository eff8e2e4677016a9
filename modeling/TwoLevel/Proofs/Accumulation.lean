import TwoLevel.Proofs.Failures
import TwoLevel.Proofs.Outcome

/-!
More searches. The seeds of fewer searches begin the seeds of more, each search runs on words of its
own, and outcomes are absorbed in order. So more searches only add implicants, and a search that
fails goes on failing in the same way, whatever searches come after it.
-/

namespace TwoLevel

variable {config config' : Config} {scoring : Scoring} {onset offset : Rows} {budget : Option Nat}
  {found set : CubeSet} {outcomes later : List (Except Failure CubeSet)}
  {seeds seeds' : List UInt64} {failure : Failure} {source : Source} {s : Solution}

theorem Source.seeds_add (source : Source) (fewer more : Nat) :
    (source.seeds (fewer + more)).1 =
      (source.seeds fewer).1 ++ ((source.seeds fewer).2.seeds more).1 := by
  induction fewer generalizing source with
  | zero => rw [Nat.zero_add]; rfl
  | succ fewer ih =>
      rw [Nat.succ_add]
      simp only [seeds, List.cons_append, ih]

theorem Source.seeds_prefix (source : Source) {fewer more : Nat} (le : fewer ≤ more) :
    (source.seeds fewer).1 <+: (source.seeds more).1 := by
  obtain ⟨further, rfl⟩ := Nat.exists_eq_add_of_le le
  rw [seeds_add]
  exact List.prefix_append ..

/-- How the outcome of more searches goes on from that of fewer. -/
structure Continues (fewer more : Except Failure CubeSet) : Prop where
  grows : ∀ set, more = .ok set → ∃ part, fewer = .ok part ∧ part ⊆ set
  fails : ∀ failure, fewer = .error failure → more = .error failure

theorem subset_foldlM_absorb (run : outcomes.foldlM absorb found = .ok set) : found ⊆ set := by
  rcases outcomes_cases outcomes with ⟨sets, rfl⟩ | ⟨sets, failure, later, rfl⟩
  · rw [foldlM_absorb_ok] at run
    cases run
    exact fun c member => mem_foldl_union.2 (.inl member)
  · rw [foldlM_absorb_error] at run
    cases run

theorem foldlM_absorb_continues (found : CubeSet) (outcomes later : List (Except Failure CubeSet)) :
    Continues (outcomes.foldlM absorb found) ((outcomes ++ later).foldlM absorb found) := by
  rw [List.foldlM_append]
  cases run : outcomes.foldlM absorb found with
  | error failure =>
      constructor
      · intro set more
        cases more
      · intro other same
        cases same
        rfl
  | ok part =>
      constructor
      · intro set more
        exact ⟨part, rfl, subset_foldlM_absorb more⟩
      · intro failure same
        cases same

theorem searchSeeds_continues {workers workers' : Nat} (shareable : Shareable seeds.length workers)
    (shareable' : Shareable seeds'.length workers') (before : seeds <+: seeds') (scoring : Scoring)
    (onset offset : Rows) (budget : Option Nat) :
    Continues (searchSeeds scoring onset offset budget seeds workers)
      (searchSeeds scoring onset offset budget seeds' workers') := by
  rw [searchSeeds_eq shareable, searchSeeds_eq shareable']
  obtain ⟨further, rfl⟩ := before
  rw [List.map_append]
  exact foldlM_absorb_continues ..

theorem Continues.refused (failure : Failure) : Continues (.error failure) (.error failure) where
  grows _ more := by cases more
  fails _ same := same

theorem searchMany_continues (scoring : Scoring) (onset offset : Rows) {fewer more : Nat}
    (le : fewer ≤ more) (source : Source) :
    Continues (searchMany scoring onset offset fewer source).1
      (searchMany scoring onset offset more source).1 := by
  unfold searchMany
  cases Rows.checkVariables onset offset with
  | error failure => exact .refused failure
  | ok _ =>
      have before := source.seeds_prefix le
      exact searchSeeds_continues (shareable_one _) (shareable_one _) before scoring onset offset none

/-! ## The searches of a minimization -/

/-- What a minimization starts with: a check of the rows, then the searches. -/
def searched (config : Config) (scoring : Scoring) (onset offset : Rows) (source : Source) :
    Except Failure CubeSet := do
  checkInput config onset offset
  searchSeeds scoring onset offset config.budget (source.seeds config.iterations).1 config.workers

theorem shareable_of_searched (run : searched config scoring onset offset source = .ok set) :
    config.Shareable := by
  obtain ⟨-, -, run⟩ := bind_eq_ok.1 run
  by_contra overloaded
  rw [← config.shareable_seeds source] at overloaded
  rw [searchSeeds_of_not_shareable overloaded] at run
  cases run

theorem shareable_of_within (run : searched config scoring onset offset source = .error failure)
    (within : failure.Within .search budget) : config.Shareable := by
  rcases bind_eq_error.1 run with refused | ⟨-, -, run⟩
  · rcases checkInput_failure refused with rfl | ⟨m, rfl⟩ <;> cases within
  · by_contra overloaded
    rw [← config.shareable_seeds source] at overloaded
    rw [searchSeeds_of_not_shareable overloaded] at run
    cases run
    cases within

/-- How the result of a minimization shows the outcome of its searches. -/
structure Shows (budget : Option Nat) (searched : Except Failure CubeSet)
    (result : Except Failure Solution) : Prop where
  implicants : ∀ s, result = .ok s → searched = .ok s.implicants
  failed : ∀ failure, searched = .error failure → result = .error failure
  blamed : ∀ failure, result = .error failure → failure.Within .search budget →
    searched = .error failure

theorem minimizeFrom_searched (config : Config) (scoring : Scoring) (onset offset : Rows)
    (source : Source) : (minimizeFrom config scoring onset offset source).1 = (do
      let implicants ← searched config scoring onset offset source
      let expansion := expand scoring offset implicants config.budget
        (source.seeds config.iterations).2
      let primes ← expansion.result
      let chosen ← (cover onset primes config.budget expansion.source).result
      return ⟨implicants, primes, chosen⟩) := by
  rw [minimizeFrom_result, searched]
  cases checkInput config onset offset <;> rfl

theorem minimizeFrom_shows (config : Config) (scoring : Scoring) (onset offset : Rows)
    (source : Source) : Shows config.budget (searched config scoring onset offset source)
      (minimizeFrom config scoring onset offset source).1 := by
  rw [minimizeFrom_searched]
  constructor
  · intro s run
    obtain ⟨implicants, found, run⟩ := bind_eq_ok.1 run
    obtain ⟨primes, -, run⟩ := bind_eq_ok.1 run
    obtain ⟨chosen, -, same⟩ := bind_eq_ok.1 run
    cases same
    exact found
  · intro failure fails
    exact bind_eq_error.2 (.inl fails)
  · intro failure run within
    rcases bind_eq_error.1 run with fails | ⟨implicants, -, run⟩
    · exact fails
    -- a failure of a later stage names that stage or a cube that no search blames
    · rcases bind_eq_error.1 run with fails | ⟨primes, -, run⟩
      · rcases expand_failure fails with ⟨c, -, rfl⟩ | other
        · cases within
        · cases within.stage_eq other
      · rcases bind_eq_error.1 run with fails | ⟨chosen, -, run⟩
        · rcases cover_failure fails with ⟨m, -, rfl⟩ | other
          · cases within
          · cases within.stage_eq other
        · cases run

/-- The second configuration asks for at least as many searches, under the same limits. The number
of workers is free. -/
structure Config.Extends (config config' : Config) : Prop where
  iterations : config.iterations ≤ config'.iterations
  budget : config'.budget = config.budget
  validate : config'.validate = config.validate

theorem searched_continues (more : config.Extends config') (shareable : config.Shareable)
    (shareable' : config'.Shareable) (scoring : Scoring) (onset offset : Rows) (source : Source) :
    Continues (searched config scoring onset offset source)
      (searched config' scoring onset offset source) := by
  have check : checkInput config' onset offset = checkInput config onset offset := by
    simp only [checkInput, more.validate]
  rw [← config.shareable_seeds source] at shareable
  rw [← config'.shareable_seeds source] at shareable'
  unfold searched
  rw [check, more.budget]
  cases checkInput config onset offset with
  | error failure => exact .refused failure
  | ok _ =>
      have before := source.seeds_prefix more.iterations
      exact searchSeeds_continues shareable shareable' before scoring onset offset config.budget

/-- With more searches from the same words, the implicants of fewer searches are found again, and a
failure of fewer searches stays the same failure, with the same partial set, as long as the searches
can be shared out among the workers. -/
theorem iterations_accumulate (more : config.Extends config') (scoring : Scoring)
    (onset offset : Rows) (source : Source) :
    Continues (searchMany scoring onset offset config.iterations source).1
      (searchMany scoring onset offset config'.iterations source).1 ∧
    (config.Shareable → config'.Shareable →
      Continues (searched config scoring onset offset source)
        (searched config' scoring onset offset source)) ∧
    Shows config.budget (searched config scoring onset offset source)
      (minimizeFrom config scoring onset offset source).1 ∧
    Shows config'.budget (searched config' scoring onset offset source)
      (minimizeFrom config' scoring onset offset source).1 ∧
    (∀ s s', (minimizeFrom config scoring onset offset source).1 = .ok s →
      (minimizeFrom config' scoring onset offset source).1 = .ok s' →
      s.implicants ⊆ s'.implicants) ∧
    (config'.Shareable → ∀ failure, failure.Within .search config.budget →
      (minimizeFrom config scoring onset offset source).1 = .error failure →
      (minimizeFrom config' scoring onset offset source).1 = .error failure) := by
  have continues (shareable : config.Shareable) (shareable' : config'.Shareable) :=
    searched_continues more shareable shareable' scoring onset offset source
  have shows := minimizeFrom_shows config scoring onset offset source
  have shows' := minimizeFrom_shows config' scoring onset offset source
  refine ⟨searchMany_continues scoring onset offset more.iterations source, continues, shows,
    shows', ?_, ?_⟩
  · intro s s' run run'
    have first := shows.implicants s run
    have second := shows'.implicants s' run'
    obtain ⟨part, found, inside⟩ :=
      (continues (shareable_of_searched first) (shareable_of_searched second)).grows s'.implicants second
    cases found.symm.trans first
    exact inside
  · intro shareable' failure within run
    have stopped := shows.blamed failure run within
    have shareable := shareable_of_within stopped within
    exact shows'.failed failure ((continues shareable shareable').fails failure stopped)

/-- One search and two searches of parity both have solutions; without an offset, one search and
three searches are stopped by a budget of one item, with the same partial set. -/
theorem iterations_accumulate_parity :
    (∃ s s',
      (minimizeFrom { iterations := 1 } .frequency oddParity evenParity (.ofSeed 0)).1 = .ok s ∧
      (minimizeFrom {} .frequency oddParity evenParity (.ofSeed 0)).1 = .ok s' ∧
      s.implicants ⊆ s'.implicants) ∧
    (minimizeFrom { iterations := 3, workers := 2, budget := some 1 } .frequency
      ⟨1, [.ofBits [true]], by decide⟩ (.empty 1) (.ofSeed 0)).1 =
        .error (.budgetExhausted .search 1 (.insert ∅ .universal)) := by
  constructor
  · have offers : Scoring.frequency.Offers oddParity :=
      Scoring.offers_of_default (.inl rfl) (by decide)
    have disjoint : ∀ m ∈ oddParity.minterms, m ∉ evenParity.minterms := by decide
    have same : oddParity.arity = evenParity.arity := rfl
    have one : ∃ s,
        (minimizeFrom { iterations := 1 } .frequency oddParity evenParity (.ofSeed 0)).1 = .ok s :=
      minimizeFrom_of_disjoint offers same rfl (by decide) disjoint (.inl (by decide))
    obtain ⟨s, run⟩ := one
    obtain ⟨s', next, run'⟩ := minimizeFrom_parity (.ofSeed 0)
    have more : Config.Extends { iterations := 1 } {} := ⟨by decide, rfl, rfl⟩
    have runs := iterations_accumulate more .frequency oddParity evenParity (.ofSeed 0)
    exact ⟨s, s', run, congrArg Prod.fst run',
      runs.2.2.2.2.1 s s' run (congrArg Prod.fst run')⟩
  · have more : Config.Extends { iterations := 1, budget := some 1 }
        { iterations := 3, workers := 2, budget := some 1 } := ⟨by decide, rfl, rfl⟩
    have runs := iterations_accumulate more .frequency ⟨1, [.ofBits [true]], by decide⟩ (.empty 1)
      (.ofSeed 0)
    apply runs.2.2.2.2.2 (by decide)
    · exact .budgetExhausted 1 _ rfl
    · have stopped : searchSeed .frequency ⟨1, [.ofBits [true]], by decide⟩ (.empty 1) (some 1)
          ((Source.ofSeed 0).next64).1 =
            .error (.budgetExhausted .search 1 (.insert ∅ .universal)) :=
        congrArg Pass.result (search_of_no_offset rfl (by decide) rfl)
      have checked : checkInput { iterations := 1, budget := some 1 }
          ⟨1, [.ofBits [true]], by decide⟩ (.empty 1) = .ok () :=
        checkInput_eq_ok.2 ⟨rfl, fun _ => List.disjoint_nil_right _⟩
      apply runs.2.2.1.failed
      unfold searched
      rw [searchSeeds_eq (.inl (by decide)), checked]
      simp only [Source.seeds, List.map_cons, List.map_nil, stopped]
      rfl

/-- A single search of a table beside itself stops for want of candidates, whatever the workers; for
two searches and the greatest number of workers the run breaks off. -/
theorem iterations_crowded :
    Config.Extends { Config.crowded with iterations := 1, validate := false }
      { Config.crowded with validate := false } ∧
    ∃ m, (minimizeFrom { Config.crowded with iterations := 1, validate := false } .frequency
        oddParity oddParity (.ofSeed 0)).1 = .error (.noCandidates .search m) ∧
      (minimizeFrom { Config.crowded with validate := false } .frequency oddParity oddParity
        (.ofSeed 0)).1 = .error .overflow := by
  have offers : Scoring.frequency.Offers oddParity :=
    Scoring.offers_of_default (.inl rfl) (by decide)
  have shared : ∃ m ∈ oddParity.minterms, m ∈ oddParity.minterms := by decide
  have single : ∃ failure, (minimizeFrom { Config.crowded with iterations := 1, validate := false }
      .frequency oddParity oddParity (.ofSeed 0)).1 = .error failure ∧
        failure.Blames oddParity oddParity :=
    minimizeFrom_of_shared offers rfl rfl rfl (by decide) (by decide) shared
  obtain ⟨failure, fails, m, -, -, rfl⟩ := single
  exact ⟨⟨by decide, rfl, rfl⟩, m, fails, minimizeFrom_of_overload rfl (by decide)⟩

end TwoLevel
