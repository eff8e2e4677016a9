import TwoLevel.Proofs.Outcome

/-!
The stages put together. A minimal cover is found by a check of the rows, one pass of each stage
without a limit, and nothing else; a minimization does the same under a configuration. Both draw the
same words in the same order, so they agree on covers, on failures and on the words that are left.
-/

namespace TwoLevel

variable {config : Config} {scoring : Scoring} {onset offset : Rows} {source : Source}

/-- What a minimization does with rows that passed the check. -/
def solveFrom (config : Config) (scoring : Scoring) (onset offset : Rows) (source : Source) :
    Except Failure Solution × Source :=
  let (seeds, source) := source.seeds config.iterations
  match searchSeeds scoring onset offset config.budget seeds config.workers with
  | .error failure => (.error failure, source)
  | .ok implicants =>
      let expansion := expand scoring offset implicants config.budget source
      match expansion.result with
      | .error failure => (.error failure, expansion.source)
      | .ok primes =>
          let covering := cover onset primes config.budget expansion.source
          (covering.result.map fun chosen => ⟨implicants, primes, chosen⟩, covering.source)

theorem minimizeFrom_eq (config : Config) (scoring : Scoring) (onset offset : Rows)
    (source : Source) : minimizeFrom config scoring onset offset source =
      match checkInput config onset offset with
      | .error failure => (.error failure, source)
      | .ok () => solveFrom config scoring onset offset source := rfl

/-- Only the iterations, the workers and the budget matter once the rows are checked. -/
theorem solveFrom_validate (config : Config) (validate : Bool) :
    solveFrom { config with validate } scoring onset offset source =
      solveFrom config scoring onset offset source := rfl

theorem minimizeFrom_of_checked (checked : checkInput config onset offset = .ok ()) :
    minimizeFrom config scoring onset offset source =
      solveFrom config scoring onset offset source := by
  rw [minimizeFrom_eq, checked]

theorem checkInput_of_disjoint (config : Config) (same : onset.arity = offset.arity)
    (disjoint : onset.minterms.Disjoint offset.minterms) :
    checkInput config onset offset = .ok () :=
  checkInput_eq_ok.2 ⟨same, fun _ => disjoint⟩

theorem searchMany_eq (same : onset.arity = offset.arity) (shareable : config.Shareable) :
    searchMany scoring onset offset config.iterations source =
      (searchSeeds scoring onset offset none (source.seeds config.iterations).1 config.workers,
        (source.seeds config.iterations).2) := by
  have checked : Rows.checkVariables onset offset = .ok () := if_pos same
  rw [← config.shareable_seeds source] at shareable
  simp only [searchMany, checked, searchSeeds_eq shareable, searchSeeds_eq (shareable_one _)]

theorem arity_eq_of_checkDisjoint (checked : Rows.checkDisjoint onset offset = .ok ()) :
    onset.arity = offset.arity := by
  have by_default : checkInput {} onset offset = .ok () := checked
  exact (checkInput_eq_ok.1 by_default).1

theorem minimalCover_of_checked (unlimited : config.budget = none) (shareable : config.Shareable)
    (checked : Rows.checkDisjoint onset offset = .ok ()) :
    minimalCover scoring onset offset config.iterations source =
      ((solveFrom config scoring onset offset source).1.map (·.cover),
        (solveFrom config scoring onset offset source).2) := by
  have same : onset.arity = offset.arity := arity_eq_of_checkDisjoint checked
  simp only [minimalCover, solveFrom, checked, searchMany_eq same shareable, unlimited]
  cases searchSeeds scoring onset offset none (source.seeds config.iterations).1
      config.workers with
  | error failure => rfl
  | ok implicants =>
      cases expanded : (expand scoring offset implicants none
          (source.seeds config.iterations).2).result with
      | error failure => simp only [expanded, Except.map]
      | ok primes =>
          simp only [expanded]
          cases (cover onset primes none (expand scoring offset implicants none
              (source.seeds config.iterations).2).source).result <;> rfl

/-- The composed stages return the cover, or fail with the failure, of a minimization that checks
the rows and has no budget, whatever its workers as long as the searches can be shared out among
them, and leave the same words. Where the rows are disjoint and over the same variables, the check
changes nothing under any configuration. -/
theorem minimalCover_agrees (scoring : Scoring) (onset offset : Rows) (source : Source) :
    (∀ config : Config, config.validate = true → config.budget = none → config.Shareable →
      minimalCover scoring onset offset config.iterations source =
        ((minimizeFrom config scoring onset offset source).1.map (·.cover),
          (minimizeFrom config scoring onset offset source).2)) ∧
    ∀ config : Config, onset.arity = offset.arity → onset.minterms.Disjoint offset.minterms →
      minimizeFrom { config with validate := false } scoring onset offset source =
        minimizeFrom { config with validate := true } scoring onset offset source := by
  constructor
  · intro config validate unlimited shareable
    have check : checkInput config onset offset = Rows.checkDisjoint onset offset := if_pos validate
    rw [minimizeFrom_eq, check]
    cases checked : Rows.checkDisjoint onset offset with
    | error failure =>
        simp only [minimalCover, checked]
        rfl
    | ok _ => exact minimalCover_of_checked unlimited shareable checked
  · intro config same disjoint
    rw [minimizeFrom_of_checked (checkInput_of_disjoint _ same disjoint),
      minimizeFrom_of_checked (checkInput_of_disjoint _ same disjoint)]
    exact (solveFrom_validate config false).trans (solveFrom_validate config true).symm

/-- Three workers solve parity as the composed stages do, with or without the check; on a table that
is its own offset both stop at the same row. -/
theorem minimalCover_agrees_parity :
    minimalCover .frequency oddParity evenParity 2 (.ofSeed 0) =
      ((minimizeFrom { workers := 3 } .frequency oddParity evenParity (.ofSeed 0)).1.map (·.cover),
        (minimizeFrom { workers := 3 } .frequency oddParity evenParity (.ofSeed 0)).2) ∧
    minimizeFrom { validate := false } .frequency oddParity evenParity (.ofSeed 0) =
      minimizeFrom {} .frequency oddParity evenParity (.ofSeed 0) ∧
    minimalCover .frequency oddParity oddParity 2 (.ofSeed 0) =
      ((minimizeFrom {} .frequency oddParity oddParity (.ofSeed 0)).1.map (·.cover),
        (minimizeFrom {} .frequency oddParity oddParity (.ofSeed 0)).2) := by
  have disjoint : ∀ m ∈ oddParity.minterms, m ∉ evenParity.minterms := by decide
  refine ⟨?_, ?_, ?_⟩
  · exact (minimalCover_agrees .frequency oddParity evenParity (.ofSeed 0)).1 { workers := 3 } rfl rfl
      (by decide)
  · exact (minimalCover_agrees .frequency oddParity evenParity (.ofSeed 0)).2 {} rfl disjoint
  · exact (minimalCover_agrees .frequency oddParity oddParity (.ofSeed 0)).1 {} rfl rfl (by decide)

/-- The composed stages find a cover of parity; a minimization with the greatest number of workers
breaks off. -/
theorem minimalCover_crowded :
    (∃ set, (minimalCover .frequency oddParity evenParity 2 (.ofSeed 0)).1 = .ok set) ∧
      (minimizeFrom .crowded .frequency oddParity evenParity (.ofSeed 0)).1 = .error .overflow := by
  have disjoint : ∀ m ∈ oddParity.minterms, m ∉ evenParity.minterms := by decide
  have by_default : checkInput {} oddParity evenParity = .ok () :=
    checkInput_of_disjoint {} rfl disjoint
  have crowded : checkInput .crowded oddParity evenParity = .ok () :=
    checkInput_of_disjoint .crowded rfl disjoint
  obtain ⟨s, next, solved⟩ := minimizeFrom_parity (.ofSeed 0)
  rw [minimizeFrom_of_checked by_default] at solved
  have covers : minimalCover .frequency oddParity evenParity ({} : Config).iterations (.ofSeed 0) =
      (.ok s.cover, next) := by
    rw [minimalCover_of_checked rfl (by decide) by_default, solved]
    rfl
  exact ⟨⟨s.cover, congrArg Prod.fst covers⟩, minimizeFrom_of_overload crowded (by decide)⟩

end TwoLevel
