import TwoLevel.Proofs.Stages
import TwoLevel.Proofs.Offers

/-!
When minimization succeeds, for the default scorings and without a budget. The checks of the rows
come first, and a run that cannot share out its searches breaks off; then a search fails exactly if
the onset and the offset share a row, and a covering exactly if there was no search to find
implicants. Nothing else can go wrong.
-/

namespace TwoLevel

variable {config : Config} {scoring : Scoring} {onset offset : Rows} {source : Source}
  {failure : Failure} {m : Cube}

theorem Source.length_seeds (source : Source) (count : Nat) :
    (source.seeds count).1.length = count := by
  induction count generalizing source with
  | zero => rfl
  | succ count ih =>
      have rest := ih (source.next64).2
      simp only [seeds, List.length_cons, rest]

theorem Source.seeds_ne_nil {count : Nat} (busy : 1 ≤ count) (source : Source) :
    (source.seeds count).1 ≠ [] := by
  rw [← List.length_pos_iff, length_seeds]
  exact busy

/-- The configuration has no more workers than its searches can be shared out among. -/
def Config.Shareable (config : Config) : Prop :=
  TwoLevel.Shareable config.iterations config.workers

instance (config : Config) : Decidable config.Shareable :=
  inferInstanceAs (Decidable (TwoLevel.Shareable ..))

theorem Config.shareable_iff (counted : config.iterations ≤ UInt64.size) :
    config.Shareable ↔ config.workers ≤ 1 ∨ config.iterations ≤ 1 ∨
      config.iterations + config.workers - 1 < UInt64.size :=
  TwoLevel.shareable_iff counted

theorem Config.shareable_seeds (config : Config) (source : Source) :
    TwoLevel.Shareable (source.seeds config.iterations).1.length config.workers ↔
      config.Shareable := by
  rw [Source.length_seeds, Shareable]

/-! ## The cases -/

theorem minimizeFrom_of_overload (checked : checkInput config onset offset = .ok ())
    (overloaded : ¬ config.Shareable) :
    (minimizeFrom config scoring onset offset source).1 = .error .overflow := by
  rw [← config.shareable_seeds source] at overloaded
  rw [minimizeFrom_result, checked, searchSeeds_of_not_shareable overloaded]
  rfl

theorem minimizeFrom_of_checkInput_error (fails : checkInput config onset offset = .error failure) :
    (minimizeFrom config scoring onset offset source).1 = .error failure := by
  rw [minimizeFrom_result, fails]
  rfl

theorem minimizeFrom_of_no_search (checked : checkInput config onset offset = .ok ())
    (unlimited : config.budget = none) (idle : config.iterations = 0)
    (first : onset.minterms.head? = some m) :
    (minimizeFrom config scoring onset offset source).1 = .error (.uncoverableMinterm m) := by
  have none_found : searchSeeds scoring onset offset none [] config.workers = .ok ∅ := by
    have shareable : TwoLevel.Shareable ([] : List UInt64).length config.workers :=
      .inr (.inl (Nat.zero_le 1))
    rw [searchSeeds_eq shareable]
    rfl
  have none_expanded : expand scoring offset ∅ none source = ⟨.ok ∅, 0, source⟩ :=
    expandFrom_nil scoring offset none ∅ 0 source
  have left : onset.minterms.find? (!(∅ : CubeSet).admits ·) = some m := by
    obtain ⟨rest, same⟩ := List.head?_eq_some_iff.1 first
    rw [same]
    rfl
  have stops := cover_total onset ∅ source
  rw [left] at stops
  rw [minimizeFrom_result, checked, idle, unlimited]
  simp only [Source.seeds, none_found, none_expanded, stops, bind, Except.bind]

theorem minimizeFrom_of_shared (offers : scoring.Offers onset) (same : onset.arity = offset.arity)
    (checked : checkInput config onset offset = .ok ()) (unlimited : config.budget = none)
    (shareable : config.Shareable) (busy : 1 ≤ config.iterations)
    (shared : ∃ m ∈ onset.minterms, m ∈ offset.minterms) :
    ∃ failure, (minimizeFrom config scoring onset offset source).1 = .error failure ∧
      failure.Blames onset offset := by
  rw [minimizeFrom_result, checked, unlimited]
  rcases searchSeeds_total offers same ((config.shareable_seeds source).2 shareable) with
    ⟨set, found⟩ | ⟨failure, fails, blames⟩
  · obtain ⟨implicants, covered⟩ := searchSeeds_sound found
    obtain ⟨m, on, off⟩ := shared
    obtain ⟨c, member, inside⟩ := CubeSet.admits_iff.1 (covered (source.seeds_ne_nil busy) m on)
    have outside := Rows.meets_eq_false_iff.1 (implicants.safe c member) m off
    simp [inside] at outside
  · rw [fails]
    exact ⟨failure, rfl, blames⟩

theorem minimizeFrom_of_disjoint (offers : scoring.Offers onset)
    (same : onset.arity = offset.arity) (unlimited : config.budget = none)
    (shareable : config.Shareable) (disjoint : onset.minterms.Disjoint offset.minterms)
    (busy : 1 ≤ config.iterations ∨ onset.minterms = []) :
    ∃ s, (minimizeFrom config scoring onset offset source).1 = .ok s := by
  have checked : checkInput config onset offset = .ok () :=
    checkInput_eq_ok.2 ⟨same, fun _ => disjoint⟩
  rw [minimizeFrom_result, checked, unlimited]
  rcases searchSeeds_total offers same ((config.shareable_seeds source).2 shareable) with
    ⟨implicants, found⟩ | ⟨failure, -, m, on, off, -⟩
  · obtain ⟨sound, covered⟩ := searchSeeds_sound found
    obtain ⟨primes, expanded⟩ := expand_total offers sound (source.seeds config.iterations).2
    have held : ∀ m ∈ onset.minterms, primes.admits m = true := by
      intro m member
      have searched : 1 ≤ config.iterations := busy.resolve_right (List.ne_nil_of_mem member)
      exact (expand_ok expanded).admits (covered (source.seeds_ne_nil searched) m member)
    have none_left : onset.minterms.find? (!primes.admits ·) = none := by simpa using held
    have covering := cover_total onset primes
      (expand scoring offset implicants none (source.seeds config.iterations).2).source
    rw [none_left] at covering
    obtain ⟨chosen, covers⟩ := covering
    simp only [found, expanded, covers, bind, Except.bind]
    exact ⟨_, rfl⟩
  · exact (disjoint on off).elim

/-- Which result a minimization has to have, by the rows and the configuration alone. -/
structure Outcome (config : Config) (onset offset : Rows) (result : Except Failure Solution) :
    Prop where
  mismatched : onset.arity ≠ offset.arity →
    result = .error (.dimensionMismatch onset.arity offset.arity)
  refused : onset.arity = offset.arity → config.validate = true →
    ∀ m, onset.minterms.find? (· ∈ offset.minterms) = some m → result = .error (.overlappingSets m)
  overloaded : onset.arity = offset.arity →
    (config.validate = true → onset.minterms.Disjoint offset.minterms) → ¬ config.Shareable →
    result = .error .overflow
  blamed : onset.arity = offset.arity → config.validate = false → config.Shareable →
    1 ≤ config.iterations → (∃ m ∈ onset.minterms, m ∈ offset.minterms) →
    ∃ m ∈ onset.minterms, m ∈ offset.minterms ∧ m.IsMinterm onset.arity ∧
      result = .error (.noCandidates .search m)
  idle : onset.arity = offset.arity →
    (config.validate = true → onset.minterms.Disjoint offset.minterms) → config.iterations = 0 →
    ∀ m, onset.minterms.head? = some m → result = .error (.uncoverableMinterm m)
  solved : onset.arity = offset.arity → onset.minterms.Disjoint offset.minterms →
    config.Shareable → 1 ≤ config.iterations ∨ onset.minterms = [] → ∃ s, result = .ok s

namespace Outcome

variable {result : Except Failure Solution}

theorem failure_of_disjoint (outcome : Outcome config onset offset (.error failure))
    (same : onset.arity = offset.arity) (shareable : config.Shareable)
    (disjoint : onset.minterms.Disjoint offset.minterms) :
    ∃ m, onset.minterms.head? = some m ∧ failure = .uncoverableMinterm m := by
  cases first : onset.minterms.head? with
  | none =>
      have no_row : onset.minterms = [] := List.head?_eq_none_iff.1 first
      obtain ⟨s, solved⟩ := outcome.solved same disjoint shareable (.inr no_row)
      cases solved
  | some m =>
      rcases Nat.eq_zero_or_pos config.iterations with idle | busy
      · cases outcome.idle same (fun _ => disjoint) idle m first
        exact ⟨m, rfl, rfl⟩
      · obtain ⟨s, solved⟩ := outcome.solved same disjoint shareable (.inl busy)
        cases solved

theorem failure_of_refused (outcome : Outcome config onset offset (.error failure))
    (same : onset.arity = offset.arity) (validate : config.validate = true)
    (on : m ∈ onset.minterms) (off : m ∈ offset.minterms) :
    ∃ m ∈ onset.minterms, m ∈ offset.minterms ∧ failure = .overlappingSets m := by
  cases found : onset.minterms.find? (· ∈ offset.minterms) with
  | none =>
      have missed := List.find?_eq_none.1 found m on
      simp [off] at missed
  | some first =>
      cases outcome.refused same validate first found
      have shared := List.find?_some found
      exact ⟨first, List.mem_of_find?_eq_some found, by simpa using shared, rfl⟩

theorem failure_of_shared (outcome : Outcome config onset offset (.error failure))
    (same : onset.arity = offset.arity) (unchecked : config.validate = false)
    (shareable : config.Shareable) (on : m ∈ onset.minterms) (off : m ∈ offset.minterms) :
    (∃ m ∈ onset.minterms, m ∈ offset.minterms ∧ failure = .noCandidates .search m) ∨
    ∃ m, onset.minterms.head? = some m ∧ failure = .uncoverableMinterm m := by
  rcases Nat.eq_zero_or_pos config.iterations with idle | busy
  · obtain ⟨first, rest, split⟩ := List.exists_cons_of_ne_nil (List.ne_nil_of_mem on)
    have head : onset.minterms.head? = some first := by rw [split, List.head?_cons]
    cases outcome.idle same (by simp [unchecked]) idle first head
    exact .inr ⟨first, head, rfl⟩
  · obtain ⟨blamed, row, shared, -, fails⟩ :=
      outcome.blamed same unchecked shareable busy ⟨m, on, off⟩
    cases fails
    exact .inl ⟨blamed, row, shared, rfl⟩

theorem failure_cases (outcome : Outcome config onset offset result)
    (fails : result = .error failure) :
    failure = .dimensionMismatch onset.arity offset.arity ∨
    (∃ m ∈ onset.minterms, m ∈ offset.minterms ∧
      (failure = .overlappingSets m ∨ failure = .noCandidates .search m)) ∨
    (∃ m, onset.minterms.head? = some m ∧ failure = .uncoverableMinterm m) ∨
    ¬ config.Shareable ∧ failure = .overflow := by
  subst fails
  by_cases same : onset.arity = offset.arity
  · by_cases disjoint : onset.minterms.Disjoint offset.minterms
    · by_cases shareable : config.Shareable
      · exact .inr (.inr (.inl (outcome.failure_of_disjoint same shareable disjoint)))
      · cases outcome.overloaded same (fun _ => disjoint) shareable
        exact .inr (.inr (.inr ⟨shareable, rfl⟩))
    · simp only [List.Disjoint, not_forall] at disjoint
      obtain ⟨m, on, off, -⟩ := disjoint
      cases validate : config.validate with
      | true =>
          obtain ⟨m, row, shared, fails⟩ := outcome.failure_of_refused same validate on off
          exact .inr (.inl ⟨m, row, shared, .inl fails⟩)
      | false =>
          by_cases shareable : config.Shareable
          · rcases outcome.failure_of_shared same validate shareable on off with
              ⟨m, row, shared, fails⟩ | uncoverable
            · exact .inr (.inl ⟨m, row, shared, .inr fails⟩)
            · exact .inr (.inr (.inl uncoverable))
          · cases outcome.overloaded same (by simp [validate]) shareable
            exact .inr (.inr (.inr ⟨shareable, rfl⟩))
  · cases outcome.mismatched same
    exact .inl rfl

end Outcome

theorem outcome_of_offers (offers : scoring.Offers onset) (unlimited : config.budget = none)
    (offset : Rows) (source : Source) :
    Outcome config onset offset (minimizeFrom config scoring onset offset source).1 := by
  constructor
  · intro differ
    apply minimizeFrom_of_checkInput_error
    rw [checkInput_eq, if_neg differ]
  · intro same validate m first
    apply minimizeFrom_of_checkInput_error
    rw [checkInput_eq, if_pos same, if_pos validate, first]
  · intro same passes overloaded
    exact minimizeFrom_of_overload (checkInput_eq_ok.2 ⟨same, passes⟩) overloaded
  · intro same unchecked shareable busy shared
    have checked : checkInput config onset offset = .ok () :=
      checkInput_eq_ok.2 ⟨same, fun validate => by simp [unchecked] at validate⟩
    obtain ⟨failure, fails, m, on, off, rfl⟩ :=
      minimizeFrom_of_shared offers same checked unlimited shareable busy shared
    exact ⟨m, on, off, onset.complete m on, fails⟩
  · intro same disjoint idle m first
    exact minimizeFrom_of_no_search (checkInput_eq_ok.2 ⟨same, disjoint⟩) unlimited idle first
  · intro same disjoint shareable busy
    exact minimizeFrom_of_disjoint offers same unlimited shareable disjoint busy

/-- With a default scoring and no budget, the rows and the configuration decide whether there is a
solution, and otherwise which failure there is or that the run breaks off. -/
theorem minimizeFrom_outcome (config : Config) (scoring : Scoring) (onset offset : Rows)
    (source : Source) (default : scoring = .frequency ∨ scoring = .distance)
    (unlimited : config.budget = none)
    (finite : ∀ count ≤ max onset.size onset.arity, (Float.ofNat count).isFinite = true) :
    Outcome config onset offset (minimizeFrom config scoring onset offset source).1 ∧
    ∀ failure, (minimizeFrom config scoring onset offset source).1 = .error failure →
      failure = .dimensionMismatch onset.arity offset.arity ∨
      (∃ m ∈ onset.minterms, m ∈ offset.minterms ∧
        (failure = .overlappingSets m ∨ failure = .noCandidates .search m)) ∨
      (∃ m, onset.minterms.head? = some m ∧ failure = .uncoverableMinterm m) ∨
      ¬ config.Shareable ∧ failure = .overflow := by
  have offers := Scoring.offers_of_default default finite
  have outcome := outcome_of_offers offers unlimited offset source
  exact ⟨outcome, fun failure fails => outcome.failure_cases fails⟩

/-- The rows of two variables with an odd number of ones. -/
def oddParity : Rows := ⟨2, [.ofBits [false, true], .ofBits [true, false]], by decide⟩

def evenParity : Rows := ⟨2, [.ofBits [true, true], .ofBits [false, false]], by decide⟩

/-- Parity has a solution, and without the check a row of both sets stops the search. -/
theorem minimizeFrom_outcome_parity :
    (∃ s, (minimizeFrom {} .frequency oddParity evenParity (.ofSeed 0)).1 = .ok s) ∧
    ∃ m ∈ oddParity.minterms, m ∈ oddParity.minterms ∧ m.IsMinterm 2 ∧
      (minimizeFrom { validate := false } .distance oddParity oddParity (.ofSeed 0)).1 =
        .error (.noCandidates .search m) := by
  constructor
  · have outcome := minimizeFrom_outcome {} .frequency oddParity evenParity (.ofSeed 0) (.inl rfl)
      rfl (by decide)
    have disjoint : ∀ m ∈ oddParity.minterms, m ∉ evenParity.minterms := by decide
    exact outcome.1.solved rfl disjoint (by decide) (.inl (by decide))
  · have outcome := minimizeFrom_outcome { validate := false } .distance oddParity oddParity
      (.ofSeed 0) (.inr rfl) rfl (by decide)
    have shared : ∃ m ∈ oddParity.minterms, m ∈ oddParity.minterms := by decide
    exact outcome.1.blamed rfl rfl (by decide) (by decide) shared

/-- As many workers as a word can count. -/
def Config.crowded : Config := { workers := UInt64.size - 1 }

/-- Parity has no solution for two searches and the greatest number of workers: the run breaks off
before the first search. -/
theorem minimizeFrom_crowded :
    oddParity.minterms.Disjoint evenParity.minterms ∧
      (minimizeFrom .crowded .frequency oddParity evenParity (.ofSeed 0)).1 = .error .overflow := by
  have disjoint : ∀ m ∈ oddParity.minterms, m ∉ evenParity.minterms := by decide
  have checked : checkInput .crowded oddParity evenParity = .ok () :=
    checkInput_eq_ok.2 ⟨rfl, fun _ => disjoint⟩
  exact ⟨disjoint, minimizeFrom_of_overload checked (by decide)⟩

theorem minimizeFrom_parity (source : Source) :
    ∃ s next, minimizeFrom {} .frequency oddParity evenParity source = (.ok s, next) := by
  have offers : Scoring.frequency.Offers oddParity :=
    Scoring.offers_of_default (.inl rfl) (by decide)
  have disjoint : ∀ m ∈ oddParity.minterms, m ∉ evenParity.minterms := by decide
  have busy : 1 ≤ ({} : Config).iterations := by decide
  have same : oddParity.arity = evenParity.arity := rfl
  have solves : ∃ s, (minimizeFrom {} .frequency oddParity evenParity source).1 = .ok s :=
    minimizeFrom_of_disjoint offers same rfl (by decide) disjoint (.inl busy)
  obtain ⟨s, solved⟩ := solves
  exact ⟨s, (minimizeFrom {} .frequency oddParity evenParity source).2, Prod.ext solved rfl⟩

end TwoLevel
