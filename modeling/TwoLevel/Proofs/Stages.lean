import TwoLevel.Solution
import TwoLevel.Proofs.Rows

/-!
Minimization stage by stage: a check of the rows, the searches, the expansion of what they found and
the covering. Each stage goes on with what the one before it found and with the words that it left.
-/

namespace TwoLevel

variable {config : Config} {scoring : Scoring} {onset offset : Rows} {source next : Source}
  {s : Solution}

def checkInput (config : Config) (onset offset : Rows) : Except Failure Unit :=
  if config.validate then Rows.checkDisjoint onset offset else Rows.checkVariables onset offset

theorem checkInput_eq (config : Config) (onset offset : Rows) : checkInput config onset offset =
    if onset.arity = offset.arity then
      match if config.validate then onset.minterms.find? (· ∈ offset.minterms) else none with
      | some m => .error (.overlappingSets m)
      | none => .ok ()
    else .error (.dimensionMismatch onset.arity offset.arity) := by
  unfold checkInput Rows.checkDisjoint Rows.checkVariables
  rw [Rows.firstShared?_eq]
  by_cases same : onset.arity = offset.arity
  · cases config.validate with
    | false => simp [same]
    | true =>
        cases onset.minterms.find? (· ∈ offset.minterms) with
        | none => simp [same, bind, Except.bind]
        | some m => simp [same, bind, Except.bind]
  · cases config.validate with
    | false => simp [same]
    | true => simp [same, bind, Except.bind]

theorem checkInput_eq_ok : checkInput config onset offset = .ok () ↔
    onset.arity = offset.arity ∧
      (config.validate = true → onset.minterms.Disjoint offset.minterms) := by
  have none_shared : onset.minterms.find? (· ∈ offset.minterms) = none ↔
      onset.minterms.Disjoint offset.minterms := by
    simp [List.Disjoint]
  rw [checkInput_eq, ← none_shared]
  by_cases same : onset.arity = offset.arity
  · cases config.validate with
    | false => simp [same]
    | true => cases onset.minterms.find? (· ∈ offset.minterms) <;> simp [same]
  · simp [same]

theorem checkInput_failure {failure : Failure}
    (refused : checkInput config onset offset = .error failure) :
    failure = .dimensionMismatch onset.arity offset.arity ∨ ∃ m, failure = .overlappingSets m := by
  rw [checkInput_eq] at refused
  split at refused
  · split at refused
    · exact .inr ⟨_, (Except.error.inj refused).symm⟩
    · cases refused
  · exact .inl (Except.error.inj refused).symm

theorem minimizeFrom_result (config : Config) (scoring : Scoring) (onset offset : Rows)
    (source : Source) : (minimizeFrom config scoring onset offset source).1 = (do
      checkInput config onset offset
      let implicants ← searchSeeds scoring onset offset config.budget
        (source.seeds config.iterations).1 config.workers
      let expansion := expand scoring offset implicants config.budget
        (source.seeds config.iterations).2
      let primes ← expansion.result
      let chosen ← (cover onset primes config.budget expansion.source).result
      return ⟨implicants, primes, chosen⟩) := by
  have check : (if config.validate then Rows.checkDisjoint onset offset
      else Rows.checkVariables onset offset) = checkInput config onset offset := rfl
  unfold minimizeFrom
  dsimp only
  rw [check]
  cases checkInput config onset offset with
  | error failure => rfl
  | ok _ =>
      dsimp only
      cases searchSeeds scoring onset offset config.budget
          (source.seeds config.iterations).1 config.workers with
      | error failure => rfl
      | ok implicants =>
          cases expanded : (expand scoring offset implicants config.budget
              (source.seeds config.iterations).2).result with
          | error failure => simp only [expanded, bind, Except.bind]
          | ok primes =>
              simp only [expanded, bind, Except.bind]
              cases (cover onset primes config.budget (expand scoring offset implicants
                  config.budget (source.seeds config.iterations).2).source).result <;> rfl

theorem bind_eq_ok {ε α β : Type} {x : Except ε α} {f : α → Except ε β} {b : β} :
    (x >>= f) = .ok b ↔ ∃ a, x = .ok a ∧ f a = .ok b := by
  cases x with
  | error failure => simp [bind, Except.bind]
  | ok a => simp [bind, Except.bind]

theorem bind_eq_error {ε α β : Type} {x : Except ε α} {f : α → Except ε β} {failure : ε} :
    (x >>= f) = .error failure ↔ x = .error failure ∨ ∃ a, x = .ok a ∧ f a = .error failure := by
  cases x with
  | error first => simp [bind, Except.bind]
  | ok a => simp [bind, Except.bind]

/-- A minimization that comes to the covering leaves the words that the covering leaves. -/
theorem minimizeFrom_source {implicants primes : CubeSet}
    (checked : checkInput config onset offset = .ok ())
    (searched : searchSeeds scoring onset offset config.budget (source.seeds config.iterations).1
      config.workers = .ok implicants)
    (expanded : (expand scoring offset implicants config.budget
      (source.seeds config.iterations).2).result = .ok primes) :
    (minimizeFrom config scoring onset offset source).2 =
      (cover onset primes config.budget (expand scoring offset implicants config.budget
        (source.seeds config.iterations).2).source).source := by
  have check : (if config.validate then Rows.checkDisjoint onset offset
      else Rows.checkVariables onset offset) = .ok () := checked
  unfold minimizeFrom
  simp only [check, searched, expanded]

/-- A solution goes through a check of the rows, searches, an expansion and a covering. -/
theorem minimizeFrom_eq_ok :
    minimizeFrom config scoring onset offset source = (.ok s, next) ↔
      checkInput config onset offset = .ok () ∧
      searchSeeds scoring onset offset config.budget (source.seeds config.iterations).1
        config.workers = .ok s.implicants ∧
      ∃ expansion : Pass,
        expand scoring offset s.implicants config.budget (source.seeds config.iterations).2 =
          expansion ∧
        expansion.result = .ok s.primes ∧
        (cover onset s.primes config.budget expansion.source).result = .ok s.cover ∧
        (cover onset s.primes config.budget expansion.source).source = next := by
  constructor
  · intro run
    have result := congrArg Prod.fst run
    rw [minimizeFrom_result, bind_eq_ok] at result
    obtain ⟨_, checked, result⟩ := result
    obtain ⟨implicants, searched, result⟩ := bind_eq_ok.1 result
    obtain ⟨primes, expanded, result⟩ := bind_eq_ok.1 result
    obtain ⟨chosen, covered, same⟩ := bind_eq_ok.1 result
    cases same
    have words := minimizeFrom_source checked searched expanded
    rw [run] at words
    exact ⟨checked, searched, _, rfl, expanded, covered, words.symm⟩
  · intro stages
    obtain ⟨checked, searched, expansion, rfl, expanded, covered, rfl⟩ := stages
    apply Prod.ext
    · rw [minimizeFrom_result]
      simp only [checked, searched, expanded, covered, bind, Except.bind]
      rfl
    · exact minimizeFrom_source checked searched expanded

end TwoLevel
