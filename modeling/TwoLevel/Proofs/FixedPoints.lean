import TwoLevel.Proofs.Choices
import TwoLevel.Proofs.Soundness

/-!
Stages run again on a solution. A prime has no literal to lose, and of an irredundant cover each
cube is the only one that holds some row; so an expansion and a covering give back what they are
given, and the random words decide no more than the order of the choices.
-/

namespace TwoLevel

variable {config : Config} {scoring : Scoring} {onset offset : Rows} {primes set part : CubeSet}
  {queue : List Cube} {nodes : Nat} {source next : Source} {s : Solution}

/-! ## Expansion -/

theorem expandFrom_of_primes (scoring : Scoring) (fixed : ∀ c ∈ queue, offset.removable c = [])
    (primes : CubeSet) (nodes : Nat) (source : Source) :
    expandFrom scoring offset none queue primes nodes source =
      ⟨.ok (queue.foldl CubeSet.insert primes), nodes + queue.length, source⟩ := by
  induction queue generalizing primes nodes with
  | nil => exact expandFrom_nil scoring offset none primes nodes source
  | cons c rest ih =>
      have later : ∀ d ∈ rest, offset.removable d = [] := fun d member =>
        fixed d (List.mem_cons_of_mem c member)
      rw [expandFrom_of_prime rfl (fixed c List.mem_cons_self), ih later, List.foldl_cons,
        List.length_cons, Nat.add_right_comm, Nat.add_assoc]

theorem expand_of_primes (prime : ∀ c ∈ set, offset.isPrime c = true) (scoring : Scoring)
    (source : Source) : expand scoring offset set none source = ⟨.ok set, set.size, source⟩ := by
  have avoid : ∀ c ∈ set, offset.meets c = false := fun c member =>
    (Rows.isPrime_iff.1 (prime c member)).1
  have fixed : ∀ c ∈ set.cubes, offset.removable c = [] := fun c member =>
    (Rows.isPrime_iff.1 (prime c member)).2
  rw [expand_of_all_avoid avoid, expandFrom_of_primes scoring fixed, Nat.zero_add]
  change Pass.mk (.ok (CubeSet.ofList set.cubes)) set.size source = _
  rw [CubeSet.ofList_cubes]

/-! ## Covering -/

theorem CubeSet.Irredundant.eq_of_subset (irredundant : set.Irredundant onset) (among : part ⊆ set)
    (complete : ∀ m ∈ onset.minterms, part.admits m = true) : part = set := by
  refine CubeSet.ext fun c => ⟨among c, fun member => ?_⟩
  obtain ⟨m, row, -, only⟩ := irredundant.own c member
  obtain ⟨d, chosen, inside⟩ := CubeSet.admits_iff.1 (complete m row)
  exact only d (among d chosen) inside ▸ chosen

theorem cover_of_irredundant (irredundant : set.Irredundant onset) (source : Source) :
    ∃ next, cover onset set none source = ⟨.ok set, set.size, next⟩ := by
  obtain ⟨chosen, next, reached, run⟩ := cover_of_held irredundant.complete source
  have choosing := reached.choosing
  have covering := cover_ok (congrArg Pass.result run)
  -- The words decide the order of the choices only: in the end all cubes are chosen.
  obtain ⟨among, size⟩ := cubes_of_choosing choosing
  have all : (Grid.incidence onset set).cubes chosen = set :=
    irredundant.eq_of_subset among (admits_of_choosing choosing)
  rw [all] at size
  rw [run, irredundant.eq_of_subset covering.chosen covering.complete, size]
  exact ⟨next, rfl⟩

/-! ## Solutions -/

theorem Solution.Sound.irredundant (sound : s.Sound onset offset) : s.cover.Irredundant onset :=
  CubeSet.irredundant_of_needed sound.complete sound.needed

/-- A solution is fixed by the later stages, with any other scoring and any other random words. -/
theorem minimizeFrom_fixed (run : minimizeFrom config scoring onset offset source = (.ok s, next))
    (other : Scoring) (words : Source) :
    expand other offset s.cover none words = ⟨.ok s.cover, s.cover.size, words⟩ ∧
    expand other offset s.primes none words = ⟨.ok s.primes, s.primes.size, words⟩ ∧
    ∃ after, cover onset s.cover none words = ⟨.ok s.cover, s.cover.size, after⟩ := by
  have sound := sound_of_minimizeFrom run
  have prime : ∀ c ∈ s.cover, offset.isPrime c = true := fun c member =>
    sound.prime c (sound.chosen c member)
  exact ⟨expand_of_primes prime other words, expand_of_primes sound.prime other words,
    cover_of_irredundant sound.irredundant words⟩

/-- The solution for parity is fixed by the stages of another scoring with other words. -/
theorem minimizeFrom_fixed_parity :
    ∃ s next, minimizeFrom {} .frequency oddParity evenParity (.ofSeed 0) = (.ok s, next) ∧
      expand .distance evenParity s.cover none (.ofSeed 1) =
        ⟨.ok s.cover, s.cover.size, .ofSeed 1⟩ ∧
      ∃ after, cover oddParity s.cover none (.ofSeed 1) = ⟨.ok s.cover, s.cover.size, after⟩ := by
  obtain ⟨s, next, run⟩ := minimizeFrom_parity (.ofSeed 0)
  obtain ⟨expanded, -, covered⟩ := minimizeFrom_fixed run .distance (.ofSeed 1)
  exact ⟨s, next, run, expanded, covered⟩

end TwoLevel
