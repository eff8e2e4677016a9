import TwoLevel.Proofs.RowOrder
import TwoLevel.Proofs.Outcome

/-!
Coverings of reordered rows. A covering looks at the different rows only, and it counts over them:
two grids whose rows are permuted offer the same places at each draw and drop the same redundant
ones. So a minimization of permuted rows finds the same solution and leaves the same words.
-/

namespace TwoLevel

variable {onset onset' offset offset' : Rows} {primes : CubeSet} {budget : Option Nat}
  {source : Source}

theorem bump_comm (counts : Array Nat) (first second : Nat) :
    bump (bump counts first) second = bump (bump counts second) first := by
  apply Array.ext
  · simp [bump]
  · intro place _ _
    simp only [bump, Array.getElem_modify]
    split <;> split <;> rfl

theorem tally_perm {α : Type} {lists others : List (List α)} (perm : lists.Perm others) (size : Nat)
    (key : α → Nat) : tally size key lists = tally size key others := by
  unfold tally
  rw [← List.foldl_flatten, ← List.foldl_flatten]
  apply perm.flatten.foldl_eq'
  intro a _ b _ counts
  exact bump_comm counts (key a) (key b)

namespace Grid

variable {grid other : Grid} {uncovered uncovered' : List (List Nat)}

theorem held_perm (same : grid.primes = other.primes) (perm : uncovered.Perm uncovered') :
    grid.held uncovered = other.held uncovered' := by
  rw [held, held, same, tally_perm perm]

theorem alone_perm (same : grid.primes = other.primes) (perm : uncovered.Perm uncovered') :
    grid.alone uncovered = other.alone uncovered' :=
  held_perm same (perm.filter _)

theorem pick_perm (same : grid.primes = other.primes) (perm : uncovered.Perm uncovered')
    (source : Source) : grid.pick uncovered source = other.pick uncovered' source := by
  have scored : grid.scored uncovered = other.scored uncovered' := by
    simp only [Grid.scored, held_perm same perm, alone_perm same perm, same]
  rw [pick, pick, scored]

theorem cubes_eq (same : grid.primes = other.primes) : grid.cubes = other.cubes := by
  funext places
  rw [cubes, cubes, same]

theorem chooseFrom_perm (same : grid.primes = other.primes) (perm : uncovered.Perm uncovered')
    (budget : Option Nat) (chosen : List Nat) (nodes : Nat) (source : Source) :
    other.chooseFrom budget uncovered' chosen nodes source =
      grid.chooseFrom budget uncovered chosen nodes source := by
  fun_induction chooseFrom grid budget uncovered chosen nodes source generalizing uncovered' with
  | case1 uncovered chosen nodes source done =>
      rw [perm.isEmpty_eq, List.isEmpty_iff] at done
      rw [done]
      exact chooseFrom_nil other budget chosen nodes source
  | case2 uncovered chosen nodes source more limit spent =>
      rw [perm.isEmpty_eq, List.isEmpty_iff] at more
      rw [chooseFrom_of_exhausted more spent, cubes_eq same]
  | case3 uncovered chosen nodes source more allowed after picked =>
      rw [perm.isEmpty_eq, List.isEmpty_iff] at more
      rw [pick_perm same perm] at picked
      exact chooseFrom_of_none more allowed picked
  | case4 uncovered chosen nodes source more allowed place after picked ih =>
      rw [perm.isEmpty_eq, List.isEmpty_iff] at more
      rw [pick_perm same perm] at picked
      rw [chooseFrom_of_some more allowed picked]
      exact ih (perm.filter _)

theorem irredundant_perm (perm : grid.rows.Perm other.rows) (chosen : List Nat) :
    grid.irredundant chosen = other.irredundant chosen := by
  have redundant : grid.redundant = other.redundant := by
    funext others place
    rw [Bool.eq_iff_iff, redundant_iff, redundant_iff]
    simp only [perm.mem_iff]
  simp only [irredundant, redundant]

/-- The same minterms make the same rows, in an order of their own. -/
theorem rows_incidence_perm (same : ∀ m, m ∈ onset.minterms ↔ m ∈ onset'.minterms)
    (primes : CubeSet) : (incidence onset primes).rows.Perm (incidence onset' primes).rows := by
  apply List.Perm.map
  rw [List.perm_ext_iff_of_nodup onset.nodup_distinct onset'.nodup_distinct]
  intro m
  rw [Rows.mem_distinct, Rows.mem_distinct, same]

end Grid

theorem cover_sameMinterms (same : ∀ m, m ∈ onset.minterms ↔ m ∈ onset'.minterms)
    (held : ∀ m ∈ onset.minterms, primes.admits m = true) (budget : Option Nat) (source : Source) :
    cover onset' primes budget source = cover onset primes budget source := by
  have held' : ∀ m ∈ onset'.minterms, primes.admits m = true := by
    intro m member
    exact held m ((same m).2 member)
  have columns : (Grid.incidence onset primes).primes = (Grid.incidence onset' primes).primes := rfl
  have perm := Grid.rows_incidence_perm same primes
  -- Neither the counts of a choice nor redundancy depend on the order of the rows.
  unfold cover
  rw [Grid.ofRows_eq_ok.2 ⟨held, rfl⟩, Grid.ofRows_eq_ok.2 ⟨held', rfl⟩]
  simp only [Grid.chooseFrom_perm columns perm, Grid.irredundant_perm perm, Grid.cubes_eq columns]

theorem cover_held {set : CubeSet} (run : (cover onset primes budget source).result = .ok set) :
    ∀ m ∈ onset.minterms, primes.admits m = true := by
  have covering := cover_ok run
  intro m member
  exact CubeSet.admits_mono covering.chosen (covering.complete m member)

theorem checkInput_sameMinterms {config : Config} (on : onset.SameMinterms onset')
    (off : offset.SameMinterms offset') (checked : checkInput config onset offset = .ok ()) :
    checkInput config onset' offset' = .ok () := by
  rw [checkInput_eq_ok] at checked ⊢
  rw [← on.arity, ← off.arity]
  refine ⟨checked.1, fun validate m inside outside => ?_⟩
  exact checked.2 validate ((on.mem m).2 inside) ((off.mem m).2 outside)

theorem minimizeFrom_of_orderless {config : Config} {scoring : Scoring} {next : Source}
    {s : Solution} (orderless : scoring.Orderless) (on : onset.Reordered onset')
    (off : offset.SameMinterms offset')
    (run : minimizeFrom config scoring onset offset source = (.ok s, next)) :
    minimizeFrom config scoring onset' offset' source = (.ok s, next) := by
  obtain ⟨checked, searched, expansion, expands, primes, covered, after⟩ := minimizeFrom_eq_ok.1 run
  rw [minimizeFrom_eq_ok, searchSeeds_reordered orderless on off,
    expand_sameMinterms orderless off]
  have same := cover_sameMinterms on.sameMinterms.mem (cover_held covered) config.budget
    expansion.source
  refine ⟨checkInput_sameMinterms on.sameMinterms off checked, searched, expansion, expands, primes,
    ?_, ?_⟩
  · rw [same, covered]
  · rw [same, after]

/-- A solution depends on the rows of the onset up to their order and on the set of the rows of the
offset, and so do the words that are left; a cover depends on the set of the rows of the onset. -/
theorem minimizeFrom_reordered (config : Config) (onset onset' offset offset' : Rows)
    (source : Source) :
    (onset.Reordered onset' → offset.SameMinterms offset' →
      ∀ s next, minimizeFrom config .frequency onset offset source = (.ok s, next) →
        minimizeFrom config .frequency onset' offset' source = (.ok s, next)) ∧
    ((∀ m, m ∈ onset.minterms ↔ m ∈ onset'.minterms) → ∀ primes budget set,
      (cover onset primes budget source).result = .ok set →
        (cover onset' primes budget source).result = .ok set ∧
        (cover onset' primes budget source).source =
          (cover onset primes budget source).source) := by
  constructor
  · intro on off s next run
    exact minimizeFrom_of_orderless Scoring.orderless_frequency on off run
  · intro same primes budget set run
    rw [cover_sameMinterms same (cover_held run), run]
    exact ⟨rfl, rfl⟩

/-- Parity with the rows of the onset exchanged and one of the offset repeated, and the universal
cube as a cover of the onset with a row repeated. -/
theorem minimizeFrom_reordered_parity :
    (∃ s next, minimizeFrom {} .frequency oddParity evenParity (.ofSeed 0) = (.ok s, next) ∧
      minimizeFrom {} .frequency
        ⟨2, [.ofBits [true, false], .ofBits [false, true]], by decide⟩
        ⟨2, [.ofBits [false, false], .ofBits [true, true], .ofBits [false, false]], by decide⟩
        (.ofSeed 0) = (.ok s, next)) ∧
    ∃ set, (cover oddParity (CubeSet.insert ∅ .universal) none (.ofSeed 0)).result = .ok set ∧
      (cover ⟨2, [.ofBits [true, false], .ofBits [false, true], .ofBits [true, false]], by decide⟩
        (CubeSet.insert ∅ .universal) none (.ofSeed 0)).result = .ok set := by
  constructor
  · obtain ⟨s, next, run⟩ := minimizeFrom_parity (.ofSeed 0)
    have on : oddParity.Reordered
        ⟨2, [.ofBits [true, false], .ofBits [false, true]], by decide⟩ := ⟨rfl, .swap _ _ _⟩
    have off : evenParity.SameMinterms
        ⟨2, [.ofBits [false, false], .ofBits [true, true], .ofBits [false, false]], by decide⟩ := by
      refine ⟨rfl, fun m => ?_⟩
      simp only [evenParity, List.mem_cons, List.not_mem_nil]
      tauto
    exact ⟨s, next, run,
      (minimizeFrom_reordered {} oddParity _ evenParity _ (.ofSeed 0)).1 on off s next run⟩
  · have held : oddParity.minterms.find? (!(CubeSet.insert ∅ .universal).admits ·) = none := rfl
    have covering := cover_total oddParity (CubeSet.insert ∅ .universal) (.ofSeed 0)
    rw [held] at covering
    obtain ⟨set, run⟩ := covering
    have same : ∀ m, m ∈ oddParity.minterms ↔
        m ∈ [Cube.ofBits [true, false], .ofBits [false, true], .ofBits [true, false]] := by
      intro m
      simp only [oddParity, List.mem_cons, List.not_mem_nil]
      tauto
    have both := minimizeFrom_reordered {} oddParity
      ⟨2, [.ofBits [true, false], .ofBits [false, true], .ofBits [true, false]], by decide⟩
      evenParity evenParity (.ofSeed 0)
    exact ⟨set, run, (both.2 same _ none set run).1⟩

end TwoLevel
