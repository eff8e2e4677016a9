import TwoLevel.Proofs.Budgets
import TwoLevel.Proofs.Outcome

/-!
The choice of primes from state to state. In every state that a choice reaches with a row uncovered
some prime is picked, and never one picked before; so the choice goes on until all rows are covered,
and what remains after the redundant primes are dropped is an irredundant cover.
-/

namespace TwoLevel

variable {onset : Rows} {primes set part : CubeSet} {budget : Option Nat} {c m : Cube}
  {source now next : Source}

/-! ## Irredundant covers -/

/-- The cubes hold all rows, and each of them holds a row that no other one does. -/
structure CubeSet.Irredundant (set : CubeSet) (onset : Rows) : Prop where
  complete : ∀ m ∈ onset.minterms, set.admits m = true
  own : ∀ c ∈ set, ∃ m ∈ onset.minterms, c.admits m = true ∧
    ∀ d ∈ set, d.admits m = true → d = c

theorem CubeSet.irredundant_of_needed (complete : ∀ m ∈ onset.minterms, set.admits m = true)
    (needed : ∀ c ∈ set, ∃ m ∈ onset.minterms, (set.erase c).admits m = false) :
    set.Irredundant onset where
  complete := complete
  own c member := by
    obtain ⟨m, row, lost⟩ := needed c member
    have only : ∀ d ∈ set, d.admits m = true → d = c := by
      intro d among inside
      by_contra different
      have kept : (set.erase c).admits m = true :=
        admits_iff.2 ⟨d, mem_erase.2 ⟨among, different⟩, inside⟩
      simp [lost] at kept
    obtain ⟨d, among, inside⟩ := admits_iff.1 (complete m row)
    exact ⟨m, row, only d among inside ▸ inside, only⟩

theorem Covering.irredundant (covering : Covering onset primes set) : set.Irredundant onset :=
  CubeSet.irredundant_of_needed covering.complete covering.needed

/-! ## The states of a choice -/

namespace Grid

variable {grid : Grid} {uncovered : List (List Nat)} {chosen : List Nat} {place nodes : Nat}

/-- The states of a choice without a budget: the rows uncovered, the places chosen and the words
left. -/
inductive Reaches (grid : Grid) (source : Source) : List (List Nat) → List Nat → Source → Prop
  | start : Reaches grid source grid.rows [] source
  | pick {uncovered : List (List Nat)} {chosen : List Nat} {now after : Source} {place : Nat}
      (before : Reaches grid source uncovered chosen now) (more : uncovered ≠ [])
      (picked : grid.pick uncovered now = (some place, after)) :
      Reaches grid source (beyond place uncovered) (chosen ++ [place]) after

namespace Reaches

theorem choosing (reaches : grid.Reaches source uncovered chosen now) :
    grid.Choosing uncovered chosen := by
  induction reaches with
  | start => exact .start grid
  | pick before more picked ih => exact ih.advance picked

theorem chooseFrom_eq (reaches : grid.Reaches source uncovered chosen now) :
    grid.chooseFrom none grid.rows [] 0 source =
      grid.chooseFrom none uncovered chosen chosen.length now := by
  induction reaches with
  | start => rfl
  | pick before more picked ih =>
      rw [ih, chooseFrom_of_some more rfl picked, List.length_append, List.length_singleton]

theorem pick_fresh (wellFormed : grid.WellFormed)
    (reaches : grid.Reaches source uncovered chosen now) (more : uncovered ≠ []) :
    ∃ place after, grid.pick uncovered now = (some place, after) ∧ place ∉ chosen := by
  cases picked : grid.pick uncovered now with
  | mk choice after =>
      cases choice with
      -- Each row that is left lies in some prime, and the primes are scored by such rows.
      | none =>
          have some_pick := pick_ne_none wellFormed reaches.choosing more now
          simp [picked] at some_pick
      | some place =>
          obtain ⟨row, member, holds⟩ := held_pos_of_pick picked
          refine ⟨place, after, rfl, fun again => ?_⟩
          exact reaches.choosing.fresh row member place again (List.contains_iff_mem.1 holds)

end Reaches

/-- How a choice stops in a state: all rows are covered, or the places chosen have used up the
budget. Its work items are these places. -/
inductive Stops (grid : Grid) (budget : Option Nat) :
    List (List Nat) → List Nat → Source → Choice → Prop
  | covered {chosen : List Nat} {now : Source} :
      Stops grid budget [] chosen now ⟨.ok chosen, chosen.length, now⟩
  | spent {uncovered : List (List Nat)} {chosen : List Nat} {now : Source} {limit : Nat}
      (more : uncovered ≠ []) (spent : exhausted? budget chosen.length = some limit) :
      Stops grid budget uncovered chosen now
        ⟨.error (.budgetExhausted .covering limit (grid.cubes chosen)), chosen.length, now⟩

theorem Reaches.stops (wellFormed : grid.WellFormed)
    (reaches : grid.Reaches source uncovered chosen now) (counted : nodes = chosen.length) :
    ∃ left places next, grid.Reaches source left places next ∧
      grid.Stops budget left places next (grid.chooseFrom budget uncovered chosen nodes now) := by
  fun_induction chooseFrom grid budget uncovered chosen nodes now with
  | case1 uncovered chosen nodes now done =>
      rw [List.isEmpty_iff.1 done] at reaches
      rw [counted]
      exact ⟨[], chosen, now, reaches, .covered⟩
  | case2 uncovered chosen nodes now more limit spent =>
      rw [counted] at spent ⊢
      exact ⟨uncovered, chosen, now, reaches, .spent (by simpa using more) spent⟩
  | case3 uncovered chosen nodes now more allowed after picked =>
      obtain ⟨place, other, some_pick, -⟩ := reaches.pick_fresh wellFormed (by simpa using more)
      rw [picked] at some_pick
      cases some_pick
  | case4 uncovered chosen nodes now more allowed place after picked ih =>
      exact ih (reaches.pick (by simpa using more) picked) (by simp [counted])

theorem chooseFrom_stops (wellFormed : grid.WellFormed) (budget : Option Nat) (source : Source) :
    ∃ left places next, grid.Reaches source left places next ∧
      grid.Stops budget left places next (grid.chooseFrom budget grid.rows [] 0 source) :=
  Reaches.start.stops wellFormed rfl

theorem chooseFrom_ends (wellFormed : grid.WellFormed) (source : Source) :
    ∃ places next, grid.Reaches source [] places next ∧
      grid.chooseFrom none grid.rows [] 0 source = ⟨.ok places, places.length, next⟩ := by
  obtain ⟨left, places, next, reached, stops⟩ := chooseFrom_stops wellFormed none source
  generalize grid.chooseFrom none grid.rows [] 0 source = choice at stops
  cases stops with
  | covered => exact ⟨places, next, reached, rfl⟩
  | spent more spent => cases spent

end Grid

/-! ## What a covering comes to -/

theorem cover_uncoverable_iff :
    (cover onset primes budget source).result = .error (.uncoverableMinterm m) ↔
      onset.minterms.find? (!primes.admits ·) = some m := by
  constructor
  · intro run
    rcases cover_failure run with ⟨k, first, same⟩ | within
    · cases same
      exact first
    · cases within
  · intro first
    rw [cover_of_uncoverable first]

theorem cubes_of_choosing {chosen : List Nat} {uncovered : List (List Nat)}
    (choosing : (Grid.incidence onset primes).Choosing uncovered chosen) :
    (Grid.incidence onset primes).cubes chosen ⊆ primes ∧
      ((Grid.incidence onset primes).cubes chosen).size = chosen.length := by
  have counted := choosing.chosen_cubes primes.nodup_cubes
  rwa [Grid.chosen_incidence] at counted

theorem admits_of_choosing {chosen : List Nat}
    (choosing : (Grid.incidence onset primes).Choosing [] chosen) :
    ∀ m ∈ onset.minterms, ((Grid.incidence onset primes).cubes chosen).admits m = true := by
  intro m row
  have listed : Grid.holders primes.cubes m ∈ (Grid.incidence onset primes).rows :=
    Grid.mem_rows_incidence.2 ⟨m, row, rfl⟩
  exact Grid.cubes_incidence_admits.2
    ((choosing.covered _ listed).resolve_left List.not_mem_nil)

theorem cover_of_held (held : ∀ m ∈ onset.minterms, primes.admits m = true) (source : Source) :
    ∃ chosen next, (Grid.incidence onset primes).Reaches source [] chosen next ∧
      cover onset primes none source = ⟨.ok ((Grid.incidence onset primes).cubes
        ((Grid.incidence onset primes).irredundant chosen)), chosen.length, next⟩ := by
  have coverable : onset.minterms.find? (!primes.admits ·) = none := by simpa using held
  obtain ⟨chosen, next, reached, ends⟩ :=
    Grid.chooseFrom_ends (Grid.wellFormed_incidence held) source
  refine ⟨chosen, next, reached, ?_⟩
  rw [cover_of_coverable coverable, ends]
  rfl

/-- A covering without a budget is refused for the first row that lies in no prime, before any word
is drawn. If there is no such row, the choice picks a prime in each state with an uncovered row, and
not one picked before; it ends, and leaves an irredundant cover of the rows by some of the primes. -/
theorem cover_outcome (onset : Rows) (primes : CubeSet) (source : Source) :
    (∀ m, (cover onset primes none source).result = .error (.uncoverableMinterm m) ↔
      onset.minterms.find? (!primes.admits ·) = some m) ∧
    (∀ m, onset.minterms.find? (!primes.admits ·) = some m →
      cover onset primes none source = ⟨.error (.uncoverableMinterm m), 0, source⟩) ∧
    ((∀ m ∈ onset.minterms, primes.admits m = true) →
      ∃ grid, Grid.ofRows onset primes = .ok grid ∧
        (∀ uncovered chosen now, grid.Reaches source uncovered chosen now →
          grid.chooseFrom none grid.rows [] 0 source =
            grid.chooseFrom none uncovered chosen chosen.length now ∧
          (uncovered ≠ [] →
            ∃ place after, grid.pick uncovered now = (some place, after) ∧ place ∉ chosen)) ∧
        ∃ chosen next set, grid.Reaches source [] chosen next ∧
          chosen.Nodup ∧ (grid.cubes chosen).size = chosen.length ∧
          cover onset primes none source = ⟨.ok set, chosen.length, next⟩ ∧
          set ⊆ primes ∧ set.Irredundant onset) := by
  refine ⟨fun m => cover_uncoverable_iff, fun m first => cover_of_uncoverable first none source,
    fun held => ?_⟩
  refine ⟨_, Grid.ofRows_eq_ok.2 ⟨held, rfl⟩, ?_, ?_⟩
  · intro uncovered chosen now reaches
    exact ⟨reaches.chooseFrom_eq, reaches.pick_fresh (Grid.wellFormed_incidence held)⟩
  · obtain ⟨chosen, next, reached, run⟩ := cover_of_held held source
    have choosing := reached.choosing
    have covering := cover_ok (congrArg Pass.result run)
    exact ⟨chosen, next, _, reached, choosing.distinct, (cubes_of_choosing choosing).2, run,
      covering.chosen, covering.irredundant⟩

/-- Cubes that hold parity twice over are thinned out; without any the first row is refused. -/
theorem cover_outcome_parity :
    (∃ set next nodes,
      cover oddParity (.ofList [.universal, .ofBits [false, true], .ofBits [true, false]]) none
        (.ofSeed 0) = ⟨.ok set, nodes, next⟩ ∧ set.Irredundant oddParity) ∧
    cover oddParity ∅ none (.ofSeed 0) =
      ⟨.error (.uncoverableMinterm (.ofBits [false, true])), 0, .ofSeed 0⟩ := by
  constructor
  · have held : ∀ m ∈ oddParity.minterms,
        (CubeSet.ofList [.universal, .ofBits [false, true], .ofBits [true, false]]).admits m =
          true := by decide
    obtain ⟨-, -, -, chosen, next, set, -, -, -, run, -, irredundant⟩ :=
      (cover_outcome oddParity _ (.ofSeed 0)).2.2 held
    exact ⟨set, next, chosen.length, run, irredundant⟩
  · exact (cover_outcome oddParity ∅ (.ofSeed 0)).2.1 _ (by decide)

end TwoLevel
