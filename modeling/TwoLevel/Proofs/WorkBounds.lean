import Mathlib.Algebra.GroupWithZero.Nat
import TwoLevel.Proofs.Choices
import TwoLevel.Proofs.Discovery
import TwoLevel.Proofs.Soundness

/-!
How much work a stage can take up, for any scoring. Growing a cube ends after at most one literal
more than there are variables, a search after one item more than there are different rows, an
expansion after one item for each cube and each of its literals, a choice of primes when the rows or
the primes run out. A budget of as many items is never used up.
-/

namespace TwoLevel

variable {scoring : Scoring} {onset offset remainder : Rows} {stage : Stage} {bound : Nat}
  {added : List Literal} {c grown : Cube} {failure : Failure} {source now next : Source}

/-! ## Growing a cube -/

namespace Grows

theorem length_le (grows : Grows scoring remainder offset .universal source added grown next) :
    added.length ≤ offset.arity + 1 := by
  have size := grows.size_eq
  have bound := grows.size_le (Nat.zero_le _)
  omega

/-- No row has a literal beyond the variables of the table, so none is taken on after it. -/
theorem last_of_beyond (grows : Grows scoring remainder offset c source added grown next) :
    ∀ earlier l later, added = earlier ++ l :: later → offset.arity ≤ l.var → later = [] := by
  induction grows with
  | rest => simp
  | @add c grown source after next first others meets chosen more ih =>
      intro earlier l later split beyond
      cases earlier with
      | cons other earlier => exact ih earlier l later (List.cons.inj split).2 beyond
      | nil =>
          obtain ⟨rfl, rfl⟩ := List.cons.inj split
          by_contra further
          obtain ⟨m, row, inside⟩ := Rows.meets_iff.1 (more.meets_of_ne_nil further)
          have free := Scoring.fixes_of_selectBest_freeGrowth chosen
          have within := Rows.var_lt_of_admits ⟨m, row, inside⟩ first
            ((Cube.mem_insert_of_free free).2 (.inl rfl))
          omega

end Grows

/-- How an implicant is grown: literal by literal until it avoids the offset or no literal is
offered, and at most by one literal more than the offset has variables, since none follows a literal
on a variable beyond them. -/
structure BoundedGrowth (scoring : Scoring) (remainder offset : Rows) (start : Source) : Prop where
  ends : ∃ added grown now, Grows scoring remainder offset .universal start added grown now ∧
    (offset.meets grown = false ∧
        grow scoring remainder offset start = (.ok grown, now) ∨
      offset.meets grown = true ∧
        ∃ next, selectBest (scoring.freeGrowth grown remainder) now = (none, next) ∧
          grow scoring remainder offset start = (.error (.noCandidates .search grown), next))
  size_eq : ∀ added grown now, Grows scoring remainder offset .universal start added grown now →
    grown.size = added.length
  length_le : ∀ added grown now, Grows scoring remainder offset .universal start added grown now →
    added.length ≤ offset.arity + 1
  last : ∀ earlier l later grown now,
    Grows scoring remainder offset .universal start (earlier ++ l :: later) grown now →
      offset.arity ≤ l.var → later = []

theorem grow_bounded (scoring : Scoring) (remainder offset : Rows) (start : Source) :
    BoundedGrowth scoring remainder offset start where
  ends := growFrom_grows scoring remainder offset .universal start
  size_eq _ _ _ grows := grows.size_eq.trans (Nat.zero_add _)
  length_le _ _ _ grows := grows.length_le
  last earlier l later _ _ grows := grows.last_of_beyond earlier l later rfl

/-! ## Expanding cubes -/

/-- The states of an expansion without a budget: the queue, the primes found, the cubes taken from
the queue, of which each is one work item, and the words left. -/
inductive Expands (scoring : Scoring) (offset : Rows) (implicants : List Cube) (source : Source) :
    List Cube → CubeSet → List Cube → Source → Prop
  | start : Expands scoring offset implicants source implicants ∅ [] source
  | prime {rest taken : List Cube} {primes : CubeSet} {now : Source} {c : Cube}
      (before : Expands scoring offset implicants source (c :: rest) primes taken now)
      (fixed : offset.removable c = []) :
      Expands scoring offset implicants source rest (primes.insert c) (taken ++ [c]) now
  | shed {rest taken : List Cube} {primes : CubeSet} {now after : Source} {c : Cube} {l : Literal}
      (before : Expands scoring offset implicants source (c :: rest) primes taken now)
      (more : offset.removable c ≠ [])
      (chosen : selectBest (scoring.safeRemoval c (offset.removable c) offset) now =
        (some l, after)) :
      Expands scoring offset implicants source (rest ++ [c.erase l]) primes (taken ++ [c]) after

namespace Expands

variable {implicants queue taken : List Cube} {primes : CubeSet} {nodes : Nat}

/-- How an expansion stops in a state: the queue is empty, or the cubes taken have used up the
budget, or nothing is offered for the cube taken last. Its work items are the cubes taken. -/
inductive Stops (scoring : Scoring) (offset : Rows) (budget : Option Nat) :
    List Cube → CubeSet → List Cube → Source → Pass → Prop
  | finished {primes : CubeSet} {taken : List Cube} {now : Source} :
      Stops scoring offset budget [] primes taken now ⟨.ok primes, taken.length, now⟩
  | spent {rest taken : List Cube} {primes : CubeSet} {now : Source} {c : Cube} {limit : Nat}
      (spent : exhausted? budget taken.length = some limit) :
      Stops scoring offset budget (c :: rest) primes taken now
        (.cut .expansion limit primes taken.length now)
  | stuck {rest taken : List Cube} {primes : CubeSet} {now after : Source} {c : Cube}
      (allowed : exhausted? budget taken.length = none) (more : offset.removable c ≠ [])
      (chosen : selectBest (scoring.safeRemoval c (offset.removable c) offset) now =
        (none, after)) :
      Stops scoring offset budget (c :: rest) primes taken now
        ⟨.error (.noCandidates .expansion c), (taken ++ [c]).length, after⟩

theorem stops (expands : Expands scoring offset implicants source queue primes taken now)
    (counted : nodes = taken.length) (budget : Option Nat) :
    ∃ left found all next, Expands scoring offset implicants source left found all next ∧
      Stops scoring offset budget left found all next
        (expandFrom scoring offset budget queue primes nodes now) := by
  fun_induction expandFrom scoring offset budget queue primes nodes now generalizing taken with
  | case1 primes nodes now =>
      rw [counted]
      exact ⟨[], primes, taken, now, expands, .finished⟩
  | case2 primes nodes now c rest limit spent =>
      rw [counted] at spent ⊢
      exact ⟨c :: rest, primes, taken, now, expands, .spent spent⟩
  | case3 primes nodes now c rest allowed candidates none_left =>
      rename_i ih
      exact ih (expands.prime (List.isEmpty_iff.1 none_left)) (by simp [counted])
  | case4 primes nodes now c rest allowed candidates more after =>
      rename_i chosen
      have stopped : Stops scoring offset budget (c :: rest) primes taken now
          ⟨.error (.noCandidates .expansion c), (taken ++ [c]).length, after⟩ :=
        .stuck (counted ▸ allowed) (by simpa using more) chosen
      rw [List.length_append, List.length_singleton, ← counted] at stopped
      exact ⟨c :: rest, primes, taken, now, expands, stopped⟩
  | case5 primes nodes now c rest allowed candidates more l after chosen =>
      rename_i ih
      exact ih (expands.shed (by simpa using more) chosen) (by simp [counted])

theorem length_le (expands : Expands scoring offset implicants source queue primes taken now) :
    taken.length + (queue.map (·.size + 1)).sum ≤ (implicants.map (·.size + 1)).sum := by
  induction expands with
  | start => exact Nat.le_of_eq (Nat.zero_add _)
  | prime before fixed ih =>
      rw [List.map_cons, List.sum_cons] at ih
      rw [List.length_append, List.length_singleton]
      omega
  | @shed rest taken primes now after c l before more chosen ih =>
      have removable := Scoring.mem_of_selectBest_safeRemoval chosen
      have smaller := c.size_erase_of_mem (Rows.mem_removable.1 removable).1
      rw [List.map_cons, List.sum_cons] at ih
      rw [List.length_append, List.length_singleton, List.map_append, List.sum_append,
        List.map_singleton, List.sum_singleton]
      omega

theorem Stops.nodes_le {run : Pass} {left all : List Cube} {found : CubeSet}
    {budget : Option Nat} (stops : Stops scoring offset budget left found all next run) :
    run.nodes ≤ all.length + (left.map (·.size + 1)).sum := by
  cases stops with
  | finished => exact Nat.le_refl _
  | spent spent => exact Nat.le_add_right _ _
  | stuck allowed more chosen =>
      rw [List.map_cons, List.sum_cons, List.length_append, List.length_singleton]
      change all.length + 1 ≤ _
      omega

end Expands

theorem nodes_expand_le (scoring : Scoring) (offset : Rows) (implicants : CubeSet)
    (budget : Option Nat) (source : Source) :
    (expand scoring offset implicants budget source).nodes ≤
      (implicants.cubes.map (·.size + 1)).sum := by
  cases first : implicants.cubes.find? offset.meets with
  | some c =>
      rw [expand_of_meets first]
      exact Nat.zero_le _
  | none =>
      rw [expand_of_avoids first]
      have begun : Expands scoring offset implicants.cubes source implicants.cubes ∅ [] source :=
        .start
      obtain ⟨left, found, all, next, expands, stops⟩ := begun.stops rfl budget
      exact stops.nodes_le.trans expands.length_le

/-! ## Choosing primes -/

theorem nodes_cover_le (onset : Rows) (primes : CubeSet) (source : Source) :
    (cover onset primes none source).nodes ≤ min onset.distinct.length primes.size := by
  cases first : onset.minterms.find? (!primes.admits ·) with
  | some m =>
      rw [cover_of_uncoverable first]
      exact Nat.zero_le _
  | none =>
      have held : ∀ m ∈ onset.minterms, primes.admits m = true := by simpa using first
      have rows : (cover onset primes none source).nodes ≤ onset.distinct.length := by
        have bound := (Grid.incidence onset primes).nodes_chooseFrom_le none
          (Grid.incidence onset primes).rows [] 0 source
        rw [cover_of_coverable first]
        simpa [Grid.incidence, Grid.Choice.pass] using bound
      have picks : (cover onset primes none source).nodes ≤ primes.size := by
        obtain ⟨chosen, next, reached, run⟩ := cover_of_held held source
        obtain ⟨among, size⟩ := cubes_of_choosing reached.choosing
        rw [run]
        exact size ▸ CubeSet.size_le_of_subset among
      exact Nat.le_min.2 ⟨rows, picks⟩

/-! ## Stages -/

/-- What a bound on the work items of a stage means: no run takes up more of them, and a budget of
as many is never used up, so it changes nothing. -/
structure Stage.Bounded (stage : Stage) (run : Option Nat → Pass) (bound : Nat) : Prop where
  nodes_le : ∀ budget, (run budget).nodes ≤ bound
  unspent : ∀ limit, bound ≤ limit → ∀ spent part,
    (run (some limit)).result ≠ .error (.budgetExhausted stage spent part)
  enough : ∀ limit, bound ≤ limit → run (some limit) = run none

theorem Failure.Within.unlimited (within : failure.Within stage none) (spent : Nat)
    (part : CubeSet) : failure ≠ .budgetExhausted stage spent part := by
  rintro rfl
  cases within with
  | budgetExhausted _ _ limited => cases limited

theorem Stage.Limits.bounded {run : Option Nat → Pass} {Partial : Nat → CubeSet → Prop}
    (limits : stage.Limits run Partial) (free : (run none).nodes ≤ bound)
    (unlimited : ∀ failure, (run none).result = .error failure →
      ∀ spent part, failure ≠ .budgetExhausted stage spent part) :
    stage.Bounded run bound where
  nodes_le budget := by
    cases budget with
    | none => exact free
    | some limit =>
        rcases Nat.lt_or_ge limit (run none).nodes with beyond | within
        · obtain ⟨found, next, cut, -⟩ := limits.short limit beyond
          rw [cut]
          exact beyond.le.trans free
        · rw [limits.enough limit within]
          exact free
  unspent limit above spent part stopped := by
    rw [limits.enough limit (free.trans above)] at stopped
    exact unlimited _ stopped spent part rfl
  enough limit above := limits.enough limit (free.trans above)

theorem search_bounded (scoring : Scoring) (onset offset : Rows) (source : Source) :
    Stage.search.Bounded (search scoring onset offset · source) (onset.distinct.length + 1) := by
  apply (search_limits scoring onset offset source).bounded
  · have bound := nodes_searchFrom_le scoring offset none onset ∅ 0 source
    rwa [Nat.zero_add] at bound
  · exact fun failure stopped => (searchFrom_within stopped).unlimited

theorem expand_bounded (scoring : Scoring) (offset : Rows) (implicants : CubeSet)
    (source : Source) :
    Stage.expansion.Bounded (expand scoring offset implicants · source)
      (implicants.cubes.map (·.size + 1)).sum := by
  apply (expand_limits scoring offset implicants source).bounded
  · exact nodes_expand_le scoring offset implicants none source
  · intro failure stopped
    rcases expand_failure stopped with ⟨c, -, rfl⟩ | within
    · simp
    · exact within.unlimited

theorem cover_bounded (onset : Rows) (primes : CubeSet) (source : Source) :
    Stage.covering.Bounded (cover onset primes · source)
      (min onset.distinct.length primes.size) := by
  apply (cover_limits onset primes source).bounded
  · exact nodes_cover_le onset primes source
  · intro failure stopped
    rcases cover_failure stopped with ⟨m, -, rfl⟩ | within
    · simp
    · exact within.unlimited

/-- The growth of an implicant and each stage end within bounds that their input gives, whatever
literals are offered. -/
theorem stages_bounded (scoring : Scoring) (onset offset : Rows) (implicants primes : CubeSet)
    (source : Source) :
    (∀ remainder start, BoundedGrowth scoring remainder offset start) ∧
    Stage.search.Bounded (search scoring onset offset · source) (onset.distinct.length + 1) ∧
    Stage.expansion.Bounded (expand scoring offset implicants · source)
      (implicants.cubes.map (·.size + 1)).sum ∧
    Stage.covering.Bounded (cover onset primes · source)
      (min onset.distinct.length primes.size) :=
  ⟨fun remainder start => grow_bounded scoring remainder offset start,
    search_bounded scoring onset offset source, expand_bounded scoring offset implicants source,
    cover_bounded onset primes source⟩

/-- Offers a variable that no small table has. -/
def stray : Scoring := ⟨"stray", fun _ _ => [(.normal 9, .ofNat 0)], fun _ _ _ => []⟩

/-- Over no variables at all a stray literal is still taken on, and it is the only one; a search of
parity with stray literals is through before a budget of three is used up. -/
theorem stages_bounded_stray :
    (∃ l next, Grows stray (.empty 0) ⟨0, [.universal], by decide⟩ .universal (.ofSeed 0) [l]
        (Cube.insert .universal l) next ∧ [l].length = 0 + 1 ∧
      ∀ added grown now, Grows stray (.empty 0) ⟨0, [.universal], by decide⟩ .universal (.ofSeed 0)
        added grown now → added.length ≤ [l].length) ∧
    search stray oddParity evenParity (some 3) (.ofSeed 0) =
      search stray oddParity evenParity none (.ofSeed 0) := by
  constructor
  · have finite : ∀ entry ∈ stray.freeGrowth .universal (.empty 0), entry.2.isFinite = true := by
      decide
    obtain ⟨l, next, chosen, -⟩ := selectBest_of_finite (by decide) finite (.ofSeed 0)
    have growth := (stages_bounded stray (.empty 0) ⟨0, [.universal], by decide⟩ ∅ ∅
      (.ofSeed 0)).1 (.empty 0) (.ofSeed 0)
    exact ⟨l, next, .add rfl chosen .rest, rfl, growth.length_le⟩
  · have rows : oddParity.distinct.length = 2 := by
      rw [Rows.distinct_eq]
      decide
    exact (stages_bounded stray oddParity evenParity ∅ ∅ (.ofSeed 0)).2.1.enough 3
      (by rw [rows])

end TwoLevel
