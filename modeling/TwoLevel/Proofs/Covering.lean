import TwoLevel.Cover
import TwoLevel.Proofs.Rows
import TwoLevel.Proofs.Selection
import Mathlib.Data.List.Flatten

/-!
Correctness of covering. A grid is made exactly if each row of the onset lies in a prime; then a
prime can be picked as long as rows are uncovered, so the choice ends with all rows covered.
Dropping redundant primes keeps the rows covered, and a prime found necessary stays so when others
go later.
-/

namespace TwoLevel

variable {onset : Rows} {primes set : CubeSet} {budget : Option Nat} {source next : Source}
  {c m : Cube}

/-- What a cover is: some of the primes that hold all rows, none of which can be left out. -/
structure Covering (onset : Rows) (primes set : CubeSet) : Prop where
  chosen : set ⊆ primes
  complete : ∀ m ∈ onset.minterms, set.admits m = true
  needed : ∀ c ∈ set, ∃ m ∈ onset.minterms, (set.erase c).admits m = false

namespace Grid

variable {grid : Grid} {uncovered : List (List Nat)}
  {row chosen kept others places order : List Nat}
  {place nodes limit : Nat}

theorem mem_holders {cubes : List Cube} :
    place ∈ holders cubes m ↔ ∃ c, cubes[place]? = some c ∧ c.admits m = true := by
  simp only [holders, List.mem_map, List.mem_filter, List.mem_zipIdx_iff_getElem?]
  constructor
  · intro listed
    obtain ⟨⟨c, _⟩, ⟨located, inside⟩, rfl⟩ := listed
    exact ⟨c, located, inside⟩
  · intro held
    obtain ⟨c, located, inside⟩ := held
    exact ⟨(c, place), ⟨located, inside⟩, rfl⟩

theorem holders_eq_nil : holders primes.cubes m = [] ↔ primes.admits m = false := by
  rw [List.eq_nil_iff_forall_not_mem, Bool.eq_false_iff, ne_eq, CubeSet.admits_iff]
  constructor
  · intro none held
    obtain ⟨c, member, inside⟩ := held
    obtain ⟨place, located⟩ := List.mem_iff_getElem?.1 member
    exact none place (mem_holders.2 ⟨c, located, inside⟩)
  · intro none place member
    obtain ⟨c, located, inside⟩ := mem_holders.1 member
    exact none ⟨c, List.mem_of_getElem? located, inside⟩

theorem rowOf_eq : rowOf primes.cubes m =
    if primes.admits m then .ok (holders primes.cubes m) else .error (.uncoverableMinterm m) := by
  unfold rowOf
  cases inside : primes.admits m with
  | false => simp [holders_eq_nil.2 inside]
  | true =>
      have held : holders primes.cubes m ≠ [] := fun none => by
        simp [holders_eq_nil.1 none] at inside
      cases row : holders primes.cubes m with
      | nil => exact absurd row held
      | cons place rest => rfl

theorem mapM_rowOf (cubes : List Cube) : cubes.mapM (rowOf primes.cubes) =
    match cubes.find? (!primes.admits ·) with
    | some m => .error (.uncoverableMinterm m)
    | none => .ok (cubes.map (holders primes.cubes)) := by
  induction cubes with
  | nil => rfl
  | cons m rest ih =>
      rw [List.mapM_cons, ih, rowOf_eq, List.find?_cons, List.map_cons]
      cases primes.admits m with
      | false => rfl
      | true => cases rest.find? (!primes.admits ·) <;> rfl

def incidence (onset : Rows) (primes : CubeSet) : Grid :=
  ⟨primes.cubes.toArray, onset.distinct.map (holders primes.cubes)⟩

theorem ofRows_eq (onset : Rows) (primes : CubeSet) : ofRows onset primes =
    match onset.minterms.find? (!primes.admits ·) with
    | some m => .error (.uncoverableMinterm m)
    | none => .ok (incidence onset primes) := by
  have first : onset.distinct.find? (!primes.admits ·) =
      onset.minterms.find? (!primes.admits ·) := by
    rw [Rows.distinct_eq, find?_eraseDups]
  unfold ofRows
  rw [mapM_rowOf, first]
  cases onset.minterms.find? (!primes.admits ·) <;> rfl

theorem ofRows_eq_ok : ofRows onset primes = .ok grid ↔
    (∀ m ∈ onset.minterms, primes.admits m = true) ∧ grid = incidence onset primes := by
  have all : onset.minterms.find? (!primes.admits ·) = none ↔
      ∀ m ∈ onset.minterms, primes.admits m = true := by
    simp
  rw [ofRows_eq, ← all]
  cases onset.minterms.find? (!primes.admits ·) <;> simp [eq_comm]

theorem mem_rows_incidence :
    row ∈ (incidence onset primes).rows ↔ ∃ m ∈ onset.minterms, holders primes.cubes m = row := by
  simp [incidence]

structure WellFormed (grid : Grid) : Prop where
  held : ∀ row ∈ grid.rows, row ≠ []
  bounded : ∀ row ∈ grid.rows, ∀ place ∈ row, place < grid.primes.size

theorem wellFormed_incidence (all : ∀ m ∈ onset.minterms, primes.admits m = true) :
    (incidence onset primes).WellFormed where
  held row member none := by
    obtain ⟨m, inside, same⟩ := mem_rows_incidence.1 member
    simpa [all m inside] using holders_eq_nil.1 (same.trans none)
  bounded row member place lists := by
    obtain ⟨m, -, rfl⟩ := mem_rows_incidence.1 member
    obtain ⟨c, located, -⟩ := mem_holders.1 lists
    simpa [incidence] using (List.getElem?_eq_some_iff.1 located).1

theorem mem_cubes_incidence : c ∈ (incidence onset primes).cubes places ↔
    ∃ place ∈ places, primes.cubes[place]? = some c := by
  simp [cubes, incidence]

theorem cubes_incidence_admits : ((incidence onset primes).cubes places).admits m = true ↔
    ∃ place ∈ places, place ∈ holders primes.cubes m := by
  simp only [CubeSet.admits_iff, mem_cubes_incidence, mem_holders]
  constructor
  · intro held
    obtain ⟨c, ⟨place, among, located⟩, inside⟩ := held
    exact ⟨place, among, c, located, inside⟩
  · intro listed
    obtain ⟨place, among, c, located, inside⟩ := listed
    exact ⟨c, ⟨place, among, located⟩, inside⟩

/-! ## The choice of primes -/

theorem held_pos : 0 < (grid.held uncovered).getD place 0 ↔
    place < grid.primes.size ∧ ∃ row ∈ uncovered, place ∈ row := by
  simp only [held, getD_tally]
  split
  · rename_i inside
    rw [List.countP_pos_iff]
    simp [inside]
  · rename_i outside
    simp [outside]

theorem alone_le_held (grid : Grid) (uncovered : List (List Nat)) (place : Nat) :
    (grid.alone uncovered).getD place 0 ≤ (grid.held uncovered).getD place 0 := by
  simp only [alone, held, getD_tally]
  split
  · exact List.filter_sublist.flatten.countP_le
  · exact Nat.le_refl 0

def most (grid : Grid) (uncovered : List (List Nat)) : Nat := (grid.alone uncovered).foldl max 0

theorem alone_le_most (grid : Grid) (uncovered : List (List Nat)) (place : Nat) :
    (grid.alone uncovered).getD place 0 ≤ grid.most uncovered := by
  rw [most, ← Array.foldl_toList, List.foldl_max, Array.getD_eq_getD_getElem?]
  cases located : (grid.alone uncovered)[place]? with
  | none => exact Nat.zero_le _
  | some count =>
      have member : count ∈ (grid.alone uncovered).toList :=
        Array.mem_toList_iff.2 (Array.mem_of_getElem? located)
      cases greatest : (grid.alone uncovered).toList.max? with
      | none => simp [List.max?_eq_none_iff.1 greatest] at member
      | some top =>
          have := (List.max?_eq_some_iff.1 greatest).2 count member
          simp
          omega

theorem most_attained (positive : 0 < grid.most uncovered) :
    ∃ place, (grid.alone uncovered).getD place 0 = grid.most uncovered := by
  rw [most, ← Array.foldl_toList, List.foldl_max] at positive ⊢
  cases greatest : (grid.alone uncovered).toList.max? with
  | none => simp [greatest] at positive
  | some top =>
      have member := (List.max?_eq_some_iff.1 greatest).1
      obtain ⟨place, located⟩ := List.mem_iff_getElem?.1 member
      refine ⟨place, ?_⟩
      rw [Array.getElem?_toList] at located
      simp [Array.getD_eq_getD_getElem?, located]

theorem mem_scored {score : Nat} : (place, score) ∈ grid.scored uncovered ↔
    (grid.alone uncovered).getD place 0 = grid.most uncovered ∧
      0 < (grid.held uncovered).getD place 0 ∧ score = (grid.held uncovered).getD place 0 := by
  simp only [scored, List.mem_map, List.mem_filter, List.mem_range, Bool.and_eq_true,
    decide_eq_true_eq, most]
  constructor
  · intro best
    obtain ⟨_, ⟨-, alone, held⟩, same⟩ := best
    cases same
    exact ⟨alone, held, rfl⟩
  · intro best
    obtain ⟨alone, held, rfl⟩ := best
    exact ⟨place, ⟨(held_pos.1 held).1, alone, held⟩, rfl⟩

theorem scored_ne_nil (member : row ∈ uncovered) (inside : place ∈ row)
    (bounded : place < grid.primes.size) : grid.scored uncovered ≠ [] := by
  suffices best : ∃ entry, entry ∈ grid.scored uncovered by
    obtain ⟨entry, scored⟩ := best
    exact List.ne_nil_of_mem scored
  rcases Nat.eq_zero_or_pos (grid.most uncovered) with zero | positive
  -- no prime holds a row alone: any prime that holds an uncovered row will do
  · have least := alone_le_most grid uncovered place
    exact ⟨(place, _), mem_scored.2
      ⟨by omega, held_pos.2 ⟨bounded, row, member, inside⟩, rfl⟩⟩
  · obtain ⟨best, attained⟩ := most_attained positive
    have held := alone_le_held grid uncovered best
    exact ⟨(best, _), mem_scored.2 ⟨attained, by omega, rfl⟩⟩

theorem pick_eq_none : (grid.pick uncovered source).1 = none ↔ grid.scored uncovered = [] := by
  unfold pick
  rw [Source.choose?_eq_none, leaders_eq_nil Nat.lt_irrefl]

theorem lt_size_of_pick (picked : grid.pick uncovered source = (some place, next)) :
    place < grid.primes.size := by
  obtain ⟨score, member⟩ := mem_of_mem_leaders (Source.mem_of_choose? picked)
  exact (held_pos.1 (mem_scored.1 member).2.1).1

/-- Where a choice stands: the places chosen, and the rows that are still uncovered. -/
structure Choosing (grid : Grid) (uncovered : List (List Nat)) (chosen : List Nat) : Prop where
  remaining : ∀ row ∈ uncovered, row ∈ grid.rows
  covered : ∀ row ∈ grid.rows, row ∈ uncovered ∨ ∃ place ∈ chosen, place ∈ row
  fresh : ∀ row ∈ uncovered, ∀ place ∈ chosen, place ∉ row
  bounded : ∀ place ∈ chosen, place < grid.primes.size
  distinct : chosen.Nodup

namespace Choosing

theorem start (grid : Grid) : grid.Choosing grid.rows [] where
  remaining _ member := member
  covered _ member := .inl member
  fresh := by simp
  bounded := by simp
  distinct := .nil

theorem advance (choosing : grid.Choosing uncovered chosen)
    (picked : grid.pick uncovered source = (some place, next)) :
    grid.Choosing (beyond place uncovered) (chosen ++ [place]) where
  remaining row member := choosing.remaining row (List.mem_filter.1 member).1
  covered row member := by
    rcases choosing.covered row member with left | ⟨other, earlier, inside⟩
    · by_cases holds : place ∈ row
      · exact .inr ⟨place, by simp, holds⟩
      · exact .inl (List.mem_filter.2 ⟨left, by simp [holds]⟩)
    · exact .inr ⟨other, List.mem_append_left _ earlier, inside⟩
  fresh row member other among := by
    obtain ⟨left, misses⟩ := List.mem_filter.1 member
    rcases List.mem_append.1 among with earlier | last
    · exact choosing.fresh row left other earlier
    · rw [List.mem_singleton.1 last]
      simpa using misses
  bounded other among := by
    rcases List.mem_append.1 among with earlier | last
    · exact choosing.bounded other earlier
    · rw [List.mem_singleton.1 last]
      exact lt_size_of_pick picked
  distinct := by
    obtain ⟨row, member, holds⟩ := held_pos_of_pick picked
    rw [List.nodup_append]
    refine ⟨choosing.distinct, List.nodup_singleton place, fun other earlier last new same => ?_⟩
    have repeated : place ∈ chosen := List.mem_singleton.1 new ▸ same ▸ earlier
    exact choosing.fresh row member place repeated (List.contains_iff_mem.1 holds)

end Choosing

theorem pick_ne_none (wellFormed : grid.WellFormed) (choosing : grid.Choosing uncovered chosen)
    (more : uncovered ≠ []) (source : Source) : (grid.pick uncovered source).1 ≠ none := by
  rw [ne_eq, pick_eq_none]
  obtain ⟨row, member⟩ := List.exists_mem_of_ne_nil uncovered more
  have inside := choosing.remaining row member
  obtain ⟨place, lists⟩ := List.exists_mem_of_ne_nil row (wellFormed.held row inside)
  exact scored_ne_nil member lists (wellFormed.bounded row inside place lists)

theorem chooseFrom_ok (wellFormed : grid.WellFormed) {result : List Nat}
    (run : (grid.chooseFrom budget uncovered chosen nodes source).result = .ok result)
    (choosing : grid.Choosing uncovered chosen) : grid.Choosing [] result := by
  fun_induction chooseFrom grid budget uncovered chosen nodes source with
  | case1 uncovered chosen nodes source done =>
      cases run
      rwa [List.isEmpty_iff.1 done] at choosing
  | case2 => simp at run
  | case3 uncovered chosen nodes source more unlimited after picked =>
      have some_pick := pick_ne_none wellFormed choosing (by simpa using more) source
      simp [picked] at some_pick
  | case4 uncovered chosen nodes source more unlimited place after picked ih =>
      exact ih run (choosing.advance picked)

theorem chooseFrom_nil (grid : Grid) (budget : Option Nat) (chosen : List Nat) (nodes : Nat)
    (source : Source) :
    grid.chooseFrom budget [] chosen nodes source = ⟨.ok chosen, nodes, source⟩ := by
  rw [chooseFrom]
  simp

theorem chooseFrom_of_exhausted (more : uncovered ≠ [])
    (spent : exhausted? budget nodes = some limit) :
    grid.chooseFrom budget uncovered chosen nodes source =
      ⟨.error (.budgetExhausted .covering limit (grid.cubes chosen)), nodes, source⟩ := by
  rw [chooseFrom, spent]
  simp [more]

theorem chooseFrom_of_none (more : uncovered ≠ []) (allowed : exhausted? budget nodes = none)
    (picked : grid.pick uncovered source = (none, next)) :
    grid.chooseFrom budget uncovered chosen nodes source = ⟨.ok chosen, nodes + 1, next⟩ := by
  rw [chooseFrom, allowed]
  simp only [List.isEmpty_iff, more, if_false]
  split
  · rename_i after same
    rw [picked] at same
    cases same
    rfl
  · rename_i after same
    rw [picked] at same
    cases same

theorem chooseFrom_of_some (more : uncovered ≠ []) (allowed : exhausted? budget nodes = none)
    (picked : grid.pick uncovered source = (some place, next)) :
    grid.chooseFrom budget uncovered chosen nodes source =
      grid.chooseFrom budget (beyond place uncovered) (chosen ++ [place]) (nodes + 1) next := by
  rw [chooseFrom, allowed]
  simp only [List.isEmpty_iff, more, if_false]
  split
  · rename_i after same
    rw [picked] at same
    cases same
  · rename_i after same
    rw [picked] at same
    cases same
    rfl

/-! ## Redundant primes -/

theorem redundant_iff : grid.redundant others place = true ↔
    ∀ row ∈ grid.rows, place ∈ row → ∃ other ∈ others, other ∈ row := by
  simp only [redundant, List.all_eq_true, Bool.or_eq_true, Bool.not_eq_true', List.any_eq_true,
    List.contains_eq_mem, decide_eq_true_eq, decide_eq_false_iff_not]
  refine forall₂_congr fun row _ => ?_
  constructor
  · intro either holds
    obtain ⟨other, inside, among⟩ := either.resolve_left (not_not_intro holds)
    exact ⟨other, among, inside⟩
  · intro shared
    by_cases holds : place ∈ row
    · obtain ⟨other, among, inside⟩ := shared holds
      exact .inr ⟨other, inside, among⟩
    · exact .inl holds

theorem redundant_mono (fewer : ∀ other ∈ others, other ∈ kept)
    (redundant : grid.redundant others place = true) : grid.redundant kept place = true := by
  rw [redundant_iff] at redundant ⊢
  intro row member holds
  obtain ⟨other, among, inside⟩ := redundant row member holds
  exact ⟨other, fewer other among, inside⟩

def prune (grid : Grid) (kept : List Nat) (place : Nat) : List Nat :=
  if grid.redundant (kept.filter (· ≠ place)) place then kept.filter (· ≠ place) else kept

theorem irredundant_eq (grid : Grid) (chosen : List Nat) :
    grid.irredundant chosen = chosen.reverse.foldl grid.prune chosen := rfl

theorem mem_of_mem_prune {other : Nat} (member : other ∈ grid.prune kept place) : other ∈ kept := by
  unfold prune at member
  split at member
  · exact (List.mem_filter.1 member).1
  · exact member

theorem mem_of_mem_foldl_prune {other : Nat} (member : other ∈ order.foldl grid.prune kept) :
    other ∈ kept := by
  induction order generalizing kept with
  | nil => exact member
  | cons place rest ih => exact mem_of_mem_prune (ih member)

theorem prune_covers (covers : ∀ row ∈ grid.rows, ∃ other ∈ kept, other ∈ row) :
    ∀ row ∈ grid.rows, ∃ other ∈ grid.prune kept place, other ∈ row := by
  intro row member
  unfold prune
  split
  · rename_i redundant
    obtain ⟨other, among, inside⟩ := covers row member
    by_cases same : other = place
    · exact redundant_iff.1 redundant row member (same ▸ inside)
    · exact ⟨other, List.mem_filter.2 ⟨among, by simpa using same⟩, inside⟩
  · exact covers row member

theorem foldl_prune_covers (covers : ∀ row ∈ grid.rows, ∃ other ∈ kept, other ∈ row) :
    ∀ row ∈ grid.rows, ∃ other ∈ order.foldl grid.prune kept, other ∈ row := by
  induction order generalizing kept with
  | nil => exact covers
  | cons place rest ih => exact ih (prune_covers covers)

theorem foldl_prune_necessary (grid : Grid) (order kept : List Nat) :
    ∀ place ∈ order, place ∈ order.foldl grid.prune kept →
      grid.redundant ((order.foldl grid.prune kept).filter (· ≠ place)) place = false := by
  induction order generalizing kept with
  | nil => simp
  | cons first rest ih =>
      intro place member stays
      rw [List.foldl_cons] at stays ⊢
      rcases List.mem_cons.1 member with rfl | later
      -- It was necessary when it was looked at, and places only go later.
      · have now : place ∈ grid.prune kept place := mem_of_mem_foldl_prune stays
        have necessary : grid.redundant (kept.filter (· ≠ place)) place = false := by
          by_contra redundant
          rw [prune, if_pos (by simpa using redundant)] at now
          simpa using (List.mem_filter.1 now).2
        rw [Bool.eq_false_iff] at necessary ⊢
        refine fun redundant => necessary (redundant_mono (fun other among => ?_) redundant)
        obtain ⟨inside, different⟩ := List.mem_filter.1 among
        exact List.mem_filter.2 ⟨mem_of_mem_prune (mem_of_mem_foldl_prune inside), different⟩
      · exact ih (grid.prune kept first) place later stays

theorem mem_of_mem_irredundant (member : place ∈ grid.irredundant chosen) : place ∈ chosen :=
  mem_of_mem_foldl_prune member

theorem irredundant_covers (choosing : grid.Choosing [] chosen) :
    ∀ row ∈ grid.rows, ∃ place ∈ grid.irredundant chosen, place ∈ row :=
  foldl_prune_covers fun row member => (choosing.covered row member).resolve_left (by simp)

theorem irredundant_necessary (member : place ∈ grid.irredundant chosen) :
    ∃ row ∈ grid.rows, place ∈ row ∧
      ∀ other ∈ grid.irredundant chosen, other ∈ row → other = place := by
  have necessary := foldl_prune_necessary grid chosen.reverse chosen place
    (List.mem_reverse.2 (mem_of_mem_irredundant member)) member
  rw [← irredundant_eq, Bool.eq_false_iff, ne_eq, redundant_iff] at necessary
  push Not at necessary
  obtain ⟨row, inside, holds, others⟩ := necessary
  refine ⟨row, inside, holds, fun other among lists => ?_⟩
  by_contra different
  exact others other (List.mem_filter.2 ⟨among, by simpa using different⟩) lists

end Grid

theorem covering_irredundant {chosen : List Nat}
    (choosing : (Grid.incidence onset primes).Choosing [] chosen) :
    Covering onset primes
      ((Grid.incidence onset primes).cubes ((Grid.incidence onset primes).irredundant chosen)) where
  chosen c member := by
    obtain ⟨place, -, located⟩ := Grid.mem_cubes_incidence.1 member
    exact List.mem_of_getElem? located
  complete m member := by
    rw [Grid.cubes_incidence_admits]
    exact Grid.irredundant_covers choosing _ (Grid.mem_rows_incidence.2 ⟨m, member, rfl⟩)
  needed c member := by
    obtain ⟨place, kept, located⟩ := Grid.mem_cubes_incidence.1 member
    obtain ⟨row, listed, -, only⟩ := Grid.irredundant_necessary kept
    obtain ⟨m, inside, rfl⟩ := Grid.mem_rows_incidence.1 listed
    refine ⟨m, inside, ?_⟩
    rw [Bool.eq_false_iff, ne_eq, CubeSet.admits_iff]
    intro held
    obtain ⟨d, other, holds⟩ := held
    obtain ⟨among, different⟩ := CubeSet.mem_erase.1 other
    obtain ⟨place', kept', located'⟩ := Grid.mem_cubes_incidence.1 among
    have same := only place' kept' (Grid.mem_holders.2 ⟨d, located', holds⟩)
    rw [same, located] at located'
    exact different (Option.some.inj located').symm

theorem cover_ok (run : (cover onset primes budget source).result = .ok set) :
    Covering onset primes set := by
  unfold cover at run
  cases built : Grid.ofRows onset primes with
  | error failure => simp [built] at run
  | ok grid =>
      obtain ⟨all, rfl⟩ := Grid.ofRows_eq_ok.1 built
      simp only [built] at run
      cases choice : ((Grid.incidence onset primes).chooseFrom budget
          (Grid.incidence onset primes).rows [] 0 source).result with
      | error failure => simp [choice, Except.map] at run
      | ok chosen =>
          rw [choice] at run
          cases run
          exact covering_irredundant
            (Grid.chooseFrom_ok (Grid.wellFormed_incidence all) choice (.start _))

end TwoLevel
