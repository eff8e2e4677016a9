import TwoLevel.Proofs.Failures
import TwoLevel.Proofs.Frequency
import TwoLevel.Proofs.Workers

/-!
Scorings that offer every counted literal, with finite scores, never run out of candidates. A search
then fails only at a minterm that the onset and the offset share, an expansion does not fail, and a
covering fails only for a row that lies in no prime.
-/

namespace TwoLevel

variable {scoring : Scoring} {onset offset remainder : Rows} {budget : Option Nat}
  {implicants primes found : CubeSet} {queue : List Cube} {nodes bound : Nat} {c m : Cube}
  {l : Literal} {source next : Source}

/-- For tables no larger than the onset, exactly the counted literals are scored for growth and all
removable ones for removal, each finitely. -/
structure Scoring.Offers (scoring : Scoring) (onset : Rows) : Prop where
  growth : ∀ (c : Cube) (remainder : Rows), remainder.size ≤ onset.size →
    (scoring.growth c remainder).map (·.1) = (counts c remainder).map (·.1)
  growthFinite : ∀ (c : Cube) (remainder : Rows), remainder.size ≤ onset.size →
    ∀ entry ∈ scoring.growth c remainder, entry.2.isFinite = true
  removal : ∀ (c : Cube) (candidates : List Literal) (offset : Rows), c.size ≤ onset.arity →
    (scoring.removal c candidates offset).map (·.1) = candidates
  removalFinite : ∀ (c : Cube) (candidates : List Literal) (offset : Rows), c.size ≤ onset.arity →
    ∀ entry ∈ scoring.removal c candidates offset, entry.2.isFinite = true

/-- For cubes of at most `bound` literals exactly the removable ones are scored, each finitely. -/
structure Scoring.OffersRemovals (scoring : Scoring) (bound : Nat) : Prop where
  removal : ∀ (c : Cube) (candidates : List Literal) (offset : Rows), c.size ≤ bound →
    (scoring.removal c candidates offset).map (·.1) = candidates
  finite : ∀ (c : Cube) (candidates : List Literal) (offset : Rows), c.size ≤ bound →
    ∀ entry ∈ scoring.removal c candidates offset, entry.2.isFinite = true

theorem Cube.size_erase_le (c : Cube) (l : Literal) : (c.erase l).size ≤ c.size :=
  List.length_filter_le _ _

theorem Cube.distance_le (c m : Cube) : c.distance m ≤ c.size := by
  rw [distance_eq]
  exact List.countP_le_length

namespace Scoring

theorem Offers.mem_growth (offers : scoring.Offers onset) (smaller : remainder.size ≤ onset.size) :
    (∃ score, (l, score) ∈ scoring.growth c remainder) ↔
      ∃ count, (l, count) ∈ counts c remainder := by
  have same := offers.growth c remainder smaller
  have scored : l ∈ (scoring.growth c remainder).map (·.1) ↔
      ∃ score, (l, score) ∈ scoring.growth c remainder := by simp
  have counted : l ∈ (counts c remainder).map (·.1) ↔
      ∃ count, (l, count) ∈ counts c remainder := by simp
  rw [← scored, ← counted, same]

theorem Offers.freeGrowth_eq (offers : scoring.Offers onset)
    (smaller : remainder.size ≤ onset.size) :
    scoring.freeGrowth c remainder = scoring.growth c remainder := by
  apply List.filter_eq_self.2
  intro entry member
  obtain ⟨count, counted⟩ := (offers.mem_growth smaller).1 ⟨entry.2, member⟩
  rw [(mem_counts.1 counted).1]
  rfl

theorem Offers.growth_ne_nil (offers : scoring.Offers onset) (smaller : remainder.size ≤ onset.size)
    (counted : counts c remainder ≠ []) : scoring.growth c remainder ≠ [] := by
  obtain ⟨⟨l, count⟩, member⟩ := List.exists_mem_of_ne_nil _ counted
  obtain ⟨score, scored⟩ := (offers.mem_growth smaller).2 ⟨count, member⟩
  exact List.ne_nil_of_mem scored

theorem Offers.removals (offers : scoring.Offers onset) : scoring.OffersRemovals onset.arity where
  removal := offers.removal
  finite := offers.removalFinite

theorem OffersRemovals.safeRemoval_ne_nil (offers : scoring.OffersRemovals bound)
    (small : c.size ≤ bound) {candidates : List Literal} (more : candidates ≠ []) (offset : Rows) :
    scoring.safeRemoval c candidates offset ≠ [] := by
  obtain ⟨l, member⟩ := List.exists_mem_of_ne_nil candidates more
  have offered : l ∈ (scoring.removal c candidates offset).map (·.1) :=
    (offers.removal c candidates offset small).symm ▸ member
  obtain ⟨entry, scored, rfl⟩ := List.mem_map.1 offered
  exact List.ne_nil_of_mem (List.mem_filter.2 ⟨scored, by simpa using member⟩)

theorem distanceRemoval_eq (c : Cube) (candidates : List Literal) (offset : Rows) :
    distanceRemoval c candidates offset =
      candidates.map fun l => (l, .ofNat (distanceWithout c offset l)) := by
  rw [distanceRemoval, distancesWithout_eq, List.zipWith_map_right, List.zipWith_self]

theorem distanceWithout_le (c : Cube) (offset : Rows) (l : Literal) :
    distanceWithout c offset l ≤ c.size := by
  have smaller := c.size_erase_le l
  simp only [distanceWithout]
  cases least : offset.leastDistance? (c.erase l) with
  | none => exact smaller
  | some near =>
      obtain ⟨⟨m, -, rfl⟩, -⟩ := Rows.leastDistance?_eq_some.1 least
      exact ((c.erase l).distance_le m).trans smaller

/-- Distances do not exceed the size of a cube, so they are finite scores if such numbers are. -/
theorem offersRemovals_of_default (default : scoring.removal = distanceRemoval)
    (finite : ∀ count ≤ bound, (Float.ofNat count).isFinite = true) :
    scoring.OffersRemovals bound := by
  constructor
  · intro c candidates offset _
    rw [default, distanceRemoval_eq, List.map_map]
    exact List.map_id candidates
  · intro c candidates offset small entry member
    rw [default, distanceRemoval_eq] at member
    obtain ⟨l, -, rfl⟩ := List.mem_map.1 member
    exact finite _ ((distanceWithout_le c offset l).trans small)

/-- Both default rules offer all counted and all removable literals. No count and no distance
exceeds the rows and the variables of the onset, so their scores are finite if such numbers are. -/
theorem offers_of_default (default : scoring = frequency ∨ scoring = distance)
    (finite : ∀ count ≤ max onset.size onset.arity, (Float.ofNat count).isFinite = true) :
    scoring.Offers onset := by
  have growth : scoring.growth = frequencyGrowth := by
    rcases default with rfl | rfl <;> rfl
  have removal : scoring.removal = distanceRemoval := by
    rcases default with rfl | rfl <;> rfl
  have removals : scoring.OffersRemovals onset.arity :=
    offersRemovals_of_default removal fun count small =>
      finite count (small.trans (Nat.le_max_right ..))
  constructor
  · intro c remainder _
    rw [growth, frequencyGrowth, List.map_map]
    rfl
  · intro c remainder smaller entry member
    rw [growth] at member
    obtain ⟨⟨l, count⟩, counted, rfl⟩ := List.mem_map.1 member
    obtain ⟨-, -, rfl⟩ := mem_counts.1 counted
    exact finite _ (((frequencyOf_le c remainder l).trans smaller).trans (Nat.le_max_left ..))
  · exact removals.removal
  · exact removals.finite

end Scoring

/-- The search stopped at a minterm that is a row of both tables. -/
def Failure.Blames (failure : Failure) (onset offset : Rows) : Prop :=
  ∃ m ∈ onset.minterms, m ∈ offset.minterms ∧ failure = .noCandidates .search m

theorem mem_offset_of_counts_eq_nil (same : remainder.arity = offset.arity)
    (row : m ∈ remainder.minterms) (holds : c.admits m = true) (meets : offset.meets c = true)
    (none : Scoring.counts c remainder = []) : c = m ∧ m ∈ offset.minterms := by
  have full : c = m := (Scoring.eq_or_counts_ne_nil row holds).resolve_right (not_not_intro none)
  obtain ⟨other, inside, covers⟩ := Rows.meets_iff.1 meets
  rw [full] at covers
  have shared := Cube.eq_of_admits (same ▸ remainder.complete m row) (offset.complete other inside)
    covers
  exact ⟨full, shared ▸ inside⟩

theorem growFrom_total (offers : scoring.Offers onset) (smaller : remainder.size ≤ onset.size)
    (same : remainder.arity = offset.arity) (holds : ∃ m ∈ remainder.minterms, c.admits m = true) :
    (∃ grown next, growFrom scoring remainder offset c source = (.ok grown, next) ∧
      ∃ m ∈ remainder.minterms, grown.admits m = true) ∨
    ∃ failure next, growFrom scoring remainder offset c source = (.error failure, next) ∧
      failure.Blames remainder offset := by
  -- The cube always holds a row that remains, so literals are counted until it is that row.
  fun_induction growFrom scoring remainder offset c source with
  | case1 c source meets after chosen =>
      obtain ⟨m, row, inside⟩ := holds
      have none : Scoring.counts c remainder = [] := by
        by_contra counted
        obtain ⟨l, next, drawn, -⟩ := selectBest_of_finite (offers.growth_ne_nil smaller counted)
          (offers.growthFinite c remainder smaller) source
        rw [offers.freeGrowth_eq smaller, drawn] at chosen
        cases chosen
      obtain ⟨rfl, shared⟩ := mem_offset_of_counts_eq_nil same row inside meets none
      exact .inr ⟨_, after, rfl, c, row, shared, rfl⟩
  | case2 c source meets l after chosen ih =>
      rw [offers.freeGrowth_eq smaller] at chosen
      obtain ⟨count, counted⟩ := (offers.mem_growth smaller).1 (mem_of_selectBest chosen)
      exact ih (Scoring.insert_admits_of_mem_counts counted)
  | case3 c source avoids => exact .inl ⟨c, source, rfl, holds⟩

theorem grow_total (offers : scoring.Offers onset) (smaller : remainder.size ≤ onset.size)
    (same : remainder.arity = offset.arity) (more : ¬ remainder.isEmpty = true) (source : Source) :
    (∃ grown next, grow scoring remainder offset source = (.ok grown, next) ∧
      ∃ m ∈ remainder.minterms, grown.admits m = true) ∨
    ∃ failure next, grow scoring remainder offset source = (.error failure, next) ∧
      failure.Blames remainder offset := by
  have some_row : remainder.minterms ≠ [] := by simpa [Rows.isEmpty] using more
  obtain ⟨m, row⟩ := List.exists_mem_of_ne_nil remainder.minterms some_row
  exact growFrom_total offers smaller same ⟨m, row, m.universal_admits⟩

theorem searchFrom_total (offers : scoring.Offers onset) (same : onset.arity = offset.arity)
    (unlimited : budget = none) (arity : remainder.arity = onset.arity)
    (sublist : remainder.minterms.Sublist onset.minterms) :
    (∃ set, (searchFrom scoring offset budget remainder found nodes source).result = .ok set) ∨
    ∃ failure, (searchFrom scoring offset budget remainder found nodes source).result =
      .error failure ∧ failure.Blames onset offset := by
  fun_induction searchFrom scoring offset budget remainder found nodes source with
  | case1 remainder found nodes source limit spent =>
      rw [unlimited] at spent
      cases spent
  | case2 remainder found nodes source allowed done => exact .inl ⟨found, rfl⟩
  | case3 remainder found nodes source allowed more failure after stuck =>
      rcases grow_total offers sublist.length_le (arity.trans same) more source with
        ⟨grown, next, run, -⟩ | ⟨blamed, next, run, m, row, shared, rfl⟩
      · rw [run] at stuck
        cases stuck
      · rw [run] at stuck
        cases stuck
        exact .inr ⟨_, rfl, m, sublist.subset row, shared, rfl⟩
  | case4 remainder found nodes source allowed more implicant after grown rest smaller ih =>
      exact ih arity (List.filter_sublist.trans sublist)
  -- The implicant holds a row that remains, so it is never refused.
  | case5 remainder found nodes source allowed more implicant after grown rest stays =>
      rcases grow_total offers sublist.length_le (arity.trans same) more source with
        ⟨other, next, run, m, row, inside⟩ | ⟨failure, next, run, -⟩
      · rw [run] at grown
        cases grown
        exact absurd (filter_size_lt row inside) stays
      · rw [run] at grown
        cases grown

theorem searchSeeds_total (offers : scoring.Offers onset) (same : onset.arity = offset.arity)
    {seeds : List UInt64} {workers : Nat} (shareable : Shareable seeds.length workers) :
    (∃ set, searchSeeds scoring onset offset none seeds workers = .ok set) ∨
    ∃ failure, searchSeeds scoring onset offset none seeds workers = .error failure ∧
      failure.Blames onset offset := by
  rw [searchSeeds_eq shareable]
  rcases outcomes_cases (seeds.map (searchSeed scoring onset offset none)) with
    ⟨sets, all⟩ | ⟨sets, failure, later, first⟩
  · rw [all, foldlM_absorb_ok]
    exact .inl ⟨_, rfl⟩
  · have outcome : Except.error failure ∈ seeds.map (searchSeed scoring onset offset none) := by
      rw [first]
      exact List.mem_append_right _ List.mem_cons_self
    obtain ⟨seed, -, fails⟩ := List.mem_map.1 outcome
    rw [first, foldlM_absorb_error]
    rcases searchFrom_total offers same rfl rfl (List.Sublist.refl onset.minterms) with
      ⟨set, found⟩ | ⟨other, stops, blames⟩
    · cases found.symm.trans fails
    · cases stops.symm.trans fails
      obtain ⟨m, on, off, rfl⟩ := blames
      exact .inr ⟨_, rfl, m, on, off, rfl⟩

theorem expandFrom_total (offers : scoring.OffersRemovals bound) (unlimited : budget = none)
    (small : ∀ c ∈ queue, c.size ≤ bound) :
    ∃ set, (expandFrom scoring offset budget queue primes nodes source).result = .ok set := by
  fun_induction expandFrom scoring offset budget queue primes nodes source with
  | case1 primes nodes source => exact ⟨primes, rfl⟩
  | case2 primes nodes source c rest limit spent =>
      rw [unlimited] at spent
      cases spent
  | case3 primes nodes source c rest allowed candidates none_left ih =>
      exact ih fun d member => small d (List.mem_cons_of_mem c member)
  | case4 primes nodes source c rest allowed candidates more after chosen =>
      have bounded := small c List.mem_cons_self
      have offered := offers.safeRemoval_ne_nil bounded (by simpa using more) offset
      obtain ⟨l, next, drawn, -⟩ := selectBest_of_finite offered (fun entry member =>
        offers.finite c candidates offset bounded entry (List.mem_filter.1 member).1) source
      rw [drawn] at chosen
      cases chosen
  | case5 primes nodes source c rest allowed candidates more l after chosen ih =>
      apply ih
      intro d member
      rcases List.mem_append.1 member with old | new
      · exact small d (List.mem_cons_of_mem c old)
      · rw [List.mem_singleton.1 new]
        exact (c.size_erase_le l).trans (small c List.mem_cons_self)

theorem expand_of_safe (offers : scoring.OffersRemovals bound)
    (small : ∀ c ∈ implicants, c.size ≤ bound) (safe : ∀ c ∈ implicants, offset.meets c = false)
    (source : Source) :
    ∃ set, (expand scoring offset implicants none source).result = .ok set := by
  rw [expand_of_all_avoid safe]
  exact expandFrom_total offers rfl small

theorem expand_total (offers : scoring.Offers onset)
    (found : Implicants onset offset implicants) (source : Source) :
    ∃ set, (expand scoring offset implicants none source).result = .ok set := by
  refine expand_of_safe offers.removals (fun c member => ?_) found.safe source
  exact onset.size_le_of_meets (Rows.meets_iff.2 (found.useful c member))

theorem Grid.chooseFrom_total {grid : Grid} {uncovered : List (List Nat)} {chosen : List Nat}
    (unlimited : budget = none) :
    ∃ places, (grid.chooseFrom budget uncovered chosen nodes source).result = .ok places := by
  fun_induction chooseFrom grid budget uncovered chosen nodes source with
  | case1 uncovered chosen nodes source done => exact ⟨chosen, rfl⟩
  | case2 uncovered chosen nodes source more limit spent =>
      rw [unlimited] at spent
      cases spent
  | case3 uncovered chosen nodes source more allowed after picked => exact ⟨chosen, rfl⟩
  | case4 uncovered chosen nodes source more allowed place after picked ih => exact ih

theorem cover_total (onset : Rows) (primes : CubeSet) (source : Source) :
    match onset.minterms.find? (!primes.admits ·) with
    | some m => cover onset primes none source = ⟨.error (.uncoverableMinterm m), 0, source⟩
    | none => ∃ set, (cover onset primes none source).result = .ok set := by
  cases left : onset.minterms.find? (!primes.admits ·) with
  | some m => exact cover_of_uncoverable left none source
  | none =>
      have choice : ∃ places, ((Grid.incidence onset primes).chooseFrom none
          (Grid.incidence onset primes).rows [] 0 source).result = .ok places :=
        Grid.chooseFrom_total rfl
      obtain ⟨places, chosen⟩ := choice
      refine ⟨(Grid.incidence onset primes).cubes
        ((Grid.incidence onset primes).irredundant places), ?_⟩
      rw [cover_of_coverable left, Grid.Choice.pass, chosen]
      rfl

end TwoLevel
