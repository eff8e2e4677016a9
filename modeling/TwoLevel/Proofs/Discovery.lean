import TwoLevel.Proofs.Budgets
import TwoLevel.Proofs.Outcome

/-!
What one pass of a search finds, for any scoring. The implicants come in turn, each grown for the
rows that those before it leave, and each holds a row that none of those before it holds. So a pass
finds no more implicants than there are different rows, and it takes up one item more than that at
most, whatever literals it is offered.
-/

namespace TwoLevel

variable {scoring : Scoring} {onset offset remainder : Rows} {budget : Option Nat}
  {found earlier later : List Cube} {set known : CubeSet} {nodes : Nat} {c grown m : Cube}
  {failure : Failure} {source next : Source}

/-! ## Sizes -/

theorem Rows.length_distinct_filter_lt (member : m ∈ remainder.minterms)
    (inside : c.admits m = true) :
    (remainder.filter (!c.admits ·)).distinct.length < remainder.distinct.length := by
  have left (k : Cube) : k ∈ (remainder.filter (!c.admits ·)).distinct ↔
      k ∈ remainder.minterms ∧ c.admits k = false := by
    rw [mem_distinct]
    simp [filter]
  have absent : m ∉ (remainder.filter (!c.admits ·)).distinct := by
    intro kept
    have outside := ((left m).1 kept).2
    simp [inside] at outside
  have distinct : (m :: (remainder.filter (!c.admits ·)).distinct).Nodup :=
    List.nodup_cons.2 ⟨absent, nodup_distinct _⟩
  have among : m :: (remainder.filter (!c.admits ·)).distinct ⊆ remainder.distinct := by
    intro k listed
    rcases List.mem_cons.1 listed with rfl | kept
    · exact mem_distinct.2 member
    · exact mem_distinct.2 ((left k).1 kept).1
  exact (List.subperm_of_subset distinct among).length_le

theorem size_growFrom_le (small : c.size ≤ offset.arity + 1)
    (run : growFrom scoring remainder offset c source = (.ok grown, next)) :
    grown.size ≤ offset.arity + 1 := by
  obtain ⟨added, grows, -⟩ := growFrom_ok run
  exact grows.size_le small

theorem growFrom_failure
    (run : growFrom scoring remainder offset c source = (.error failure, next)) :
    ∃ d, failure = .noCandidates .search d ∧ d.size ≤ offset.arity + 1 := by
  obtain ⟨d, rfl, meets⟩ := growFrom_error run
  exact ⟨d, rfl, Nat.le_succ_of_le (offset.size_le_of_meets meets)⟩

theorem searchFrom_failure
    (run : (searchFrom scoring offset none remainder known nodes source).result = .error failure) :
    ∃ d, failure = .noCandidates .search d ∧ d.size ≤ offset.arity + 1 := by
  fun_induction searchFrom scoring offset none remainder known nodes source with
  | case1 remainder known nodes source limit spent => cases spent
  | case2 => cases run
  | case3 remainder known nodes source allowed more failure after stuck =>
      cases run
      exact growFrom_failure stuck
  | case4 remainder known nodes source allowed more c after grown rest smaller ih => exact ih run
  | case5 remainder known nodes source allowed more c after grown rest stays =>
      cases run
      exact ⟨c, rfl, size_growFrom_le (Nat.zero_le _) grown⟩

theorem nodes_searchFrom_le (scoring : Scoring) (offset : Rows) (budget : Option Nat)
    (remainder : Rows) (known : CubeSet) (nodes : Nat) (source : Source) :
    (searchFrom scoring offset budget remainder known nodes source).nodes ≤
      nodes + remainder.distinct.length + 1 := by
  fun_induction searchFrom scoring offset budget remainder known nodes source with
  | case1 remainder known nodes source limit spent =>
      exact Nat.le_add_right_of_le (Nat.le_add_right nodes _)
  | case2 remainder known nodes source allowed done => simp
  | case3 remainder known nodes source allowed more failure after stuck => simp
  | case4 remainder known nodes source allowed more c after grown rest smaller ih =>
      obtain ⟨m, row, inside⟩ := size_filter_lt smaller
      have fewer : rest.distinct.length < remainder.distinct.length :=
        Rows.length_distinct_filter_lt row inside
      omega
  | case5 remainder known nodes source allowed more c after grown rest stays => simp

/-! ## The implicants in turn -/

/-- The implicants that a search finds in turn, each grown for the rows that those before it leave,
until no row is left. -/
inductive Discovers (scoring : Scoring) (offset : Rows) :
    Rows → Source → List Cube → Source → Prop
  | finish {remainder : Rows} {source : Source} (done : remainder.isEmpty = true) :
      Discovers scoring offset remainder source [] source
  | find {remainder : Rows} {source after next : Source} {c : Cube} {later : List Cube}
      (grown : grow scoring remainder offset source = (.ok c, after))
      (smaller : (remainder.filter (!c.admits ·)).size < remainder.size)
      (rest : Discovers scoring offset (remainder.filter (!c.admits ·)) after later next) :
      Discovers scoring offset remainder source (c :: later) next

theorem searchFrom_discovers
    (run : (searchFrom scoring offset budget remainder known nodes source).result = .ok set) :
    ∃ later, Discovers scoring offset remainder source later
        (searchFrom scoring offset budget remainder known nodes source).source ∧
      set = later.foldl CubeSet.insert known := by
  fun_induction searchFrom scoring offset budget remainder known nodes source with
  | case1 => cases run
  | case2 remainder known nodes source allowed done =>
      cases run
      exact ⟨[], .finish done, rfl⟩
  | case3 => cases run
  | case4 remainder known nodes source allowed more c after grown rest smaller ih =>
      obtain ⟨later, discovers, rfl⟩ := ih run
      exact ⟨c :: later, .find grown smaller discovers, rfl⟩
  | case5 => cases run

namespace Discovers

theorem small (discovers : Discovers scoring offset remainder source found next) :
    ∀ c ∈ found, c.size ≤ offset.arity + 1 := by
  induction discovers with
  | finish done => simp
  | find grown smaller rest ih =>
      exact List.forall_mem_cons.2 ⟨size_growFrom_le (Nat.zero_le _) grown, ih⟩

theorem fresh (discovers : Discovers scoring offset remainder source found next)
    (split : found = earlier ++ c :: later) :
    ∃ m ∈ remainder.minterms, c.admits m = true ∧ ∀ d ∈ earlier, d.admits m = false := by
  induction discovers generalizing earlier with
  | finish done => simp at split
  | @find remainder source after next first others grown smaller rest ih =>
      cases earlier with
      | nil =>
          cases split
          obtain ⟨m, row, inside⟩ := size_filter_lt smaller
          exact ⟨m, row, inside, by simp⟩
      | cons d earlier =>
          obtain ⟨rfl, rest_split⟩ := List.cons.inj split
          obtain ⟨m, row, inside, outside⟩ := ih rest_split
          obtain ⟨left, missed⟩ := List.mem_filter.1 row
          exact ⟨m, left, inside, List.forall_mem_cons.2 ⟨by simpa using missed, outside⟩⟩

theorem nodup (discovers : Discovers scoring offset remainder source found next) :
    found.Nodup := by
  induction discovers with
  | finish done => exact .nil
  | @find remainder source after next first others grown smaller rest ih =>
      refine List.nodup_cons.2 ⟨fun again => ?_, ih⟩
      obtain ⟨earlier, later, split⟩ := List.append_of_mem again
      obtain ⟨m, row, inside, -⟩ := rest.fresh split
      have outside := (List.mem_filter.1 row).2
      simp [inside] at outside

end Discovers

/-- What one pass of a search finds, in the order in which it finds it. -/
structure Discovery (onset offset : Rows) (found : List Cube) (set : CubeSet) : Prop where
  collected : ∀ c, c ∈ set ↔ c ∈ found
  distinct : found.Nodup
  safe : ∀ c ∈ found, offset.meets c = false
  complete : ∀ m ∈ onset.minterms, ∃ c ∈ found, c.admits m = true
  fresh : ∀ earlier c later, found = earlier ++ c :: later →
    ∃ m ∈ onset.minterms, c.admits m = true ∧ ∀ d ∈ earlier, d.admits m = false
  small : ∀ c ∈ found, c.size ≤ offset.arity + 1
  size_le : set.size ≤ onset.distinct.length

theorem search_discovery
    (run : (search scoring onset offset budget source).result = .ok set) :
    ∃ found, Discovers scoring offset onset source found
        (search scoring onset offset budget source).source ∧
      Discovery onset offset found set := by
  obtain ⟨found, discovers, rfl⟩ := searchFrom_discovers run
  obtain ⟨implicants, covered⟩ := search_ok run
  have collected (c : Cube) : c ∈ found.foldl CubeSet.insert ∅ ↔ c ∈ found := CubeSet.mem_ofList
  have items : (search scoring onset offset budget source).nodes =
      (found.foldl CubeSet.insert ∅).size + 1 := nodes_searchFrom (.start onset) run
  have bound := nodes_searchFrom_le scoring offset budget onset ∅ 0 source
  refine ⟨found, discovers, ?_⟩
  exact
    { collected
      distinct := discovers.nodup
      safe := fun c member => implicants.safe c ((collected c).2 member)
      complete := by
        intro m row
        obtain ⟨c, member, inside⟩ := CubeSet.admits_iff.1 (covered m row)
        exact ⟨c, (collected c).1 member, inside⟩
      fresh := fun earlier c later split => discovers.fresh split
      small := discovers.small
      size_le := by
        unfold search at items
        omega }

/-- A pass that succeeds has found in turn implicants that avoid the offset and hold all rows of the
onset, each of them a row of its own. Without a budget a pass fails only for want of candidates, and
it never takes up more than one item for each different row and one for the end. -/
theorem search_discovers (scoring : Scoring) (onset offset : Rows) (budget : Option Nat)
    (source : Source) :
    (∀ set, (search scoring onset offset budget source).result = .ok set →
      ∃ found, Discovers scoring offset onset source found
          (search scoring onset offset budget source).source ∧
        Discovery onset offset found set) ∧
    (∀ failure, (search scoring onset offset none source).result = .error failure →
      ∃ c, failure = .noCandidates .search c ∧ c.size ≤ offset.arity + 1) ∧
    (search scoring onset offset budget source).nodes ≤ onset.distinct.length + 1 := by
  refine ⟨fun set run => search_discovery run, fun failure run => searchFrom_failure run, ?_⟩
  have bound := nodes_searchFrom_le scoring offset budget onset ∅ 0 source
  rwa [Nat.zero_add] at bound

/-- A pass over parity discovers its implicants; one over a table that is its own offset fails. -/
theorem search_discovers_parity :
    (∃ set found, (search .frequency oddParity evenParity none (.ofSeed 0)).result = .ok set ∧
      Discovery oddParity evenParity found set) ∧
    ∃ c, (search .frequency oddParity oddParity none (.ofSeed 0)).result =
      .error (.noCandidates .search c) := by
  have offers : Scoring.frequency.Offers oddParity :=
    Scoring.offers_of_default (.inl rfl) (by decide)
  constructor
  · have disjoint : ∀ m ∈ oddParity.minterms, m ∉ evenParity.minterms := by decide
    have total : (∃ set, (search .frequency oddParity evenParity none (.ofSeed 0)).result =
          .ok set) ∨
        ∃ failure, (search .frequency oddParity evenParity none (.ofSeed 0)).result =
          .error failure ∧ failure.Blames oddParity evenParity :=
      searchFrom_total offers rfl rfl rfl (List.Sublist.refl _)
    rcases total with ⟨set, run⟩ | ⟨failure, -, m, on, off, -⟩
    · obtain ⟨found, -, discovery⟩ :=
        (search_discovers .frequency oddParity evenParity none (.ofSeed 0)).1 set run
      exact ⟨set, found, run, discovery⟩
    · exact absurd off (disjoint m on)
  · cases run : (search .frequency oddParity oddParity none (.ofSeed 0)).result with
    | ok set =>
        obtain ⟨implicants, covered⟩ := search_ok run
        have row : Cube.ofBits [true, false] ∈ oddParity.minterms := by decide
        obtain ⟨c, member, inside⟩ := CubeSet.admits_iff.1 (covered _ row)
        have outside := Rows.meets_eq_false_iff.1 (implicants.safe c member) _ row
        simp [inside] at outside
    | error failure =>
        obtain ⟨c, rfl, -⟩ :=
          (search_discovers .frequency oddParity oddParity none (.ofSeed 0)).2.1 failure run
        exact ⟨c, rfl⟩

end TwoLevel
