import TwoLevel.Implicant
import TwoLevel.Proofs.Rows

/-!
Soundness of coverage-directed search, for any scoring. `Grows` is the growth of a cube literal by
literal. `Progress` is what one implicant preserves: rows of the onset are still to be covered or
lie in an implicant, and each implicant avoids the offset and holds a row of the onset. A search
that succeeds ends in `Progress` without rows to cover.
-/

namespace TwoLevel

variable {scoring : Scoring} {onset offset remainder : Rows} {budget : Option Nat}
  {found set : CubeSet} {nodes limit : Nat} {c grown : Cube} {l : Literal} {failure : Failure}
  {source next : Source}

/-! ## Single steps -/

theorem growFrom_of_avoids (avoids : offset.meets c = false) :
    growFrom scoring remainder offset c source = (.ok c, source) := by
  rw [growFrom, dif_neg (by simp [avoids])]

theorem growFrom_of_none (meets : offset.meets c = true)
    (chosen : selectBest (scoring.freeGrowth c remainder) source = (none, next)) :
    growFrom scoring remainder offset c source = (.error (.noCandidates .search c), next) := by
  rw [growFrom, dif_pos meets]
  split
  · rename_i after same
    rw [chosen] at same
    cases same
    rfl
  · rename_i after same
    rw [chosen] at same
    cases same

theorem growFrom_of_some (meets : offset.meets c = true)
    (chosen : selectBest (scoring.freeGrowth c remainder) source = (some l, next)) :
    growFrom scoring remainder offset c source =
      growFrom scoring remainder offset (c.insert l) next := by
  rw [growFrom, dif_pos meets]
  split
  · rename_i after same
    rw [chosen] at same
    cases same
  · rename_i after same
    rw [chosen] at same
    cases same
    rfl

theorem searchFrom_of_exhausted (spent : exhausted? budget nodes = some limit) :
    searchFrom scoring offset budget remainder found nodes source =
      .cut .search limit found nodes source := by
  rw [searchFrom, spent]

theorem searchFrom_of_isEmpty (allowed : exhausted? budget nodes = none)
    (done : remainder.isEmpty = true) :
    searchFrom scoring offset budget remainder found nodes source =
      ⟨.ok found, nodes + 1, source⟩ := by
  rw [searchFrom, allowed]
  simp [done]

theorem searchFrom_of_error (allowed : exhausted? budget nodes = none)
    (more : remainder.isEmpty = false)
    (stuck : grow scoring remainder offset source = (.error failure, next)) :
    searchFrom scoring offset budget remainder found nodes source =
      ⟨.error failure, nodes + 1, next⟩ := by
  rw [searchFrom, allowed]
  simp [more, stuck]

theorem searchFrom_of_ok (allowed : exhausted? budget nodes = none)
    (more : remainder.isEmpty = false)
    (implicant : grow scoring remainder offset source = (.ok c, next)) :
    searchFrom scoring offset budget remainder found nodes source =
      if (remainder.filter (!c.admits ·)).size < remainder.size then
        searchFrom scoring offset budget (remainder.filter (!c.admits ·)) (found.insert c)
          (nodes + 1) next
      else ⟨.error (.noCandidates .search c), nodes + 1, next⟩ := by
  rw [searchFrom, allowed]
  simp [more, implicant]

/-! ## What a search preserves -/

/-- The literals that a cube takes on in turn while it meets the offset. -/
inductive Grows (scoring : Scoring) (remainder offset : Rows) :
    Cube → Source → List Literal → Cube → Source → Prop
  | rest {c : Cube} {source : Source} : Grows scoring remainder offset c source [] c source
  | add {c grown : Cube} {source after next : Source} {l : Literal} {later : List Literal}
      (meets : offset.meets c = true)
      (chosen : selectBest (scoring.freeGrowth c remainder) source = (some l, after))
      (more : Grows scoring remainder offset (c.insert l) after later grown next) :
      Grows scoring remainder offset c source (l :: later) grown next

namespace Grows

variable {added : List Literal}

theorem size_eq (grows : Grows scoring remainder offset c source added grown next) :
    grown.size = c.size + added.length := by
  induction grows with
  | rest => rfl
  | add meets chosen more ih =>
      rw [ih, Cube.size_insert_of_free _ (Scoring.fixes_of_selectBest_freeGrowth chosen),
        List.length_cons, Nat.add_assoc, Nat.add_comm 1]

theorem size_le (grows : Grows scoring remainder offset c source added grown next)
    (small : c.size ≤ offset.arity + 1) : grown.size ≤ offset.arity + 1 := by
  induction grows with
  | rest => exact small
  -- It still met the offset when it grew, so it was no larger than a row.
  | @add c grown source after next l later meets chosen more ih =>
      apply ih
      rw [c.size_insert_of_free (Scoring.fixes_of_selectBest_freeGrowth chosen)]
      exact Nat.succ_le_succ (offset.size_le_of_meets meets)

theorem meets_of_ne_nil (grows : Grows scoring remainder offset c source added grown next)
    (more : added ≠ []) : offset.meets c = true := by
  cases grows with
  | rest => exact absurd rfl more
  | add meets chosen rest => exact meets

end Grows

theorem growFrom_grows (scoring : Scoring) (remainder offset : Rows) (c : Cube) (source : Source) :
    ∃ added grown now, Grows scoring remainder offset c source added grown now ∧
      (offset.meets grown = false ∧
          growFrom scoring remainder offset c source = (.ok grown, now) ∨
        offset.meets grown = true ∧
          ∃ next, selectBest (scoring.freeGrowth grown remainder) now = (none, next) ∧
            growFrom scoring remainder offset c source =
              (.error (.noCandidates .search grown), next)) := by
  fun_induction growFrom scoring remainder offset c source with
  | case1 c source meets after chosen =>
      exact ⟨[], c, source, .rest, .inr ⟨meets, after, chosen, rfl⟩⟩
  | case2 c source meets l after chosen ih =>
      obtain ⟨added, grown, now, grows, ends⟩ := ih
      exact ⟨l :: added, grown, now, .add meets chosen grows, ends⟩
  | case3 c source avoids => exact ⟨[], c, source, .rest, .inl ⟨by simpa using avoids, rfl⟩⟩

theorem growFrom_ok (run : growFrom scoring remainder offset c source = (.ok grown, next)) :
    ∃ added, Grows scoring remainder offset c source added grown next ∧
      offset.meets grown = false := by
  obtain ⟨added, _, _, grows, ⟨avoids, same⟩ | ⟨-, _, -, same⟩⟩ :=
    growFrom_grows scoring remainder offset c source
  · rw [run] at same
    cases same
    exact ⟨added, grows, avoids⟩
  · rw [run] at same
    cases same

theorem growFrom_error
    (run : growFrom scoring remainder offset c source = (.error failure, next)) :
    ∃ d, failure = .noCandidates .search d ∧ offset.meets d = true := by
  obtain ⟨_, d, _, -, ⟨-, same⟩ | ⟨meets, _, -, same⟩⟩ :=
    growFrom_grows scoring remainder offset c source
  · rw [run] at same
    cases same
  · rw [run] at same
    cases same
    exact ⟨d, rfl, meets⟩

theorem growFrom_avoids (run : growFrom scoring remainder offset c source = (.ok grown, next)) :
    offset.meets grown = false := by
  obtain ⟨added, -, avoids⟩ := growFrom_ok run
  exact avoids

theorem size_filter_lt {rows : Rows} (smaller : (rows.filter (!c.admits ·)).size < rows.size) :
    ∃ m ∈ rows.minterms, c.admits m = true := by
  obtain ⟨m, member, dropped⟩ := List.length_filter_lt_length_iff_exists.1 smaller
  exact ⟨m, member, by simpa using dropped⟩

theorem filter_size_lt {rows : Rows} {m : Cube} (member : m ∈ rows.minterms)
    (inside : c.admits m = true) : (rows.filter (!c.admits ·)).size < rows.size :=
  List.length_filter_lt_length_iff_exists.2 ⟨m, member, by simp [inside]⟩

structure Implicants (onset offset : Rows) (set : CubeSet) : Prop where
  safe : ∀ c ∈ set, offset.meets c = false
  useful : ∀ c ∈ set, ∃ m ∈ onset.minterms, c.admits m = true

namespace Implicants

theorem empty (onset offset : Rows) : Implicants onset offset ∅ where
  safe c member := absurd member (CubeSet.not_mem_empty c)
  useful c member := absurd member (CubeSet.not_mem_empty c)

theorem insert (implicants : Implicants onset offset set) (avoids : offset.meets c = false)
    (holds : ∃ m ∈ onset.minterms, c.admits m = true) :
    Implicants onset offset (set.insert c) where
  safe d member := by
    rcases CubeSet.mem_insert.1 member with rfl | old
    · exact avoids
    · exact implicants.safe d old
  useful d member := by
    rcases CubeSet.mem_insert.1 member with rfl | old
    · exact holds
    · exact implicants.useful d old

end Implicants

/-- Where a search stands: the implicants found, and the rows that are still to be covered. -/
structure Progress (onset offset remainder : Rows) (found : CubeSet) : Prop where
  implicants : Implicants onset offset found
  remaining : ∀ m ∈ remainder.minterms, m ∈ onset.minterms
  covered : ∀ m ∈ onset.minterms, m ∈ remainder.minterms ∨ found.admits m = true

namespace Progress

theorem start (onset offset : Rows) : Progress onset offset onset ∅ where
  implicants := .empty onset offset
  remaining _ member := member
  covered _ member := .inl member

theorem advance (progress : Progress onset offset remainder found)
    (avoids : offset.meets c = false) (holds : ∃ m ∈ remainder.minterms, c.admits m = true) :
    Progress onset offset (remainder.filter (!c.admits ·)) (found.insert c) where
  implicants := by
    obtain ⟨m, left, inside⟩ := holds
    exact progress.implicants.insert avoids ⟨m, progress.remaining m left, inside⟩
  remaining m member := progress.remaining m (List.mem_filter.1 member).1
  covered m member := by
    rcases progress.covered m member with left | covered
    · cases inside : c.admits m with
      | true => exact .inr (CubeSet.admits_iff.2 ⟨c, by simp, inside⟩)
      | false => exact .inl (List.mem_filter.2 ⟨left, by simp [inside]⟩)
    · exact .inr (CubeSet.admits_mono (fun d member => CubeSet.mem_insert.2 (.inr member)) covered)

theorem finish (progress : Progress onset offset remainder found)
    (done : remainder.isEmpty = true) : ∀ m ∈ onset.minterms, found.admits m = true := by
  intro m member
  have none_left : remainder.minterms = [] := by simpa [Rows.isEmpty] using done
  exact (progress.covered m member).resolve_left (by simp [none_left])

end Progress

theorem searchFrom_ok
    (run : (searchFrom scoring offset budget remainder found nodes source).result = .ok set)
    (progress : Progress onset offset remainder found) :
    Implicants onset offset set ∧ ∀ m ∈ onset.minterms, set.admits m = true := by
  fun_induction searchFrom scoring offset budget remainder found nodes source with
  | case1 => simp [Pass.cut] at run
  | case2 remainder found nodes source unlimited done =>
      cases run
      exact ⟨progress.implicants, progress.finish done⟩
  | case3 => simp at run
  | case4 remainder found nodes source unlimited more implicant after grown rest smaller ih =>
      exact ih run (progress.advance (growFrom_avoids grown) (size_filter_lt smaller))
  | case5 => simp at run

theorem search_ok (run : (search scoring onset offset budget source).result = .ok set) :
    Implicants onset offset set ∧ ∀ m ∈ onset.minterms, set.admits m = true :=
  searchFrom_ok run (.start onset offset)

theorem search_of_no_offset (none_off : offset.minterms = []) (some_on : onset.minterms ≠ [])
    (allowed : exhausted? budget 0 = none) : search scoring onset offset budget source =
      match exhausted? budget 1 with
      | some limit => .cut .search limit (CubeSet.insert ∅ .universal) 1 source
      | none => ⟨.ok (CubeSet.insert ∅ .universal), 2, source⟩ := by
  have avoids : offset.meets .universal = false := by
    rw [Rows.meets, none_off]
    rfl
  have more : onset.isEmpty = false := by
    simpa [Rows.isEmpty] using some_on
  have none_left : onset.filter (!Cube.universal.admits ·) = .empty onset.arity :=
    onset.filter_not_admits .universal
  have smaller : (Rows.empty onset.arity).size < onset.size := List.length_pos_iff.2 some_on
  have implicant : grow scoring onset offset source = (.ok .universal, source) :=
    growFrom_of_avoids avoids
  unfold search
  rw [searchFrom_of_ok allowed more implicant, none_left, if_pos smaller]
  cases next : exhausted? budget 1 with
  | some limit => exact searchFrom_of_exhausted next
  | none => exact searchFrom_of_isEmpty next rfl

end TwoLevel
