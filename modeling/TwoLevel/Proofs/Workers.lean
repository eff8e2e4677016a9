import TwoLevel.Solution
import TwoLevel.Proofs.Search

/-!
Searches divided among workers. There are no more chunks than workers, and the outcomes of all
chunks, joined in order, are those of the seeds in order. Absorbing outcomes unites what was found
up to the first failure. So the number of workers changes neither the implicants nor the failure,
although workers go on with seeds after a failure. It does so only where it is too great to be added
to the number of seeds: then the chunks have no size, and the run breaks off.
-/

namespace TwoLevel

variable {α : Type} {found : CubeSet} {sets : List CubeSet} {failure : Failure} {c : Cube}
  {seeds : List UInt64} {count workers : Nat}

theorem flatten_chunks (size : Nat) (l : List α) : (chunks size l).flatten = l := by
  fun_induction chunks size l with
  | case1 => simp
  | case2 l more ih => rw [List.flatten_cons, ih, List.take_append_drop]

theorem length_chunks_mul_le (size : Nat) (l : List α) (more : l ≠ []) :
    ((chunks size l).length - 1) * size < l.length := by
  -- All chunks but the last are full.
  fun_induction chunks size l with
  | case1 => simpa using List.length_pos_iff.2 more
  | case2 l long ih =>
      have left : l.drop size ≠ [] := by
        rw [ne_eq, List.drop_eq_nil_iff]
        omega
      have fewer := ih left
      have positive : 0 < (chunks size (l.drop size)).length := by
        rw [List.length_pos_iff]
        intro none
        have := flatten_chunks size (l.drop size)
        rw [none] at this
        exact left this.symm
      obtain ⟨rest, same⟩ := Nat.exists_eq_add_of_lt positive
      rw [List.length_drop] at fewer
      rw [List.length_cons]
      rw [same] at fewer ⊢
      simp only [Nat.zero_add, Nat.add_sub_cancel] at fewer ⊢
      rw [Nat.succ_mul]
      omega

/-- No more threads are started than the run asks for. -/
theorem length_chunks_le (several : 0 < workers) (l : List α) (more : l ≠ [])
    (fits : l.length + workers - 1 < UInt64.size) :
    (chunks (chunkSize l.length workers) l).length ≤ workers := by
  rw [chunkSize, Nat.mod_eq_of_lt fits]
  have fewer := length_chunks_mul_le ((l.length + workers - 1) / workers) l more
  have enough : l.length ≤ workers * ((l.length + workers - 1) / workers) := by
    have := Nat.div_add_mod (l.length + workers - 1) workers
    have := Nat.mod_lt (l.length + workers - 1) several
    omega
  by_contra many
  have beyond : workers * ((l.length + workers - 1) / workers) ≤
      ((chunks ((l.length + workers - 1) / workers) l).length - 1) *
        ((l.length + workers - 1) / workers) :=
    Nat.mul_le_mul_right _ (by omega)
  omega

/-! ## The size of the chunks -/

theorem chunkSize_ne_zero (several : 0 < workers) (more : 0 < count)
    (fits : count + workers - 1 < UInt64.size) : chunkSize count workers ≠ 0 := by
  rw [chunkSize, Nat.mod_eq_of_lt fits]
  exact (Nat.div_pos (by omega) several).ne'

/-- A sum of two words that is too great for a word is less than both of them. -/
theorem chunkSize_of_overflow (counted : count ≤ UInt64.size)
    (wraps : UInt64.size ≤ count + workers - 1) : chunkSize count workers = 0 := by
  apply Nat.div_eq_of_lt
  rcases Nat.lt_or_ge workers UInt64.size with word | beyond
  · rw [Nat.mod_eq_sub_mod wraps, Nat.mod_eq_of_lt (by omega)]
    omega
  · exact (Nat.mod_lt _ (by decide)).trans_le beyond

/-- The searches can be shared out among the workers: there is nothing to share out, or the chunks
have a size. -/
def Shareable (count workers : Nat) : Prop :=
  workers ≤ 1 ∨ count ≤ 1 ∨ chunkSize count workers ≠ 0

instance (count workers : Nat) : Decidable (Shareable count workers) :=
  inferInstanceAs (Decidable (_ ∨ _))

theorem shareable_one (count : Nat) : Shareable count 1 := .inl (Nat.le_refl 1)

theorem shareable_of_fits (fits : count + workers - 1 < UInt64.size) : Shareable count workers := by
  by_cases alone : workers ≤ 1
  · exact .inl alone
  by_cases single : count ≤ 1
  · exact .inr (.inl single)
  · exact .inr (.inr (chunkSize_ne_zero (by omega) (by omega) fits))

/-- For counts that are words, only a sum that is too great for one stands in the way. -/
theorem shareable_iff (counted : count ≤ UInt64.size) :
    Shareable count workers ↔
      workers ≤ 1 ∨ count ≤ 1 ∨ count + workers - 1 < UInt64.size := by
  constructor
  · rintro (alone | single | sized)
    · exact .inl alone
    · exact .inr (.inl single)
    · refine .inr (.inr (Nat.lt_of_not_le fun wraps => ?_))
      exact sized (chunkSize_of_overflow counted wraps)
  · rintro (alone | single | fits)
    · exact .inl alone
    · exact .inr (.inl single)
    · exact shareable_of_fits fits

theorem runChunks_eq (sized : chunkSize seeds.length workers ≠ 0)
    (run : UInt64 → Except Failure CubeSet) :
    runChunks run seeds workers = .ok (seeds.map run) := by
  rw [runChunks, if_neg sized, List.flatMap_def, ← List.map_flatten, flatten_chunks]

theorem searchSeeds_eq (shareable : Shareable seeds.length workers) (scoring : Scoring)
    (onset offset : Rows) (budget : Option Nat) :
    searchSeeds scoring onset offset budget seeds workers =
      (seeds.map (searchSeed scoring onset offset budget)).foldlM absorb ∅ := by
  unfold searchSeeds
  dsimp only
  split
  · rw [List.foldlM_map]
  · rename_i several
    rw [not_or] at several
    have sized := (shareable.resolve_left several.1).resolve_left several.2
    rw [runChunks_eq sized]
    rfl

theorem searchSeeds_of_not_shareable (overloaded : ¬ Shareable seeds.length workers)
    (scoring : Scoring) (onset offset : Rows) (budget : Option Nat) :
    searchSeeds scoring onset offset budget seeds workers = .error .overflow := by
  simp only [Shareable, not_or, not_not] at overloaded
  unfold searchSeeds
  rw [if_neg (not_or.2 ⟨overloaded.1, overloaded.2.1⟩), runChunks, if_pos overloaded.2.2]
  rfl

/-! ## What absorbing outcomes comes to -/

def unionAll (sets : List CubeSet) : CubeSet := sets.foldl (· ∪ ·) ∅

theorem mem_foldl_union : c ∈ sets.foldl (· ∪ ·) found ↔ c ∈ found ∨ ∃ set ∈ sets, c ∈ set := by
  induction sets generalizing found with
  | nil => simp
  | cons set rest ih =>
      rw [List.foldl_cons, ih, CubeSet.mem_union, or_assoc]
      simp

theorem mem_unionAll : c ∈ unionAll sets ↔ ∃ set ∈ sets, c ∈ set := by
  rw [unionAll, mem_foldl_union]
  exact or_iff_right (CubeSet.not_mem_empty c)

/-- The failure of a search after others had found some implicants. -/
def Failure.after (found : CubeSet) : Failure → Failure
  | .budgetExhausted stage budget more => .budgetExhausted stage budget (found ∪ more)
  | failure => failure

theorem absorb_error (found : CubeSet) (failure : Failure) :
    absorb found (.error failure) = .error (failure.after found) := by
  cases failure <;> rfl

theorem foldlM_absorb_ok (found : CubeSet) (sets : List CubeSet) :
    (sets.map .ok).foldlM absorb found = .ok (sets.foldl (· ∪ ·) found) := by
  induction sets generalizing found with
  | nil => rfl
  | cons set rest ih => exact ih (found ∪ set)

theorem foldlM_absorb_error (found : CubeSet) (sets : List CubeSet) (failure : Failure)
    (later : List (Except Failure CubeSet)) :
    (sets.map Except.ok ++ Except.error failure :: later).foldlM absorb found =
      .error (failure.after (sets.foldl (· ∪ ·) found)) := by
  rw [List.foldlM_append, foldlM_absorb_ok]
  change (absorb _ (.error failure) >>= _) = _
  rw [absorb_error]
  rfl

theorem outcomes_cases (outcomes : List (Except Failure CubeSet)) :
    (∃ sets : List CubeSet, outcomes = sets.map .ok) ∨
      ∃ (sets : List CubeSet) (failure : Failure) (later : List (Except Failure CubeSet)),
        outcomes = sets.map .ok ++ .error failure :: later := by
  induction outcomes with
  | nil => exact .inl ⟨[], rfl⟩
  | cons outcome rest ih =>
      cases outcome with
      | error failure => exact .inr ⟨[], failure, rest, rfl⟩
      | ok set =>
          rcases ih with ⟨sets, rfl⟩ | ⟨sets, failure, later, rfl⟩
          · exact .inl ⟨set :: sets, rfl⟩
          · exact .inr ⟨set :: sets, failure, later, rfl⟩

theorem searchSeeds_eq_ok {scoring : Scoring} {onset offset : Rows} {budget : Option Nat}
    {set : CubeSet} (run : searchSeeds scoring onset offset budget seeds workers = .ok set) :
    ∃ sets : List CubeSet,
      seeds.map (searchSeed scoring onset offset budget) = sets.map .ok ∧ set = unionAll sets := by
  by_cases shareable : Shareable seeds.length workers
  · rw [searchSeeds_eq shareable] at run
    rcases outcomes_cases (seeds.map (searchSeed scoring onset offset budget)) with
      ⟨sets, all⟩ | ⟨sets, failure, later, first⟩
    · rw [all, foldlM_absorb_ok] at run
      cases run
      exact ⟨sets, all, rfl⟩
    · rw [first, foldlM_absorb_error] at run
      cases run
  · rw [searchSeeds_of_not_shareable shareable] at run
    cases run

theorem searchSeeds_sound {scoring : Scoring} {onset offset : Rows} {budget : Option Nat}
    {set : CubeSet} (run : searchSeeds scoring onset offset budget seeds workers = .ok set) :
    Implicants onset offset set ∧
      (seeds ≠ [] → ∀ m ∈ onset.minterms, set.admits m = true) := by
  obtain ⟨sets, outcomes, rfl⟩ := searchSeeds_eq_ok run
  have each : ∀ set ∈ sets, Implicants onset offset set ∧
      ∀ m ∈ onset.minterms, set.admits m = true := by
    intro set member
    have outcome : Except.ok set ∈ seeds.map (searchSeed scoring onset offset budget) :=
      outcomes ▸ List.mem_map_of_mem member
    obtain ⟨seed, -, found⟩ := List.mem_map.1 outcome
    exact search_ok found
  constructor
  · constructor
    · intro c member
      obtain ⟨set, among, inside⟩ := mem_unionAll.1 member
      exact (each set among).1.safe c inside
    · intro c member
      obtain ⟨set, among, inside⟩ := mem_unionAll.1 member
      exact (each set among).1.useful c inside
  · intro some_seed m member
    have some_set : sets ≠ [] := by
      intro none
      subst none
      exact some_seed (List.map_eq_nil_iff.1 outcomes)
    obtain ⟨set, among⟩ := List.exists_mem_of_ne_nil sets some_set
    exact CubeSet.admits_mono (fun c inside => mem_unionAll.2 ⟨set, among, inside⟩)
      ((each set among).2 m member)

/-- However many workers there are, as long as the sum for the size of the chunks is a word, the
outcome is that of one search after the other: the union of what the searches found, or the first
failure, with what was found before it. -/
theorem searchSeeds_workers (scoring : Scoring) (onset offset : Rows) (budget : Option Nat)
    (seeds : List UInt64) (workers : Nat) (fits : seeds.length + workers - 1 < UInt64.size) :
    (1 ≤ workers → seeds ≠ [] →
      runChunks (searchSeed scoring onset offset budget) seeds workers =
        .ok (seeds.map (searchSeed scoring onset offset budget))) ∧
    searchSeeds scoring onset offset budget seeds workers =
      searchSeeds scoring onset offset budget seeds 1 ∧
    (∀ sets : List CubeSet,
      seeds.map (searchSeed scoring onset offset budget) = sets.map .ok →
      searchSeeds scoring onset offset budget seeds workers = .ok (unionAll sets)) ∧
    ∀ (before after : List UInt64) (seed : UInt64) (sets : List CubeSet) (failure : Failure),
      seeds = before ++ seed :: after →
      before.map (searchSeed scoring onset offset budget) = sets.map .ok →
      searchSeed scoring onset offset budget seed = .error failure →
      searchSeeds scoring onset offset budget seeds workers =
        .error (failure.after (unionAll sets)) := by
  have shareable : Shareable seeds.length workers := shareable_of_fits fits
  refine ⟨fun several more => ?_, ?_, ?_, ?_⟩
  · exact runChunks_eq (chunkSize_ne_zero several (List.length_pos_iff.2 more) fits) _
  · rw [searchSeeds_eq shareable, searchSeeds_eq (shareable_one _)]
  · intro sets all
    rw [searchSeeds_eq shareable, all]
    exact foldlM_absorb_ok ∅ sets
  · intro before after seed sets failure split earlier fails
    rw [searchSeeds_eq shareable, split, List.map_append, List.map_cons, earlier, fails]
    exact foldlM_absorb_error ∅ sets failure _

/-- Two workers search a table without an offset for three seeds: with a budget of one cube the
first search fails, and the others do not count. -/
theorem searchSeeds_workers_universal :
    searchSeeds .frequency ⟨1, [.ofBits [true]], by decide⟩ (.empty 1) none [0, 1, 2] 2 =
      .ok (unionAll [CubeSet.insert ∅ .universal, CubeSet.insert ∅ .universal,
        CubeSet.insert ∅ .universal]) ∧
    searchSeeds .frequency ⟨1, [.ofBits [true]], by decide⟩ (.empty 1) (some 1) [0, 1, 2] 2 =
      .error ((Failure.budgetExhausted .search 1 (CubeSet.insert ∅ .universal)).after
        (unionAll [])) := by
  have unlimited (seed : UInt64) : searchSeed .frequency ⟨1, [.ofBits [true]], by decide⟩
      (.empty 1) none seed = .ok (CubeSet.insert ∅ .universal) :=
    congrArg Pass.result (search_of_no_offset rfl (by decide) rfl)
  have limited (seed : UInt64) : searchSeed .frequency ⟨1, [.ofBits [true]], by decide⟩
      (.empty 1) (some 1) seed =
        .error (.budgetExhausted .search 1 (CubeSet.insert ∅ .universal)) :=
    congrArg Pass.result (search_of_no_offset rfl (by decide) rfl)
  constructor
  · apply (searchSeeds_workers .frequency ⟨1, [.ofBits [true]], by decide⟩ (.empty 1) none
      [0, 1, 2] 2 (by decide)).2.2.1
    simp only [List.map_cons, List.map_nil, unlimited]
  · apply (searchSeeds_workers .frequency ⟨1, [.ofBits [true]], by decide⟩ (.empty 1) (some 1)
      [0, 1, 2] 2 (by decide)).2.2.2 [] [1, 2] 0 []
    · rfl
    · rfl
    · exact limited 0

end TwoLevel
