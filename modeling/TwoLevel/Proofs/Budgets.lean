import TwoLevel.Proofs.Failures

/-!
Runs with a budget beside runs without one. While the budget allows another work item both take the
same step. So either they go the same way to the end, or the budget cuts the run at the first item
beyond it, and what had been found by then is what the unlimited run had found by then.
-/

namespace TwoLevel

variable {scoring : Scoring} {onset offset remainder : Rows} {budget : Option Nat} {stage : Stage}
  {implicants primes found set : CubeSet} {queue : List Cube} {nodes limit : Nat} {c m : Cube}
  {free limited : Pass} {source next : Source} {Partial : CubeSet → Prop}

theorem exhausted?_of_lt (left : nodes < limit) : exhausted? (some limit) nodes = none := by
  simpa [exhausted?] using left

theorem exhausted?_limit (limit : Nat) : exhausted? (some limit) limit = some limit := by
  simp [exhausted?]

namespace Pass

/-- If the run succeeds, it finds the cubes of `part` among others. -/
def Finds (run : Pass) (part : CubeSet) : Prop := ∀ set, run.result = .ok set → part ⊆ set

/-- How a run with a budget of `limit` items goes if it goes as `free` without one. -/
structure Cuts (stage : Stage) (limit : Nat) (Partial : CubeSet → Prop) (free limited : Pass) :
    Prop where
  enough : free.nodes ≤ limit → limited = free
  short : limit < free.nodes →
    ∃ found next, limited = .cut stage limit found limit next ∧ Partial found

namespace Cuts

theorem same (within : free.nodes ≤ limit) : Cuts stage limit Partial free free where
  enough _ := rfl
  short beyond := absurd within (Nat.not_le.2 beyond)

theorem now (beyond : limit < free.nodes) (kept : Partial found)
    (cut : limited = .cut stage limit found limit source) :
    Cuts stage limit Partial free limited where
  enough within := absurd within (Nat.not_le.2 beyond)
  short _ := ⟨found, source, cut, kept⟩

end Cuts

end Pass

/-! ## Searches -/

theorem lt_nodes_searchFrom (scoring : Scoring) (offset remainder : Rows) (found : CubeSet)
    (nodes : Nat) (source : Source) :
    nodes < (searchFrom scoring offset none remainder found nodes source).nodes := by
  fun_induction searchFrom scoring offset none remainder found nodes source with
  | case1 remainder found nodes source limit spent => cases spent
  | case2 remainder found nodes source allowed done => exact Nat.lt_succ_self nodes
  | case3 remainder found nodes source allowed more failure after stuck =>
      exact Nat.lt_succ_self nodes
  | case4 remainder found nodes source allowed more c after grown rest smaller ih => omega
  | case5 remainder found nodes source allowed more c after grown rest stays =>
      exact Nat.lt_succ_self nodes

theorem searchFrom_finds (scoring : Scoring) (offset : Rows) (budget : Option Nat)
    (remainder : Rows) (found : CubeSet) (nodes : Nat) (source : Source) :
    (searchFrom scoring offset budget remainder found nodes source).Finds found := by
  fun_induction searchFrom scoring offset budget remainder found nodes source with
  | case1 => simp [Pass.Finds, Pass.cut]
  | case2 remainder found nodes source allowed done =>
      intro set run
      cases run
      exact fun c member => member
  | case3 => simp [Pass.Finds]
  | case4 remainder found nodes source allowed more c after grown rest smaller ih =>
      exact fun set run d member => ih set run d (CubeSet.mem_insert.2 (.inr member))
  | case5 => simp [Pass.Finds]

/-- Each item but the last has found an implicant that holds none of the rows that remain. -/
structure Counted (remainder : Rows) (found : CubeSet) (nodes : Nat) : Prop where
  size : found.size = nodes
  apart : ∀ c ∈ found, ∀ m ∈ remainder.minterms, c.admits m = false

namespace Counted

theorem start (onset : Rows) : Counted onset ∅ 0 where
  size := rfl
  apart c member := absurd member (CubeSet.not_mem_empty c)

theorem advance (counted : Counted remainder found nodes)
    (holds : ∃ m ∈ remainder.minterms, c.admits m = true) :
    Counted (remainder.filter (!c.admits ·)) (found.insert c) (nodes + 1) where
  size := by
    obtain ⟨m, row, inside⟩ := holds
    have absent : c ∉ found := by
      intro member
      simp [counted.apart c member m row] at inside
    rw [CubeSet.size_insert absent, counted.size]
  apart d member m row := by
    obtain ⟨left, outside⟩ := List.mem_filter.1 row
    rcases CubeSet.mem_insert.1 member with rfl | old
    · simpa using outside
    · exact counted.apart d old m left

end Counted

theorem nodes_searchFrom (counted : Counted remainder found nodes)
    (run : (searchFrom scoring offset budget remainder found nodes source).result = .ok set) :
    (searchFrom scoring offset budget remainder found nodes source).nodes = set.size + 1 := by
  fun_induction searchFrom scoring offset budget remainder found nodes source with
  | case1 => simp [Pass.cut] at run
  | case2 remainder found nodes source allowed done =>
      cases run
      exact congrArg (· + 1) counted.size.symm
  | case3 => simp at run
  | case4 remainder found nodes source allowed more c after grown rest smaller ih =>
      exact ih (counted.advance (size_filter_lt smaller)) run
  | case5 => simp at run

/-- Where the budget is used up, the unlimited run takes up another item. -/
theorem searchFrom_cuts_now (counted : Counted remainder found nodes) :
    Pass.Cuts .search nodes
      (fun part => part.size = nodes ∧
        (searchFrom scoring offset none remainder found nodes source).Finds part)
      (searchFrom scoring offset none remainder found nodes source)
      (searchFrom scoring offset (some nodes) remainder found nodes source) :=
  .now (lt_nodes_searchFrom scoring offset remainder found nodes source)
    ⟨counted.size, searchFrom_finds scoring offset none remainder found nodes source⟩
    (searchFrom_of_exhausted (exhausted?_limit nodes))

theorem searchFrom_cuts (counted : Counted remainder found nodes) (left : nodes < limit) :
    Pass.Cuts .search limit
      (fun part => part.size = limit ∧
        (searchFrom scoring offset none remainder found nodes source).Finds part)
      (searchFrom scoring offset none remainder found nodes source)
      (searchFrom scoring offset (some limit) remainder found nodes source) := by
  have allowed := exhausted?_of_lt left
  fun_induction searchFrom scoring offset none remainder found nodes source with
  | case1 remainder found nodes source limit spent => cases spent
  | case2 remainder found nodes source _ done =>
      rw [searchFrom_of_isEmpty allowed done]
      exact .same left
  | case3 remainder found nodes source _ more failure after stuck =>
      rw [searchFrom_of_error allowed (by simpa using more) stuck]
      exact .same left
  | case4 remainder found nodes source _ more c after grown rest smaller ih =>
      rw [searchFrom_of_ok allowed (by simpa using more) grown, if_pos smaller]
      have advanced := counted.advance (size_filter_lt smaller)
      rcases Nat.eq_or_lt_of_le left with rfl | left
      · exact searchFrom_cuts_now advanced
      · exact ih advanced left (exhausted?_of_lt left)
  | case5 remainder found nodes source _ more c after grown rest stays =>
      rw [searchFrom_of_ok allowed (by simpa using more) grown, if_neg stays]
      exact .same left

/-! ## Expansions -/

theorem le_nodes_expandFrom (scoring : Scoring) (offset : Rows) (queue : List Cube)
    (primes : CubeSet) (nodes : Nat) (source : Source) :
    nodes ≤ (expandFrom scoring offset none queue primes nodes source).nodes := by
  fun_induction expandFrom scoring offset none queue primes nodes source with
  | case1 primes nodes source => exact Nat.le_refl nodes
  | case2 primes nodes source c rest limit spent => cases spent
  | case3 primes nodes source c rest allowed candidates none_left ih => omega
  | case4 primes nodes source c rest allowed candidates more after chosen => exact Nat.le_succ nodes
  | case5 primes nodes source c rest allowed candidates more l after chosen ih => omega

theorem lt_nodes_expandFrom (scoring : Scoring) (offset : Rows) (c : Cube) (rest : List Cube)
    (primes : CubeSet) (nodes : Nat) (source : Source) :
    nodes < (expandFrom scoring offset none (c :: rest) primes nodes source).nodes := by
  by_cases fixed : offset.removable c = []
  · rw [expandFrom_of_prime rfl fixed]
    exact le_nodes_expandFrom ..
  · cases chosen : selectBest (scoring.safeRemoval c (offset.removable c) offset) source with
    | mk choice next =>
        cases choice with
        | none =>
            rw [expandFrom_of_none rfl fixed chosen]
            exact Nat.lt_succ_self nodes
        | some l =>
            rw [expandFrom_of_some rfl fixed chosen]
            exact le_nodes_expandFrom ..

theorem expandFrom_finds (scoring : Scoring) (offset : Rows) (budget : Option Nat)
    (queue : List Cube) (primes : CubeSet) (nodes : Nat) (source : Source) :
    (expandFrom scoring offset budget queue primes nodes source).Finds primes := by
  fun_induction expandFrom scoring offset budget queue primes nodes source with
  | case1 primes nodes source =>
      intro set run
      cases run
      exact fun c member => member
  | case2 => simp [Pass.Finds, Pass.cut]
  | case3 primes nodes source c rest allowed candidates none_left ih =>
      exact fun set run d member => ih set run d (CubeSet.mem_insert.2 (.inr member))
  | case4 => simp [Pass.Finds]
  | case5 primes nodes source c rest allowed candidates more l after chosen ih => exact ih

theorem expandFrom_cuts_now : Pass.Cuts .expansion nodes
    (expandFrom scoring offset none queue primes nodes source).Finds
    (expandFrom scoring offset none queue primes nodes source)
    (expandFrom scoring offset (some nodes) queue primes nodes source) := by
  cases queue with
  | nil =>
      rw [expandFrom_nil, expandFrom_nil]
      exact .same (Nat.le_refl nodes)
  | cons c rest =>
      exact .now (lt_nodes_expandFrom ..)
        (expandFrom_finds scoring offset none (c :: rest) primes nodes source)
        (expandFrom_of_exhausted (exhausted?_limit nodes))

theorem expandFrom_cuts (left : nodes < limit) : Pass.Cuts .expansion limit
    (expandFrom scoring offset none queue primes nodes source).Finds
    (expandFrom scoring offset none queue primes nodes source)
    (expandFrom scoring offset (some limit) queue primes nodes source) := by
  have allowed := exhausted?_of_lt left
  fun_induction expandFrom scoring offset none queue primes nodes source with
  | case1 primes nodes source =>
      rw [expandFrom_nil]
      exact .same (Nat.le_of_lt left)
  | case2 primes nodes source c rest limit spent => cases spent
  | case3 primes nodes source c rest _ candidates none_left ih =>
      rw [expandFrom_of_prime allowed (List.isEmpty_iff.1 none_left)]
      rcases Nat.eq_or_lt_of_le left with rfl | left
      · exact expandFrom_cuts_now
      · exact ih left (exhausted?_of_lt left)
  | case4 primes nodes source c rest _ candidates more after chosen =>
      rw [expandFrom_of_none allowed (by simpa using more) chosen]
      exact .same left
  | case5 primes nodes source c rest _ candidates more l after chosen ih =>
      rw [expandFrom_of_some allowed (by simpa using more) chosen]
      rcases Nat.eq_or_lt_of_le left with rfl | left
      · exact expandFrom_cuts_now
      · exact ih left (exhausted?_of_lt left)

/-! ## Coverings -/

namespace Grid

variable {grid : Grid} {uncovered : List (List Nat)} {chosen places : List Nat}

theorem le_nodes_chooseFrom (grid : Grid) (uncovered : List (List Nat)) (chosen : List Nat)
    (nodes : Nat) (source : Source) :
    nodes ≤ (grid.chooseFrom none uncovered chosen nodes source).nodes := by
  fun_induction chooseFrom grid none uncovered chosen nodes source with
  | case1 uncovered chosen nodes source done => exact Nat.le_refl nodes
  | case2 uncovered chosen nodes source more limit spent => cases spent
  | case3 uncovered chosen nodes source more allowed after picked => exact Nat.le_succ nodes
  | case4 uncovered chosen nodes source more allowed place after picked ih => omega

theorem lt_nodes_chooseFrom (more : uncovered ≠ []) (grid : Grid) (chosen : List Nat)
    (nodes : Nat) (source : Source) :
    nodes < (grid.chooseFrom none uncovered chosen nodes source).nodes := by
  cases picked : grid.pick uncovered source with
  | mk choice next =>
      cases choice with
      | none =>
          rw [chooseFrom_of_none more rfl picked]
          exact Nat.lt_succ_self nodes
      | some place =>
          rw [chooseFrom_of_some more rfl picked]
          exact le_nodes_chooseFrom ..

/-- Each choice covers a row. -/
theorem nodes_chooseFrom_le (grid : Grid) (budget : Option Nat) (uncovered : List (List Nat))
    (chosen : List Nat) (nodes : Nat) (source : Source) :
    (grid.chooseFrom budget uncovered chosen nodes source).nodes ≤ nodes + uncovered.length := by
  fun_induction chooseFrom grid budget uncovered chosen nodes source with
  | case1 uncovered chosen nodes source done => exact Nat.le_add_right nodes _
  | case2 uncovered chosen nodes source more limit spent => exact Nat.le_add_right nodes _
  | case3 uncovered chosen nodes source more allowed after picked =>
      have left := List.length_pos_iff.2 (by simpa using more : uncovered ≠ [])
      exact Nat.add_le_add_left left nodes
  | case4 uncovered chosen nodes source more allowed place after picked ih =>
      have fewer := length_beyond_lt (held_pos_of_pick picked)
      omega

theorem size_cubes (different : grid.primes.toList.Nodup) (distinct : places.Nodup)
    (bounded : ∀ place ∈ places, place < grid.primes.size) :
    (grid.cubes places).size = places.length := by
  have located : ∀ place ∈ places, grid.primes[place]? = some (grid.primes.getD place default) := by
    intro place member
    simp [Array.getD_eq_getD_getElem?, bounded place member]
  have cubes : places.filterMap (grid.primes[·]?) =
      places.map fun place => grid.primes.getD place default :=
    List.filterMap_eq_map_iff_forall_eq_some.2 located
  have apart : (places.map fun place => grid.primes.getD place default).Nodup := by
    apply distinct.map_on
    intro place first other second same
    have both : grid.primes.toList[place]? = grid.primes.toList[other]? := by
      rw [Array.getElem?_toList, Array.getElem?_toList, located place first, located other second,
        same]
    have inside : place < grid.primes.toList.length := by simpa using bounded place first
    exact (List.getElem?_inj inside different).1 both
  rw [Grid.cubes, cubes, CubeSet.size_ofList apart, List.length_map]

theorem mem_cubes {c : Cube} (member : c ∈ grid.cubes places) : c ∈ grid.primes := by
  obtain ⟨place, -, located⟩ := List.mem_filterMap.1 (CubeSet.mem_ofList.1 member)
  exact Array.mem_of_getElem? located

/-- As many of the primes as there were choices. -/
def Chosen (grid : Grid) (count : Nat) (part : CubeSet) : Prop :=
  (∀ c ∈ part, c ∈ grid.primes) ∧ part.size = count

theorem chosen_incidence (onset : Rows) (primes : CubeSet) (count : Nat) :
    (incidence onset primes).Chosen count = fun part => part ⊆ primes ∧ part.size = count := by
  funext part
  simp only [Chosen, incidence, List.mem_toArray]
  rfl

theorem Choosing.chosen_cubes (choosing : grid.Choosing uncovered chosen)
    (different : grid.primes.toList.Nodup) : grid.Chosen chosen.length (grid.cubes chosen) :=
  ⟨fun _ member => mem_cubes member, size_cubes different choosing.distinct choosing.bounded⟩

theorem chooseFrom_cuts_now (different : grid.primes.toList.Nodup)
    (choosing : grid.Choosing uncovered chosen) (source : Source) :
    Pass.Cuts .covering chosen.length (grid.Chosen chosen.length)
      ((grid.chooseFrom none uncovered chosen chosen.length source).pass grid)
      ((grid.chooseFrom (some chosen.length) uncovered chosen chosen.length source).pass grid) := by
  by_cases done : uncovered = []
  · rw [done, chooseFrom_nil, chooseFrom_nil]
    exact .same (Nat.le_refl _)
  · rw [chooseFrom_of_exhausted done (exhausted?_limit _)]
    exact .now (lt_nodes_chooseFrom done grid chosen chosen.length source)
      (choosing.chosen_cubes different) rfl

theorem chooseFrom_cuts (different : grid.primes.toList.Nodup)
    (choosing : grid.Choosing uncovered chosen) (counted : chosen.length = nodes)
    (left : nodes < limit) :
    Pass.Cuts .covering limit (grid.Chosen limit)
      ((grid.chooseFrom none uncovered chosen nodes source).pass grid)
      ((grid.chooseFrom (some limit) uncovered chosen nodes source).pass grid) := by
  have allowed := exhausted?_of_lt left
  fun_induction chooseFrom grid none uncovered chosen nodes source with
  | case1 uncovered chosen nodes source done =>
      rw [List.isEmpty_iff.1 done, chooseFrom_nil]
      exact .same (Nat.le_of_lt left)
  | case2 uncovered chosen nodes source more limit spent => cases spent
  | case3 uncovered chosen nodes source more _ after picked =>
      rw [chooseFrom_of_none (by simpa using more) allowed picked]
      exact .same left
  | case4 uncovered chosen nodes source more _ place after picked ih =>
      rw [chooseFrom_of_some (by simpa using more) allowed picked]
      have advanced := choosing.advance picked
      have length : (chosen ++ [place]).length = nodes + 1 := by simp [counted]
      rcases Nat.eq_or_lt_of_le left with rfl | left
      · have now := chooseFrom_cuts_now different advanced after
        rwa [length] at now
      · exact ih advanced length left (exhausted?_of_lt left)

end Grid

/-! ## Stages -/

/-- What a budget does to a stage: nothing if the stage takes no more work items without one, else
it cuts the stage with a partial set that the limit allows. -/
structure Stage.Limits (stage : Stage) (run : Option Nat → Pass) (Partial : Nat → CubeSet → Prop) :
    Prop where
  enough : ∀ limit, (run none).nodes ≤ limit → run (some limit) = run none
  short : ∀ limit < (run none).nodes,
    ∃ found next, run (some limit) = .cut stage limit found limit next ∧ Partial limit found

theorem Stage.limits_of_cuts {run : Option Nat → Pass} {Partial : Nat → CubeSet → Prop}
    (cuts : ∀ limit, Pass.Cuts stage limit (Partial limit) (run none) (run (some limit))) :
    stage.Limits run Partial where
  enough limit := (cuts limit).enough
  short limit := (cuts limit).short

theorem search_limits (scoring : Scoring) (onset offset : Rows) (source : Source) :
    Stage.search.Limits (search scoring onset offset · source) fun limit part =>
      part.size = limit ∧ (search scoring onset offset none source).Finds part := by
  apply Stage.limits_of_cuts
  intro limit
  rcases Nat.eq_zero_or_pos limit with rfl | left
  · exact searchFrom_cuts_now (.start onset)
  · exact searchFrom_cuts (.start onset) left

theorem expand_limits (scoring : Scoring) (offset : Rows) (implicants : CubeSet) (source : Source) :
    Stage.expansion.Limits (expand scoring offset implicants · source) fun _ =>
      (expand scoring offset implicants none source).Finds := by
  apply Stage.limits_of_cuts
  intro limit
  cases first : implicants.cubes.find? offset.meets with
  | some c =>
      rw [expand_of_meets first, expand_of_meets first]
      exact .same (Nat.zero_le limit)
  | none =>
      rw [expand_of_avoids first, expand_of_avoids first]
      rcases Nat.eq_zero_or_pos limit with rfl | left
      · exact expandFrom_cuts_now
      · exact expandFrom_cuts left

theorem cover_limits (onset : Rows) (primes : CubeSet) (source : Source) :
    Stage.covering.Limits (cover onset primes · source) fun limit part =>
      part ⊆ primes ∧ part.size = limit := by
  apply Stage.limits_of_cuts
  intro limit
  cases first : onset.minterms.find? (!primes.admits ·) with
  | some m =>
      rw [cover_of_uncoverable first, cover_of_uncoverable first]
      exact .same (Nat.zero_le limit)
  | none =>
      have different : (Grid.incidence onset primes).primes.toList.Nodup := primes.nodup_cubes
      have start := Grid.Choosing.start (Grid.incidence onset primes)
      rw [cover_of_coverable first, cover_of_coverable first,
        ← Grid.chosen_incidence onset primes limit]
      rcases Nat.eq_zero_or_pos limit with rfl | left
      · exact Grid.chooseFrom_cuts_now different start source
      · exact Grid.chooseFrom_cuts different start rfl left

/-- A refusal before the loop takes up no work item, so no budget hides it. -/
theorem expand_meets_budget
    (refused : (expand scoring offset implicants none source).result = .error (.unsafeImplicant c))
    (budget : Option Nat) :
    expand scoring offset implicants budget source = ⟨.error (.unsafeImplicant c), 0, source⟩ := by
  rcases expand_failure refused with ⟨d, first, same⟩ | within
  · cases same
    exact expand_of_meets first budget source
  · cases within

theorem cover_uncoverable_budget
    (refused : (cover onset primes none source).result = .error (.uncoverableMinterm m))
    (budget : Option Nat) :
    cover onset primes budget source = ⟨.error (.uncoverableMinterm m), 0, source⟩ := by
  rcases cover_failure refused with ⟨d, first, same⟩ | within
  · cases same
    exact cover_of_uncoverable first budget source
  · cases within

/-- A budget only cuts a stage short: one that allows the work items of the unlimited run leaves the
run as it is, and a smaller one stops it with that stage, that limit and a part of what it finds. -/
theorem stages_limited (scoring : Scoring) (onset offset : Rows) (implicants primes : CubeSet)
    (source : Source) :
    (Stage.search.Limits (search scoring onset offset · source) (fun limit part =>
        part.size = limit ∧ (search scoring onset offset none source).Finds part) ∧
      ∀ set, (search scoring onset offset none source).result = .ok set →
        (search scoring onset offset none source).nodes = set.size + 1) ∧
    (Stage.expansion.Limits (expand scoring offset implicants · source) (fun _ part =>
        (expand scoring offset implicants none source).Finds part) ∧
      ∀ c, (expand scoring offset implicants none source).result = .error (.unsafeImplicant c) →
        ∀ budget, expand scoring offset implicants budget source =
          ⟨.error (.unsafeImplicant c), 0, source⟩) ∧
    (Stage.covering.Limits (cover onset primes · source) (fun limit part =>
        part ⊆ primes ∧ part.size = limit) ∧
      ∀ m, (cover onset primes none source).result = .error (.uncoverableMinterm m) →
        ∀ budget, cover onset primes budget source =
          ⟨.error (.uncoverableMinterm m), 0, source⟩) := by
  refine ⟨⟨search_limits scoring onset offset source, ?_⟩,
    ⟨expand_limits scoring offset implicants source, ?_⟩,
    cover_limits onset primes source, ?_⟩
  · exact fun set run => nodes_searchFrom (.start onset) run
  · exact fun c refused budget => expand_meets_budget refused budget
  · exact fun m refused budget => cover_uncoverable_budget refused budget

/-- Without an offset a search takes two work items: a budget of two changes nothing, a budget of
one leaves the implicant that was found. The universal cube is expanded and chosen as one work item
each, which a budget of one allows and a budget of none does not. -/
theorem stages_limited_universal :
    let onset : Rows := ⟨1, [.ofBits [true]], by decide⟩
    let run := search .frequency onset (.empty 1)
    let expansion := expand .frequency (.empty 1) (.ofList [.universal])
    let covering := cover onset (.ofList [.universal])
    run (some 2) (.ofSeed 0) = run none (.ofSeed 0) ∧
    (∃ part next, run (some 1) (.ofSeed 0) = .cut .search 1 part 1 next ∧ part.size = 1) ∧
    expansion (some 1) (.ofSeed 0) = expansion none (.ofSeed 0) ∧
    (∃ part next, expansion (some 0) (.ofSeed 0) = .cut .expansion 0 part 0 next ∧
      (expansion none (.ofSeed 0)).Finds part) ∧
    covering (some 1) (.ofSeed 0) = covering none (.ofSeed 0) ∧
    ∃ part next, covering (some 0) (.ofSeed 0) = .cut .covering 0 part 0 next ∧ part.size = 0 := by
  intro onset run expansion covering
  obtain ⟨⟨searching, -⟩, ⟨expanding, -⟩, choosing, -⟩ :=
    stages_limited .frequency onset (.empty 1) (.ofList [.universal]) (.ofList [.universal])
      (.ofSeed 0)
  have found : (run none (.ofSeed 0)).nodes = 2 :=
    congrArg Pass.nodes (search_of_no_offset rfl (by decide) rfl)
  have expanded : (expansion none (.ofSeed 0)).nodes = 1 := by
    change (expand _ _ _ _ _).nodes = 1
    rw [expand_of_all_avoid (by decide)]
    change (expandFrom _ _ _ [.universal] _ _ _).nodes = 1
    rw [expandFrom_of_prime rfl (by decide), expandFrom_nil]
  have chosen : (covering none (.ofSeed 0)).nodes = 1 := by
    change (cover _ _ _ _).nodes = 1
    have rows : (Grid.incidence onset (.ofList [.universal])).rows = [[0]] := by
      rw [Grid.incidence, Rows.distinct_eq]
      decide
    rw [cover_of_coverable (by decide), rows]
    exact Nat.le_antisymm (Grid.nodes_chooseFrom_le _ none [[0]] [] 0 _)
      (Grid.lt_nodes_chooseFrom (by decide) _ [] 0 _)
  obtain ⟨part, next, cut, size, -⟩ := searching.short 1 (by rw [found]; decide)
  obtain ⟨early, after, stopped, finds⟩ := expanding.short 0 (by rw [expanded]; decide)
  obtain ⟨few, last, ended, -, none_chosen⟩ := choosing.short 0 (by rw [chosen]; decide)
  exact ⟨searching.enough 2 (Nat.le_of_eq found), ⟨part, next, cut, size⟩,
    expanding.enough 1 (Nat.le_of_eq expanded), ⟨early, after, stopped, finds⟩,
    choosing.enough 1 (Nat.le_of_eq chosen), few, last, ended, none_chosen⟩

end TwoLevel
