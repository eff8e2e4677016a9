import TwoLevel.Proofs.Choices
import TwoLevel.Proofs.DoubleOrder

/-!
The rule by which primes are chosen. In each state the prime that is picked alone holds as many of
the rows that are left as any prime does, and none of the primes that alone hold as many holds more
of them. An essential prime holds a row that no other prime holds, so as long as one is missing only
essential primes are picked, and none of them can be left out in the end.
-/

namespace TwoLevel

variable {onset : Rows} {primes set : CubeSet} {budget : Option Nat} {left cubes : List Cube}
  {c d e m : Cube} {source now next : Source}

/-! ## Primes and the minterms that they hold -/

namespace CubeSet

/-- The cube holds the minterm, and no other one of the primes does. -/
def Only (primes : CubeSet) (c m : Cube) : Prop :=
  c.admits m = true ∧ ∀ d ∈ primes.cubes, d.admits m = true → d = c

instance (primes : CubeSet) (c m : Cube) : Decidable (primes.Only c m) :=
  inferInstanceAs (Decidable (_ ∧ _))

/-- How many of the minterms the cube alone holds. -/
def aloneIn (primes : CubeSet) (left : List Cube) (c : Cube) : Nat :=
  left.countP fun m => primes.Only c m

/-- Of the primes that alone hold the most of the minterms, one that holds the most of them. -/
structure Greedy (primes : CubeSet) (left : List Cube) (c : Cube) : Prop where
  member : c ∈ primes
  alone : ∀ d ∈ primes, primes.aloneIn left d ≤ primes.aloneIn left c
  held : ∀ d ∈ primes, primes.aloneIn left d = primes.aloneIn left c →
    left.countP d.admits ≤ left.countP c.admits

/-- A prime that alone holds some row. -/
def Essential (primes : CubeSet) (onset : Rows) (c : Cube) : Prop :=
  c ∈ primes ∧ ∃ m ∈ onset.minterms, primes.Only c m

theorem Greedy.essential (greedy : primes.Greedy left c) (rows : ∀ m ∈ left, m ∈ onset.minterms)
    (prime : d ∈ primes) (only : primes.Only d m) (uncovered : m ∈ left) :
    primes.Essential onset c := by
  have some_alone : 0 < primes.aloneIn left d :=
    List.countP_pos_iff.2 ⟨m, uncovered, decide_eq_true only⟩
  obtain ⟨k, member, alone⟩ := List.countP_pos_iff.1 (some_alone.trans_le (greedy.alone d prime))
  exact ⟨greedy.member, k, rows k member, of_decide_eq_true alone⟩

theorem Essential.mem_of_covering (essential : primes.Essential onset c)
    (covering : Covering onset primes set) : c ∈ set := by
  obtain ⟨-, m, row, -, only⟩ := essential
  obtain ⟨d, member, inside⟩ := CubeSet.admits_iff.1 (covering.complete m row)
  exact only d (covering.chosen d member) inside ▸ member

end CubeSet

/-! ## Tallies over a grid -/

namespace Grid

variable {uncovered : List (List Nat)} {chosen before later : List Nat} {place other : Nat}

theorem nodup_holders (cubes : List Cube) (m : Cube) : (holders cubes m).Nodup := by
  have places : (cubes.zipIdx.map (·.2)).Nodup := by
    rw [List.zipIdx_map_snd]
    exact List.nodup_range'
  exact places.sublist (List.filter_sublist.map _)

theorem mem_holders_iff (located : primes.cubes[place]? = some c) :
    place ∈ holders primes.cubes m ↔ c.admits m = true := by
  rw [mem_holders]
  simp [located]

theorem place_eq (first : primes.cubes[place]? = some c) (second : primes.cubes[other]? = some c) :
    other = place := by
  have inside := (List.getElem?_eq_some_iff.1 second).1
  exact (List.getElem?_inj inside primes.nodup_cubes).1 (second.trans first.symm)

theorem length_holders_iff (located : primes.cubes[place]? = some c) (inside : c.admits m = true) :
    (holders primes.cubes m).length = 1 ↔ primes.Only c m := by
  have own : place ∈ holders primes.cubes m := (mem_holders_iff located).2 inside
  constructor
  · intro single
    obtain ⟨only, same⟩ := List.length_eq_one_iff.1 single
    refine ⟨inside, fun d member holds => ?_⟩
    obtain ⟨other, found⟩ := List.mem_iff_getElem?.1 member
    have listed := (mem_holders_iff found).2 holds
    rw [same, List.mem_singleton] at own listed
    rw [listed, ← own, located] at found
    exact (Option.some.inj found).symm
  · rintro ⟨-, only⟩
    have all : ∀ other ∈ holders primes.cubes m, other = place := by
      intro other listed
      obtain ⟨d, found, holds⟩ := mem_holders.1 listed
      rw [only d (List.mem_of_getElem? found) holds] at found
      exact place_eq located found
    have short : (holders primes.cubes m).length ≤ 1 :=
      (List.subperm_of_subset (nodup_holders _ m) fun other listed =>
        List.mem_singleton.2 (all other listed)).length_le
    exact le_antisymm short (List.length_pos_of_mem own)

theorem countP_flatten_holders (located : primes.cubes[place]? = some c) (left : List Cube) :
    (left.map (holders primes.cubes)).flatten.countP (· == place) = left.countP c.admits := by
  induction left with
  | nil => rfl
  | cons m rest ih =>
      rw [List.map_cons, List.flatten_cons, List.countP_append, ih, List.countP_cons, Nat.add_comm]
      congr 1
      change (holders primes.cubes m).count place = _
      rw [(nodup_holders primes.cubes m).count]
      exact if_congr (mem_holders_iff located) rfl rfl

theorem held_eq (located : primes.cubes[place]? = some c) (left : List Cube) :
    ((incidence onset primes).held (left.map (holders primes.cubes))).getD place 0 =
      left.countP c.admits := by
  have inside : place < (incidence onset primes).primes.size := by
    simpa [incidence] using (List.getElem?_eq_some_iff.1 located).1
  rw [held, getD_tally, if_pos inside]
  exact countP_flatten_holders located left

theorem alone_eq (located : primes.cubes[place]? = some c) (left : List Cube) :
    ((incidence onset primes).alone (left.map (holders primes.cubes))).getD place 0 =
      primes.aloneIn left c := by
  rw [alone, List.filter_map, held_eq located, CubeSet.aloneIn, List.countP_filter]
  refine List.countP_congr fun m _ => ?_
  simp only [Bool.and_eq_true, Function.comp_apply, decide_eq_true_eq]
  constructor
  · rintro ⟨inside, single⟩
    exact (length_holders_iff located inside).1 single
  · intro only
    exact ⟨only.1, (length_holders_iff located only.1).2 only⟩

/-! ## The minterms that are left -/

/-- The different rows that the primes chosen so far leave uncovered. -/
def leftBy (grid : Grid) (onset : Rows) (chosen : List Nat) : List Cube :=
  onset.distinct.filter (!(grid.cubes chosen).admits ·)

theorem mem_leftBy : m ∈ (incidence onset primes).leftBy onset chosen ↔
    m ∈ onset.minterms ∧ ∀ place ∈ chosen, place ∉ holders primes.cubes m := by
  rw [leftBy, List.mem_filter, Rows.mem_distinct, Bool.not_eq_true', Bool.eq_false_iff, ne_eq,
    cubes_incidence_admits]
  push Not
  rfl

theorem beyond_map_holders (place : Nat) (left : List Cube) :
    beyond place (left.map (holders primes.cubes)) =
      (left.filter fun m => !(holders primes.cubes m).contains place).map (holders primes.cubes) :=
  List.filter_map

theorem leftBy_concat (chosen : List Nat) (place : Nat) :
    (incidence onset primes).leftBy onset (chosen ++ [place]) =
      ((incidence onset primes).leftBy onset chosen).filter fun m =>
        !(holders primes.cubes m).contains place := by
  rw [leftBy, leftBy, List.filter_filter]
  refine List.filter_congr fun m _ => ?_
  rw [← Bool.not_or, Bool.not_inj_iff, Bool.eq_iff_iff, cubes_incidence_admits, Bool.or_eq_true,
    cubes_incidence_admits, List.contains_iff_mem]
  simp [or_and_right, exists_or, or_comm]

theorem Reaches.uncovered_eq
    (reaches : (incidence onset primes).Reaches source uncovered chosen now) :
    uncovered =
      ((incidence onset primes).leftBy onset chosen).map (holders primes.cubes) := by
  induction reaches with
  | start =>
      have all : (incidence onset primes).leftBy onset [] = onset.distinct := by
        refine List.filter_eq_self.2 fun m _ => ?_
        rw [Bool.not_eq_true', Bool.eq_false_iff, ne_eq, cubes_incidence_admits]
        simp
      rw [all]
      rfl
  | pick before more picked ih => rw [ih, beyond_map_holders, leftBy_concat]

/-! ## What is picked -/

theorem greedy_of_pick (located : primes.cubes[place]? = some c)
    (picked : (incidence onset primes).pick (left.map (holders primes.cubes)) now =
      (some place, next)) : primes.Greedy left c := by
  obtain ⟨score, scored, best⟩ := leaders_greatest (Source.mem_of_choose? picked)
  obtain ⟨alone, -, rfl⟩ := mem_scored.1 scored
  rw [held_eq located] at best
  rw [alone_eq located] at alone
  refine ⟨List.mem_of_getElem? located, fun d member => ?_, fun d member tied => ?_⟩
  · obtain ⟨other, found⟩ := List.mem_iff_getElem?.1 member
    have most := alone_le_most (incidence onset primes) (left.map (holders primes.cubes)) other
    rw [alone_eq found] at most
    exact most.trans_eq alone.symm
  · obtain ⟨other, found⟩ := List.mem_iff_getElem?.1 member
    rcases Nat.eq_zero_or_pos (left.countP d.admits) with none | some_held
    · exact none.trans_le (Nat.zero_le _)
    · refine best (other, left.countP d.admits) (mem_scored.2 ?_)
      rw [alone_eq found, held_eq found]
      exact ⟨tied.trans alone, some_held, rfl⟩

theorem getElem?_of_pick (picked : (incidence onset primes).pick uncovered now =
    (some place, next)) : ∃ c, primes.cubes[place]? = some c := by
  have inside := lt_size_of_pick picked
  exact ⟨_, List.getElem?_eq_getElem (by simpa [incidence] using inside)⟩

theorem Reaches.picked_at {grid : Grid}
    (reaches : grid.Reaches source uncovered (before ++ place :: later) now) :
    ∃ rows during after, grid.Reaches source rows before during ∧
      grid.pick rows during = (some place, after) := by
  generalize split : before ++ place :: later = chosen at reaches
  induction reaches generalizing later with
  | start => simp at split
  | @pick rows earlier during after last reached more picked ih =>
      rcases List.eq_nil_or_concat later with rfl | ⟨others, other, rfl⟩
      · obtain ⟨rfl, same⟩ := List.append_inj' split rfl
        cases same
        exact ⟨rows, during, after, reached, picked⟩
      · rw [List.concat_eq_append, ← List.cons_append, ← List.append_assoc] at split
        exact ih (List.append_inj' split rfl).1

theorem Reaches.essential_chosen
    (reaches : (incidence onset primes).Reaches source uncovered chosen now)
    (picked : (incidence onset primes).pick uncovered now = (some place, next))
    (located : primes.cubes[place]? = some c) (other : ¬ primes.Essential onset c)
    (essential : primes.Essential onset e) : ∃ q ∈ chosen, primes.cubes[q]? = some e := by
  -- Else the row of the essential prime is left, and so the prime picked alone holds one too.
  by_contra missing
  obtain ⟨prime, m, row, only⟩ := essential
  have uncovered_row : m ∈ (incidence onset primes).leftBy onset chosen := by
    refine mem_leftBy.2 ⟨row, fun q earlier lists => ?_⟩
    obtain ⟨d, found, holds⟩ := mem_holders.1 lists
    rw [only.2 d (List.mem_of_getElem? found) holds] at found
    exact missing ⟨q, earlier, found⟩
  rw [reaches.uncovered_eq] at picked
  exact other ((greedy_of_pick located picked).essential (fun k left => (mem_leftBy.1 left).1)
    prime only uncovered_row)

/-! ## Scores as doubles -/

theorem selectBest_ofNat {α : Type} {scored : List (α × Nat)}
    (small : ∀ entry ∈ scored, entry.2 < 2 ^ 53) (source : Source) :
    selectBest (scored.map fun entry => (entry.1, Float.ofNat entry.2)) source =
      source.choose? (leaders scored) := by
  have finite {n : Nat} (bound : n < 2 ^ 53) : (Float.ofNat n).isFinite = true :=
    (Double.approximates_ofNat (Double.natCast_le_greatest (bound.le.trans (by decide)))).finite
  have increasing : ∀ a b, a < 2 ^ 53 → b < 2 ^ 53 → (Float.ofNat a < Float.ofNat b ↔ a < b) := by
    intro a b first second
    rw [Double.lt_iff (finite first) (finite second), Double.value_ofNat first,
      Double.value_ofNat second, Nat.cast_lt]
  have all : eligible (scored.map fun entry => (entry.1, Float.ofNat entry.2)) =
      scored.map fun entry => (entry.1, Float.ofNat entry.2) := by
    refine List.filter_eq_self.2 fun entry member => ?_
    obtain ⟨counted, listed, rfl⟩ := List.mem_map.1 member
    exact finite (small counted listed)
  rw [selectBest, all, leaders_map increasing small]

theorem Reaches.pick_eq
    (reaches : (incidence onset primes).Reaches source uncovered chosen now)
    (small : onset.size < 2 ^ 53) :
    (incidence onset primes).pick uncovered now =
      selectBest (((incidence onset primes).scored uncovered).map fun entry =>
        (entry.1, Float.ofNat entry.2)) now := by
  refine (selectBest_ofNat (fun entry member => ?_) now).symm
  obtain ⟨place, score⟩ := entry
  obtain ⟨-, some_held, rfl⟩ := mem_scored.1 member
  have inside : place < primes.cubes.length := by
    simpa [incidence] using (held_pos.1 some_held).1
  rw [reaches.uncovered_eq, held_eq (List.getElem?_eq_getElem inside)]
  calc ((incidence onset primes).leftBy onset chosen).countP primes.cubes[place].admits
      ≤ ((incidence onset primes).leftBy onset chosen).length := List.countP_le_length
    _ ≤ onset.distinct.length := List.length_filter_le _ _
    _ ≤ onset.size := (List.subperm_of_subset onset.nodup_distinct fun m listed =>
        Rows.mem_distinct.1 listed).length_le
    _ < 2 ^ 53 := small

end Grid

/-- What happens in a state of a choice that has a row left: the choice goes on from here, and a
greedy prime is picked; with the scores as doubles, as long as they are exact, it is the same one. -/
structure Grid.PicksGreedily (grid : Grid) (onset : Rows) (primes : CubeSet) (source : Source)
    (uncovered : List (List Nat)) (chosen : List Nat) (now : Source) : Prop where
  onTheWay : grid.chooseFrom none grid.rows [] 0 source =
    grid.chooseFrom none uncovered chosen chosen.length now
  greedy : ∃ place after c, grid.pick uncovered now = (some place, after) ∧
    primes.cubes[place]? = some c ∧ primes.Greedy (grid.leftBy onset chosen) c
  asDoubles : onset.size < 2 ^ 53 → grid.pick uncovered now =
    selectBest ((grid.scored uncovered).map fun entry => (entry.1, Float.ofNat entry.2)) now

/-- All essential primes are among the choices, and before any other prime. -/
structure CubeSet.EssentialFirst (primes : CubeSet) (onset : Rows) (chosen : List Nat) : Prop where
  all : ∀ e, primes.Essential onset e → ∃ place ∈ chosen, primes.cubes[place]? = some e
  before : ∀ earlier place later c, chosen = earlier ++ place :: later →
    primes.cubes[place]? = some c → ¬ primes.Essential onset c →
      ∀ e, primes.Essential onset e → ∃ first ∈ earlier, primes.cubes[first]? = some e

/-- Each prime is picked greedily for the rows that are left. So the essential primes are picked
before any other one, and all of them are in the cover that is returned. -/
theorem cover_greedy {grid : Grid} (built : Grid.ofRows onset primes = .ok grid)
    (source : Source) :
    (∀ uncovered chosen now, grid.Reaches source uncovered chosen now → uncovered ≠ [] →
      grid.PicksGreedily onset primes source uncovered chosen now) ∧
    ∃ chosen next set, grid.Reaches source [] chosen next ∧
      cover onset primes none source = ⟨.ok set, chosen.length, next⟩ ∧
      set = grid.cubes (grid.irredundant chosen) ∧ primes.EssentialFirst onset chosen ∧
      ∀ e, primes.Essential onset e → e ∈ set := by
  obtain ⟨held, rfl⟩ := Grid.ofRows_eq_ok.1 built
  constructor
  · intro uncovered chosen now reaches more
    obtain ⟨place, after, picked, -⟩ :=
      reaches.pick_fresh (Grid.wellFormed_incidence held) more
    obtain ⟨c, located⟩ := Grid.getElem?_of_pick picked
    refine ⟨reaches.chooseFrom_eq, ⟨place, after, c, picked, located, ?_⟩, reaches.pick_eq⟩
    rw [reaches.uncovered_eq] at picked
    exact Grid.greedy_of_pick located picked
  · obtain ⟨chosen, next, reached, run⟩ := cover_of_held held source
    have kept : ∀ e, primes.Essential onset e → e ∈ _ := fun e essential =>
      essential.mem_of_covering (cover_ok (congrArg Pass.result run))
    refine ⟨chosen, next, _, reached, run, rfl, ⟨fun e essential => ?_, ?_⟩, kept⟩
    · obtain ⟨place, among, located⟩ := Grid.mem_cubes_incidence.1 (kept e essential)
      exact ⟨place, Grid.mem_of_mem_irredundant among, located⟩
    · rintro earlier place later c rfl located other e essential
      obtain ⟨rows, during, after, before, picked⟩ := reached.picked_at
      exact before.essential_chosen picked located other essential

def chainRows : Rows :=
  ⟨2, [.ofBits [false, false], .ofBits [false, true], .ofBits [true, true]], by decide⟩

def chainPrimes : CubeSet :=
  .ofList [.ofLiterals [.complement 0], .ofLiterals [.normal 1], .ofBits [false, true]]

/-- Two of the cubes hold a row that no other one holds, and both are kept. -/
theorem cover_greedy_chain :
    ∃ set nodes next, cover chainRows chainPrimes none (.ofSeed 0) = ⟨.ok set, nodes, next⟩ ∧
      .ofLiterals [.complement 0] ∈ set ∧ .ofLiterals [.normal 1] ∈ set := by
  have held : ∀ m ∈ chainRows.minterms, chainPrimes.admits m = true := by decide
  obtain ⟨chosen, next, set, -, run, -, -, kept⟩ :=
    (cover_greedy (Grid.ofRows_eq_ok.2 ⟨held, rfl⟩) (.ofSeed 0)).2
  refine ⟨set, chosen.length, next, run, kept _ ⟨by decide, ?_⟩, kept _ ⟨by decide, ?_⟩⟩
  · exact ⟨.ofBits [false, false], by decide, by decide⟩
  · exact ⟨.ofBits [true, true], by decide, by decide⟩

end TwoLevel
