import TwoLevel.Solution
import TwoLevel.Proofs.Frequency
import TwoLevel.Proofs.Search
import TwoLevel.Proofs.Expansion

/-!
Searches and expansions on reordered rows. The onset may be permuted, and of the offset only the set
of its rows matters: if the scores do not depend on more, the same candidates are offered at each
draw, so the same words are drawn and the same cubes found.
-/

namespace TwoLevel

variable {scoring : Scoring} {rows other : Rows} {onset onset' offset offset' : Rows}
  {remainder remainder' : Rows} {budget : Option Nat} {implicants primes found : CubeSet}
  {queue : List Cube} {nodes : Nat} {c : Cube} {source : Source}

theorem any_eq_of_mem_iff {α : Type} {l k : List α} (same : ∀ a, a ∈ l ↔ a ∈ k) (p : α → Bool) :
    l.any p = k.any p := by
  rw [Bool.eq_iff_iff, List.any_eq_true, List.any_eq_true]
  exact exists_congr fun a => and_congr_left fun _ => same a

namespace Rows

/-- The same rows in another order. -/
structure Reordered (rows other : Rows) : Prop where
  arity : rows.arity = other.arity
  perm : rows.minterms.Perm other.minterms

/-- The same rows in any order and with any repetitions. -/
structure SameMinterms (rows other : Rows) : Prop where
  arity : rows.arity = other.arity
  mem : ∀ m, m ∈ rows.minterms ↔ m ∈ other.minterms

namespace Reordered

theorem sameMinterms (same : rows.Reordered other) : rows.SameMinterms other where
  arity := same.arity
  mem _ := same.perm.mem_iff

theorem size_eq (same : rows.Reordered other) : rows.size = other.size := same.perm.length_eq

theorem isEmpty_eq (same : rows.Reordered other) : rows.isEmpty = other.isEmpty :=
  same.perm.isEmpty_eq

theorem filter (same : rows.Reordered other) (keep : Cube → Bool) :
    (rows.filter keep).Reordered (other.filter keep) where
  arity := same.arity
  perm := same.perm.filter keep

end Reordered

namespace SameMinterms

theorem meets_eq (same : rows.SameMinterms other) : rows.meets = other.meets := by
  funext c
  exact any_eq_of_mem_iff same.mem c.admits

theorem leastDistance?_eq (same : rows.SameMinterms other) (c : Cube) :
    rows.leastDistance? c = other.leastDistance? c := by
  apply Option.ext
  intro least
  rw [leastDistance?_eq_some, leastDistance?_eq_some]
  simp only [same.mem]

theorem removable_eq (same : rows.SameMinterms other) (c : Cube) :
    rows.removable c = other.removable c := by
  simp only [removable, List.any_map]
  apply List.filter_congr
  intro l _
  rw [any_eq_of_mem_iff same.mem]

end SameMinterms

end Rows

/-! ## Scores -/

/-- Scores that depend neither on the order of the rows to be covered nor on more than the set of
the rows of the offset. -/
structure Scoring.Orderless (scoring : Scoring) : Prop where
  growth : ∀ (c : Cube) {rows other : Rows}, rows.Reordered other →
    scoring.growth c rows = scoring.growth c other
  removal : ∀ (c : Cube) (candidates : List Literal) {rows other : Rows}, rows.SameMinterms other →
    scoring.removal c candidates rows = scoring.removal c candidates other

namespace Scoring

theorem frequencyOf_reordered (same : rows.Reordered other) (c : Cube) :
    frequencyOf c rows = frequencyOf c other := by
  funext l
  exact (same.perm.filter c.admits).countP_eq (·.contains l)

theorem counts_reordered (same : rows.Reordered other) (c : Cube) :
    counts c rows = counts c other := by
  rw [counts_eq, counts_eq, frequencyOf_reordered same, same.arity]

theorem distanceWithout_sameMinterms (same : rows.SameMinterms other) (c : Cube) :
    distanceWithout c rows = distanceWithout c other := by
  funext l
  simp only [distanceWithout, same.leastDistance?_eq]

theorem orderless_frequency : frequency.Orderless where
  growth c rows other same := by
    change frequencyGrowth c rows = frequencyGrowth c other
    rw [frequencyGrowth, counts_reordered same]
    rfl
  removal c candidates rows other same := by
    change distanceRemoval c candidates rows = distanceRemoval c candidates other
    rw [distanceRemoval, distancesWithout_eq, distanceWithout_sameMinterms same,
      ← distancesWithout_eq]
    rfl

theorem Orderless.freeGrowth (orderless : scoring.Orderless) (c : Cube)
    (same : rows.Reordered other) : scoring.freeGrowth c rows = scoring.freeGrowth c other := by
  rw [Scoring.freeGrowth, orderless.growth c same]
  rfl

theorem Orderless.safeRemoval (orderless : scoring.Orderless) (c : Cube)
    (same : rows.SameMinterms other) :
    scoring.safeRemoval c (rows.removable c) rows =
      scoring.safeRemoval c (other.removable c) other := by
  rw [same.removable_eq, Scoring.safeRemoval, orderless.removal c _ same]
  rfl

end Scoring

/-! ## Searches -/

theorem growFrom_reordered (orderless : scoring.Orderless) (on : remainder.Reordered remainder')
    (off : offset.SameMinterms offset') (c : Cube) (source : Source) :
    growFrom scoring remainder' offset' c source = growFrom scoring remainder offset c source := by
  fun_induction growFrom scoring remainder offset c source with
  | case1 c source meets after chosen =>
      rw [orderless.freeGrowth c on] at chosen
      rw [off.meets_eq] at meets
      exact growFrom_of_none meets chosen
  | case2 c source meets l after chosen ih =>
      rw [orderless.freeGrowth c on] at chosen
      rw [off.meets_eq] at meets
      rw [growFrom_of_some meets chosen]
      exact ih
  | case3 c source avoids =>
      rw [off.meets_eq] at avoids
      exact growFrom_of_avoids (by simpa using avoids)

theorem grow_reordered (orderless : scoring.Orderless) (on : remainder.Reordered remainder')
    (off : offset.SameMinterms offset') (source : Source) :
    grow scoring remainder' offset' source = grow scoring remainder offset source :=
  growFrom_reordered orderless on off .universal source

theorem searchFrom_reordered (orderless : scoring.Orderless) (on : remainder.Reordered remainder')
    (off : offset.SameMinterms offset') (budget : Option Nat) (found : CubeSet) (nodes : Nat)
    (source : Source) : searchFrom scoring offset' budget remainder' found nodes source =
      searchFrom scoring offset budget remainder found nodes source := by
  fun_induction searchFrom scoring offset budget remainder found nodes source
    generalizing remainder' with
  | case1 remainder found nodes source limit spent => exact searchFrom_of_exhausted spent
  | case2 remainder found nodes source allowed done =>
      rw [on.isEmpty_eq] at done
      exact searchFrom_of_isEmpty allowed done
  | case3 remainder found nodes source allowed more failure after stuck =>
      rw [on.isEmpty_eq, Bool.not_eq_true] at more
      rw [← grow_reordered orderless on off] at stuck
      exact searchFrom_of_error allowed more stuck
  | case4 remainder found nodes source allowed more c after grown rest smaller =>
      rename_i ih
      rw [on.isEmpty_eq, Bool.not_eq_true] at more
      rw [← grow_reordered orderless on off] at grown
      have fewer := on.filter (!c.admits ·)
      rw [searchFrom_of_ok allowed more grown, if_pos (by rwa [← fewer.size_eq, ← on.size_eq])]
      exact ih fewer
  | case5 remainder found nodes source allowed more c after grown rest =>
      rename_i stays
      rw [on.isEmpty_eq, Bool.not_eq_true] at more
      rw [← grow_reordered orderless on off] at grown
      have fewer := on.filter (!c.admits ·)
      rw [searchFrom_of_ok allowed more grown, if_neg (by rwa [← fewer.size_eq, ← on.size_eq])]

theorem searchSeeds_reordered (orderless : scoring.Orderless) (on : onset.Reordered onset')
    (off : offset.SameMinterms offset') (budget : Option Nat) (seeds : List UInt64)
    (workers : Nat) : searchSeeds scoring onset' offset' budget seeds workers =
      searchSeeds scoring onset offset budget seeds workers := by
  have each : searchSeed scoring onset' offset' budget =
      searchSeed scoring onset offset budget := by
    funext seed
    exact congrArg Pass.result (searchFrom_reordered orderless on off budget ∅ 0 (.ofSeed seed))
  simp only [searchSeeds, each]

/-! ## Expansions -/

theorem expandFrom_sameMinterms (orderless : scoring.Orderless) (off : offset.SameMinterms offset')
    (budget : Option Nat) (queue : List Cube) (primes : CubeSet) (nodes : Nat) (source : Source) :
    expandFrom scoring offset' budget queue primes nodes source =
      expandFrom scoring offset budget queue primes nodes source := by
  fun_induction expandFrom scoring offset budget queue primes nodes source with
  | case1 primes nodes source => exact expandFrom_nil scoring offset' budget primes nodes source
  | case2 primes nodes source c rest limit spent => exact expandFrom_of_exhausted spent
  | case3 primes nodes source c rest allowed candidates none_left ih =>
      rw [expandFrom_of_prime allowed (by rw [← off.removable_eq]; simpa using none_left)]
      exact ih
  | case4 primes nodes source c rest allowed candidates more after chosen =>
      rw [orderless.safeRemoval c off] at chosen
      exact expandFrom_of_none allowed (by rw [← off.removable_eq]; simpa using more) chosen
  | case5 primes nodes source c rest allowed candidates more l after chosen ih =>
      rw [orderless.safeRemoval c off] at chosen
      rw [expandFrom_of_some allowed (by rw [← off.removable_eq]; simpa using more) chosen]
      exact ih

theorem expand_sameMinterms (orderless : scoring.Orderless) (off : offset.SameMinterms offset')
    (implicants : CubeSet) (budget : Option Nat) (source : Source) :
    expand scoring offset' implicants budget source =
      expand scoring offset implicants budget source := by
  unfold expand
  rw [off.meets_eq]
  cases implicants.cubes.find? offset'.meets with
  | some c => rfl
  | none => exact expandFrom_sameMinterms orderless off budget implicants.cubes ∅ 0 source

end TwoLevel
