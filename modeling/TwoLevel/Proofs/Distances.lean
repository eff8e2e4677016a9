import TwoLevel.Proofs.Containment
import TwoLevel.Proofs.Offers
import TwoLevel.Proofs.Scaling
import Mathlib.InformationTheory.Hamming

/-!
How near a cube is to a row. The number of literals that the row lacks is the least number of
variables in which it differs from a minterm of the cube. So a cube meets the rows exactly if it is at
distance zero from them, and a literal can go exactly if the rest keeps a distance; without it the
cube is as far from the rows as before, or one step nearer.
-/

namespace TwoLevel

namespace Cube

variable {c d k m : Cube} {l : Literal} {n : Nat} {default : Nat → Polarity}

/-! ## Distance as a number of variables -/

/-- What the cube asks of each of the first `n` variables. -/
def polarities (c : Cube) (n : Nat) : Fin n → Option Polarity := fun var => c.polarityOf? var

/-- The number of the first `n` variables in which two minterms differ. -/
def hamming (n : Nat) (k m : Cube) : Nat := hammingDist (k.polarities n) (m.polarities n)

def differing (n : Nat) (k m : Cube) : Finset Nat :=
  (Finset.range n).filter fun var => k.polarityOf? var ≠ m.polarityOf? var

theorem hamming_eq (n : Nat) (k m : Cube) : hamming n k m = (differing n k m).card := by
  rw [hamming, hammingDist, differing, Finset.card_filter, Finset.card_filter]
  exact Fin.sum_univ_eq_sum_range
    (fun var => if k.polarityOf? var ≠ m.polarityOf? var then 1 else 0) n

def missingVars (c m : Cube) : Finset Nat := ((c.missing m).map (·.var)).toFinset

theorem mem_missingVars {var : Nat} :
    var ∈ c.missingVars m ↔ ∃ l ∈ c.literals, l ∉ m.literals ∧ l.var = var := by
  simp [missingVars, and_assoc]

theorem distance_eq_card (c m : Cube) : c.distance m = (c.missingVars m).card := by
  have apart : ((c.missing m).map (·.var)).Nodup := by
    rw [missing_eq, List.Nodup, List.pairwise_map]
    exact (c.ascending.filter _).imp Nat.ne_of_lt
  rw [missingVars, List.toFinset_card_of_nodup apart, List.length_map, distance_eq_length_missing]

/-- A minterm of the cube differs from the other one in each variable on which the cube misses it. -/
theorem distance_le_hamming (below : ∀ l ∈ c.literals, l.var < n) (inside : c.admits k = true) :
    c.distance m ≤ hamming n k m := by
  rw [distance_eq_card, hamming_eq]
  apply Finset.card_le_card
  intro var missed
  obtain ⟨l, member, absent, rfl⟩ := mem_missingVars.1 missed
  have held := polarityOf?_eq_some.2 (admits_iff.1 inside l member)
  refine Finset.mem_filter.2 ⟨Finset.mem_range.2 (below l member), fun same => absent ?_⟩
  exact polarityOf?_eq_some.1 (same ▸ held)

theorem polarityOf?_completed {var : Nat} (below : var < n) :
    (c.completed n default).polarityOf? var = some ((c.polarityOf? var).getD (default var)) :=
  polarityOf?_eq_some.2 (mem_completed.2 ⟨below, rfl⟩)

/-- The nearest minterm of the cube follows the other one where the cube leaves a variable free. -/
def nearest (c : Cube) (n : Nat) (m : Cube) : Cube :=
  c.completed n fun var => (m.polarityOf? var).getD .normal

theorem hamming_nearest_le (minterm : m.IsMinterm n) :
    hamming n (c.nearest n m) m ≤ c.distance m := by
  rw [distance_eq_card, hamming_eq]
  apply Finset.card_le_card
  intro var differs
  obtain ⟨low, other⟩ := Finset.mem_filter.1 differs
  have below := Finset.mem_range.1 low
  obtain ⟨l, member, rfl⟩ := exists_literal_of_lt minterm below
  rw [nearest, polarityOf?_completed below, polarityOf?_eq_some.2 member, Option.getD_some] at other
  cases asked : c.polarityOf? l.var with
  | none => exact absurd (by rw [asked, Option.getD_none]) other
  | some p =>
      have own := polarityOf?_eq_some.1 asked
      rw [asked, Option.getD_some] at other
      refine mem_missingVars.2 ⟨⟨l.var, p⟩, own, fun shared => other ?_, rfl⟩
      exact congrArg some (congrArg Literal.polarity (eq_of_var_eq shared member rfl))

theorem distance_isLeast (below : ∀ l ∈ c.literals, l.var < n) (minterm : m.IsMinterm n) :
    IsLeast {d | ∃ k : Cube, k.IsMinterm n ∧ c.admits k = true ∧ hamming n k m = d}
      (c.distance m) := by
  have inside : c.admits (c.nearest n m) = true := completed_admits below
  have reached := le_antisymm (hamming_nearest_le minterm) (distance_le_hamming below inside)
  refine ⟨⟨c.nearest n m, c.isMinterm_completed n _, inside, reached⟩, ?_⟩
  rintro _ ⟨k, -, held, rfl⟩
  exact distance_le_hamming below held

/-! ## Distance and removal -/

theorem distance_eq_zero : c.distance m = 0 ↔ c.admits m = true := by
  rw [distance_eq, List.countP_eq_zero, admits_iff]
  simp

theorem distance_erase_le (c m : Cube) (l : Literal) :
    (c.erase l).distance m ≤ c.distance m ∧ c.distance m ≤ (c.erase l).distance m + 1 := by
  rw [distance_erase]
  split <;> omega

end Cube

namespace Rows

variable {rows : Rows} {c : Cube} {l : Literal} {least : Nat}

theorem meets_branches (rows : Rows) (c : Cube) :
    rows.meets c = if c.isUniversal then !rows.isEmpty else rows.minterms.any c.covers := by
  cases proper : c.isUniversal with
  | true =>
      cases listed : rows.minterms <;> simp [meets, isEmpty, Cube.admits, proper, listed]
  | false =>
      have same : c.admits = c.covers := by
        funext m
        rw [Cube.admits, proper, Bool.false_or]
      rw [meets, same]
      rfl

theorem meets_iff_leastDistance? : rows.meets c = true ↔ rows.leastDistance? c = some 0 := by
  simp only [meets_iff, leastDistance?_eq_some, Cube.distance_eq_zero, Nat.zero_le, implies_true,
    and_true]

theorem exists_leastDistance? (some_row : rows.minterms ≠ []) (c : Cube) :
    ∃ least, rows.leastDistance? c = some least :=
  Option.ne_none_iff_exists'.1 fun none => some_row (leastDistance?_eq_none.1 none)

theorem removable_eq (rows : Rows) (c : Cube) :
    rows.removable c = c.literals.filter fun l => !rows.meets (c.erase l) := by
  refine List.filter_congr fun l member => ?_
  have tested : l ∈ rows.removable c ↔ _ := mem_removable
  simp only [removable, List.mem_filter, member, true_and] at tested
  rw [Bool.eq_iff_iff, tested, Bool.not_eq_true']

/-- Without a literal the cube is as near to the rows as before, or one step nearer. -/
theorem leastDistance?_erase (found : rows.leastDistance? c = some least) (l : Literal) :
    ∃ near, rows.leastDistance? (c.erase l) = some near ∧ (near = least ∨ near + 1 = least) := by
  obtain ⟨⟨m, member, reached⟩, below⟩ := leastDistance?_eq_some.1 found
  obtain ⟨near, other⟩ := exists_leastDistance? (List.ne_nil_of_mem member) (c.erase l)
  obtain ⟨⟨k, inside, reached'⟩, below'⟩ := leastDistance?_eq_some.1 other
  have down := (below' m member).trans (c.distance_erase_le m l).1
  have up := (below k inside).trans (c.distance_erase_le k l).2
  exact ⟨near, other, by omega⟩

/-! ## All tests -/

/-- What the score of a literal says about the cube without the literal, where the cube itself is at
distance `least`. -/
structure Scores (rows : Rows) (c : Cube) (least : Nat) (entry : Literal × Float) : Prop where
  safe : entry.1 ∈ c.literals → (entry.1 ∈ rows.removable c ↔ 1 ≤ entry.2)
  near : ∃ distance, rows.leastDistance? (c.erase entry.1) = some distance ∧
    entry.2 = .ofNat distance ∧ (distance = least ∨ distance + 1 = least)

theorem scores_of_mem (found : rows.leastDistance? c = some least) {candidates : List Literal}
    {entry : Literal × Float} (scored : entry ∈ Scoring.distanceRemoval c candidates rows) :
    rows.Scores c least entry := by
  rw [Scoring.distanceRemoval_eq] at scored
  obtain ⟨l, -, rfl⟩ := List.mem_map.1 scored
  obtain ⟨near, without, close⟩ := leastDistance?_erase found l
  have score : Scoring.distanceWithout c rows l = near := by
    rw [Scoring.distanceWithout, without, Option.getD_some]
  refine ⟨fun member => ?_, near, without, by rw [score], close⟩
  rw [mem_removable, score, Double.one_le_ofNat_iff, and_iff_right member, ← Bool.not_eq_true,
    meets_iff_leastDistance?, without, Option.some.injEq, Nat.one_le_iff_ne_zero]

/-- The tests of how near a cube is to the rows say the same. -/
structure Agrees (rows : Rows) (c : Cube) : Prop where
  /-- The universal cube meets every table that has a row, any other one a row that it covers. -/
  branches : rows.meets c =
    if c.isUniversal then !rows.isEmpty else rows.minterms.any c.covers
  within : rows.meets c = true ↔ rows.within c ≠ []
  touches : rows.meets c = true ↔ rows.leastDistance? c = some 0
  /-- The literals that can go are those without which the cube does not meet the rows. -/
  removable : rows.removable c = c.literals.filter fun l => !rows.meets (c.erase l)
  free : rows.minterms = [] → rows.removable c = c.literals
  /-- Each candidate is scored once. -/
  scored : ∀ candidates, (Scoring.distanceRemoval c candidates rows).map (·.1) = candidates
  scores : rows.minterms ≠ [] → ∃ least, rows.leastDistance? c = some least ∧
    ∀ candidates, ∀ entry ∈ Scoring.distanceRemoval c candidates rows, rows.Scores c least entry

theorem agrees (rows : Rows) (c : Cube) : rows.Agrees c where
  branches := rows.meets_branches c
  within := by simp [meets_iff, Rows.within]
  touches := meets_iff_leastDistance?
  removable := rows.removable_eq c
  free := fun none => by simp [removable_eq, meets, none]
  scored := fun candidates => by
    rw [Scoring.distanceRemoval_eq, List.map_map]
    exact List.map_id candidates
  scores := fun some_row =>
    (exists_leastDistance? some_row c).imp fun _ found =>
      ⟨found, fun _ _ scored => scores_of_mem found scored⟩

/-- For all rows and cubes the tests agree, and the distance of a cube to a minterm is the least number
of variables in which a minterm of the cube differs from it. -/
theorem distances_agree (rows : Rows) (c : Cube) :
    rows.Agrees c ∧ ∀ n m, (∀ l ∈ c.literals, l.var < n) → m.IsMinterm n →
      IsLeast {d | ∃ k : Cube, k.IsMinterm n ∧ c.admits k = true ∧ Cube.hamming n k m = d}
        (c.distance m) :=
  ⟨rows.agrees c, fun _ _ => Cube.distance_isLeast⟩

def opposedRows : Rows :=
  ⟨3, [.ofBits [false, true, true], .ofBits [true, false, false]], by decide⟩

/-- Without `x0` the minterm `111` falls on a row, without `x1` it stays away from both. -/
theorem distances_agree_opposed :
    (∀ score, (.normal 0, score) ∈ Scoring.distanceRemoval (.ofBits [true, true, true])
      [.normal 0, .normal 1] opposedRows → ¬ 1 ≤ score) ∧
    (∀ score, (.normal 1, score) ∈ Scoring.distanceRemoval (.ofBits [true, true, true])
      [.normal 0, .normal 1] opposedRows → 1 ≤ score) ∧
    IsLeast {d | ∃ k : Cube, k.IsMinterm 3 ∧
      (Cube.ofLiterals [.normal 0, .normal 2]).admits k = true ∧
        Cube.hamming 3 k (.ofBits [false, true, false]) = d} 2 := by
  obtain ⟨least, -, scores⟩ :=
    (distances_agree opposedRows (.ofBits [true, true, true])).1.scores (by decide)
  have nearest := (distances_agree opposedRows (.ofLiterals [.normal 0, .normal 2])).2 3
    (.ofBits [false, true, false]) (by decide) (by decide)
  have own : Literal.normal 0 ∈ (Cube.ofBits [true, true, true]).literals := by decide
  have own' : Literal.normal 1 ∈ (Cube.ofBits [true, true, true]).literals := by decide
  have kept : Literal.normal 0 ∉ opposedRows.removable (.ofBits [true, true, true]) := by decide
  have safe : Literal.normal 1 ∈ opposedRows.removable (.ofBits [true, true, true]) := by decide
  refine ⟨fun score scored reached => ?_, fun score scored => ?_, nearest⟩
  · exact kept (((scores _ _ scored).safe own).2 reached)
  · exact ((scores _ _ scored).safe own').1 safe

end Rows

end TwoLevel
