import Mathlib.Algebra.BigOperators.Intervals
import TwoLevel.Proofs.CoverOrder
import TwoLevel.Proofs.Edges
import TwoLevel.Proofs.Ranks

/-!
The graph of the variables of a table. Two variables meet in the rows in which both are normal. They
are joined if they meet at all, or, with a density, if they meet more often than the pair that stands
at the cut of the descending list.
-/

namespace TwoLevel

variable {rows other : Rows} {m : Cube} {list : List Nat} {a b i j n : Nat}
  {density : Option Float} {ids : IdSequence}

/-! ## Pairs of normal variables -/

theorem count_pairs (ascending : list.Pairwise (· < ·)) :
    (pairs list).count (a, b) = if a ∈ list ∧ b ∈ list ∧ a < b then 1 else 0 := by
  induction list with
  | nil => simp [pairs]
  | cons x rest ih =>
      obtain ⟨head, tail⟩ := List.pairwise_cons.1 ascending
      have distinct : rest.Nodup := tail.imp fun less => less.ne
      rw [pairs, List.count_append, ih tail]
      by_cases first : a = x
      · subst first
        have absent : a ∉ rest := fun member => Nat.lt_irrefl _ (head a member)
        rw [List.count_map_of_injective rest _ (Prod.mk_right_injective a), distinct.count]
        by_cases second : b ∈ rest
        · simp [absent, second, head b second]
        · have : ¬(b = a ∧ a < b) := by omega
          by_cases same : b = a <;> simp [absent, second, same]
      · have none : (rest.map (x, ·)).count (a, b) = 0 := by
          rw [List.count_eq_zero, List.mem_map]
          rintro ⟨y, -, same⟩
          exact first (congrArg Prod.fst same).symm
        rw [none, Nat.zero_add]
        by_cases later : a ∈ rest
        · have := head a later
          simp only [List.mem_cons, first, false_or, later, true_and]
          rcases eq_or_ne b x with rfl | second
          · simp [this.not_gt]
          · simp [second]
        · simp [first, later]

namespace Cube

theorem pairwise_normals (m : Cube) : m.normals.Pairwise (· < ·) := by
  rw [normals, List.pairwise_map]
  exact m.ascending.filter _

theorem mem_normals {var : Nat} : var ∈ m.normals ↔ m.contains (.normal var) = true := by
  rw [normals, List.mem_map, contains_iff]
  constructor
  · rintro ⟨⟨var, polarity⟩, member, rfl⟩
    obtain ⟨inside, normal⟩ := List.mem_filter.1 member
    cases polarity with
    | complement => cases normal
    | normal => exact inside
  · intro inside
    exact ⟨.normal var, List.mem_filter.2 ⟨inside, rfl⟩, rfl⟩

end Cube

namespace Rows

/-- In how many rows both variables are normal. -/
def meetings (rows : Rows) (i j : Nat) : Nat :=
  rows.minterms.countP fun m => m.contains (.normal i) && m.contains (.normal j)

/-- The numbers of meetings of all pairs of variables. -/
def pairMeetings (rows : Rows) : List Nat :=
  (List.range rows.arity).flatMap fun i =>
    ((List.range rows.arity).filter (i < ·)).map (rows.meetings i)

/-- The same together with a zero for each variable, the greatest first. -/
def ranking (rows : Rows) : List Nat :=
  descending (rows.pairMeetings ++ List.replicate rows.arity 0)

theorem count_pairs_normals (rows : Rows) (less : i < j) :
    (rows.minterms.map fun m => pairs m.normals).flatten.count (i, j) = rows.meetings i j := by
  rw [meetings]
  induction rows.minterms with
  | nil => rfl
  | cons m rest ih =>
      rw [List.map_cons, List.flatten_cons, List.count_append, ih, List.countP_cons,
        count_pairs m.pairwise_normals, Nat.add_comm]
      simp [Cube.mem_normals, less]

theorem not_mem_pairs_normals (rows : Rows) (notLess : ¬i < j) :
    (i, j) ∉ (rows.minterms.map fun m => pairs m.normals).flatten := by
  intro member
  obtain ⟨_, listed, inside⟩ := List.mem_flatten.1 member
  obtain ⟨m, -, rfl⟩ := List.mem_map.1 listed
  have positive := List.count_pos_iff.2 inside
  rw [count_pairs m.pairwise_normals, if_neg (fun both => notLess both.2.2)] at positive
  exact Nat.lt_irrefl 0 positive

theorem lt_arity_of_mem_pairs {pair : Nat × Nat}
    (member : pair ∈ (rows.minterms.map fun m => pairs m.normals).flatten) :
    pair.1 < rows.arity ∧ pair.2 < rows.arity := by
  obtain ⟨_, listed, inside⟩ := List.mem_flatten.1 member
  obtain ⟨m, row, rfl⟩ := List.mem_map.1 listed
  have positive := List.count_pos_iff.2 inside
  rw [count_pairs m.pairwise_normals] at positive
  split at positive
  · rename_i both
    have below {var : Nat} (normal : var ∈ m.normals) : var < rows.arity :=
      Cube.var_lt_of_mem (rows.complete m row) (Cube.contains_iff.1 (Cube.mem_normals.1 normal))
    exact ⟨below both.1, below both.2.1⟩
  · exact absurd positive (Nat.lt_irrefl 0)

theorem place_injective {n a b i j : Nat} (second : b < n) (other : j < n)
    (same : a * n + b = i * n + j) : a = i ∧ b = j := by
  have high := congrArg (· / n) same
  have low := congrArg (· % n) same
  have positive : 0 < n := by omega
  simp only [Nat.mul_comm _ n, Nat.mul_add_div positive, Nat.div_eq_of_lt second,
    Nat.div_eq_of_lt other, Nat.mul_add_mod, Nat.mod_eq_of_lt second, Nat.mod_eq_of_lt other,
    Nat.add_zero] at high low
  exact ⟨high, low⟩

theorem size_tally {α : Type} (size : Nat) (key : α → Nat) (lists : List (List α)) :
    (tally size key lists).size = size := by
  have bumped (list : List α) (counts : Array Nat) :
      (list.foldl (fun counts a => bump counts (key a)) counts).size = counts.size := by
    induction list generalizing counts with
    | nil => rfl
    | cons a rest ih => rw [List.foldl_cons, ih, bump, Array.size_modify]
  rw [tally, ← List.foldl_flatten, bumped, Array.size_replicate]

/-- How often two variables meet, by the place of the pair in the tally. -/
theorem tally_pairs (rows : Rows) (first : i < rows.arity) (second : j < rows.arity) :
    (tally (rows.arity * rows.arity) (fun pair => pair.1 * rows.arity + pair.2)
      (rows.minterms.map fun m => pairs m.normals))[i * rows.arity + j]? =
        some (if i < j then rows.meetings i j else 0) := by
  have inside : i * rows.arity + j < rows.arity * rows.arity :=
    calc i * rows.arity + j < (i + 1) * rows.arity := by rw [Nat.succ_mul]; omega
      _ ≤ rows.arity * rows.arity := Nat.mul_le_mul_right _ first
  have counted := getD_tally (rows.arity * rows.arity)
    (fun pair : Nat × Nat => pair.1 * rows.arity + pair.2)
    (rows.minterms.map fun m => pairs m.normals) (i * rows.arity + j)
  have same : (rows.minterms.map fun m => pairs m.normals).flatten.countP
      (fun pair => pair.1 * rows.arity + pair.2 == i * rows.arity + j) =
        (rows.minterms.map fun m => pairs m.normals).flatten.count (i, j) := by
    apply List.countP_congr
    intro pair member
    have := (lt_arity_of_mem_pairs member).2
    rw [beq_iff_eq, beq_iff_eq]
    constructor
    · intro equal
      exact Prod.ext_iff.2 (place_injective this second equal)
    · rintro rfl
      rfl
  rw [if_pos inside, same, Array.getD_eq_getD_getElem?] at counted
  have sized := size_tally (rows.arity * rows.arity)
    (fun pair : Nat × Nat => pair.1 * rows.arity + pair.2)
    (rows.minterms.map fun m => pairs m.normals)
  rw [Array.getElem?_eq_getElem (sized.symm ▸ inside)] at counted ⊢
  rw [Option.getD_some] at counted
  rw [counted]
  split
  · rename_i less
    rw [rows.count_pairs_normals less]
  · rename_i notLess
    rw [List.count_eq_zero_of_not_mem (rows.not_mem_pairs_normals notLess)]

/-- The entries above the diagonal are the numbers of meetings, and the others are zero. -/
def row (rows : Rows) (i : Nat) : List Nat :=
  (List.range rows.arity).map fun j => if i < j then rows.meetings i j else 0

theorem getElem?_row (rows : Rows) (i j : Nat) : (rows.row i).toArray[j]? =
    if j < rows.arity then some (if i < j then rows.meetings i j else 0) else none := by
  by_cases inside : j < rows.arity
  · simp [row, inside]
  · simp [row, inside]

theorem coOccurrence_eq (rows : Rows) :
    rows.coOccurrence = (Array.range rows.arity).map fun i => (rows.row i).toArray := by
  apply Array.map_congr_left
  intro i member
  have first : i < rows.arity := by simpa using member
  have wide : i * rows.arity + rows.arity ≤ rows.arity * rows.arity := by
    rw [← Nat.succ_mul]
    exact Nat.mul_le_mul_right _ first
  apply Array.ext_getElem?
  intro j
  rw [getElem?_row, Array.getElem?_extract, size_tally]
  simp only [Nat.add_zero, Nat.succ_mul, Nat.min_eq_left wide, Nat.add_sub_cancel_left]
  by_cases second : j < rows.arity
  · rw [if_pos second, if_pos second]
    exact rows.tally_pairs first second
  · rw [if_neg second, if_neg second]

/-! ## The cut -/

theorem drop_range (inside : i < n) :
    (List.range n).drop i = i :: (List.range n).filter (i < ·) := by
  have later : (List.range n).filter (i < ·) = (List.range n).drop (i + 1) := by
    conv_lhs => rw [← List.take_append_drop (i + 1) (List.range n), List.filter_append]
    have early : ((List.range n).take (i + 1)).filter (i < ·) = [] := by
      rw [List.filter_eq_nil_iff]
      intro k member
      rw [List.take_range, List.mem_range] at member
      simp only [decide_eq_true_eq]
      omega
    have late : ((List.range n).drop (i + 1)).filter (i < ·) = (List.range n).drop (i + 1) := by
      rw [List.filter_eq_self]
      intro k member
      obtain ⟨place, inside, rfl⟩ := List.mem_iff_getElem.1 member
      simp only [List.getElem_drop, List.getElem_range, decide_eq_true_eq]
      omega
    rw [early, late, List.nil_append]
  rw [later, List.drop_eq_getElem_cons (by simpa using inside), List.getElem_range]

/-- The entries on and above the diagonal. -/
theorem upper_perm (rows : Rows) :
    (rows.coOccurrence.toList.zipIdx.flatMap fun (row, i) =>
      (row.extract i row.size).toList).Perm
        (rows.pairMeetings ++ List.replicate rows.arity 0) := by
  have lines : (rows.coOccurrence.toList.zipIdx.flatMap fun (row, i) =>
      (row.extract i row.size).toList) = (List.range rows.arity).flatMap fun i =>
        [0] ++ ((List.range rows.arity).filter (i < ·)).map (rows.meetings i) := by
    have numbered : rows.coOccurrence.toList.zipIdx =
        (List.range rows.arity).map fun i => ((rows.row i).toArray, i) := by
      rw [coOccurrence_eq, Array.toList_map, Array.toList_range]
      apply List.ext_getElem
      · simp
      · intro i _ _
        simp
    rw [numbered, List.flatMap_map]
    apply List.flatMap_congr
    intro i member
    have kept : ((rows.row i).toArray.extract i (rows.row i).toArray.size).toList =
        (rows.row i).drop i := by
      simp [row]
    dsimp only
    rw [kept, row, ← List.map_drop, drop_range (List.mem_range.1 member), List.map_cons,
      if_neg (Nat.lt_irrefl i), List.singleton_append]
    congr 1
    apply List.map_congr_left
    intro j later
    rw [if_pos (of_decide_eq_true (List.mem_filter.1 later).2)]
  have zeros : (List.range rows.arity).flatMap (fun _ => [0]) = List.replicate rows.arity 0 := by
    rw [← List.map_eq_flatMap, List.map_const', List.length_range]
  rw [lines, ← zeros]
  exact (List.flatMap_append_perm _ _ _).symm.trans List.perm_append_comm

theorem length_ranking (rows : Rows) :
    rows.ranking.length = rows.arity * (rows.arity + 1) / 2 := by
  have pair (i : Nat) (inside : i < rows.arity) :
      (((List.range rows.arity).filter (i < ·)).map (rows.meetings i)).length =
        rows.arity - 1 - i := by
    have := congrArg List.length (drop_range inside)
    rw [List.length_drop, List.length_range, List.length_cons] at this
    rw [List.length_map]
    omega
  have counted : rows.pairMeetings.length = ∑ i ∈ Finset.range rows.arity, i := by
    rw [← Finset.sum_range_reflect, pairMeetings, List.length_flatMap]
    have listed := List.map_congr_left fun i member => pair i (List.mem_range.1 member)
    rw [listed, Graph.Undirected.sum_map_range]
  have twice := Finset.sum_range_id_mul_two rows.arity
  rw [ranking, length_descending, List.length_append, List.length_replicate, counted]
  cases counted : rows.arity with
  | zero => rfl
  | succ n =>
      rw [counted, Nat.add_sub_cancel] at twice
      have doubled : (n + 1) * (n + 1 + 1) = (n + 1) * n + 2 * (n + 1) := by ring
      omega

/-- The number of meetings that joined variables have to exceed. -/
def cut? (rows : Rows) (density : Option Float) : Option Nat :=
  density.bind fun density => rows.ranking[Graph.cutPlace rows.ranking.length density]?

/-- Variables that meet so often are joined. -/
def Joins (rows : Rows) (density : Option Float) (count : Nat) : Prop :=
  0 < count ∧ ∀ threshold ∈ rows.cut? density, threshold < count

end Rows

namespace Graph

open Rows

theorem ranked?_upper (rows : Rows) (density : Float) :
    let upper := rows.coOccurrence.toList.zipIdx.flatMap fun (row, i) =>
      (row.extract i row.size).toList
    ranked? (cutPlace upper.length density) upper = rows.cut? (some density) := by
  intro upper
  have perm : upper.Perm (rows.pairMeetings ++ List.replicate rows.arity 0) := rows.upper_perm
  rw [ranked?_eq, descending_congr perm, perm.length_eq, ← length_descending]
  rfl

theorem cell?_coOccurrence (rows : Rows) (i j : Nat) : cell? rows.coOccurrence i j =
    if i < rows.arity ∧ j < rows.arity then some (if i < j then rows.meetings i j else 0)
    else none := by
  rw [cell?, coOccurrence_eq, Array.getElem?_map, Array.getElem?_range]
  by_cases first : i < rows.arity
  · rw [if_pos first, Option.map_some, Option.bind_some, getElem?_row]
    simp [first]
  · simp [first]

/-- An entry that is kept if it exceeds the one at the cut. -/
def above (cut : Option Nat) (count : Nat) : Nat :=
  match cut with
  | none => count
  | some threshold => if threshold < count then count else 0

theorem cell?_thin (density : Float) (first : i < rows.arity) (second : j < rows.arity)
    (less : i < j) : cell? (thin rows.coOccurrence density) i j =
      some (above (rows.cut? (some density)) (rows.meetings i j)) := by
  have whole := cell?_coOccurrence rows i j
  rw [if_pos ⟨first, second⟩, if_pos less] at whole
  rw [thin, size_coOccurrence rows]
  dsimp only
  rw [ranked?_upper rows density]
  cases rows.cut? (some density) with
  | none => exact whole
  | some threshold =>
      rw [cell?, Option.bind_eq_some_iff] at whole
      obtain ⟨row, located, inside⟩ := whole
      simp [cell?, located, inside, second, above]

theorem cell?_kept (density : Option Float) (less : i < j) (inside : j < rows.arity) :
    cell? (kept rows density) i j = some (above (rows.cut? density) (rows.meetings i j)) := by
  cases density with
  | none =>
      have whole := cell?_coOccurrence rows i j
      rwa [if_pos ⟨less.trans inside, inside⟩, if_pos less] at whole
  | some density => exact cell?_thin density (less.trans inside) inside less

theorem above_eq_zero {density : Option Float} {count : Nat} :
    above (rows.cut? density) count = 0 ↔ ¬rows.Joins density count := by
  rw [Joins]
  cases rows.cut? density with
  | none => simp [above]
  | some threshold =>
      by_cases more : threshold < count <;> simp [above, more]

theorem above_of_joins {count : Nat} (joins : rows.Joins density count) :
    above (rows.cut? density) count = count := by
  have exceeds := joins.2
  cases cut : rows.cut? density with
  | none => rfl
  | some threshold => exact if_pos (exceeds threshold cut)

theorem weight?_ofRows (less : i < j) (inside : j < rows.arity) (weight : Float) :
    (ofRows rows density ids).1.weight? i j = some weight ↔
      rows.Joins density (rows.meetings i j) ∧ weight = .ofNat (rows.meetings i j) := by
  cases more : rows.isEmpty with
  | true =>
      have none : rows.meetings i j = 0 := by
        rw [meetings, List.isEmpty_iff.1 more]
        rfl
      rw [ofRows_of_isEmpty more, weight?, neighbours_isolated, none]
      simp [Joins]
  | false =>
      rw [ofRows_of_rows more, weight?_mapWeights,
        weight?_ofMatrix less (by rwa [size_kept]), cell?_kept density less inside]
      by_cases joins : rows.Joins density (rows.meetings i j)
      · have nonzero : (!(rows.meetings i j == 0)) = true := by simpa using joins.1.ne'
        rw [above_of_joins joins, Option.filter_some, if_pos nonzero, Option.map_some,
          Option.some_inj]
        exact ⟨fun same => ⟨joins, same.symm⟩, fun both => both.2.symm⟩
      · rw [above_eq_zero.2 joins]
        simp [joins]

/-- Fewer edges are left than entries exceed the one at the cut. -/
theorem edgeCount_ofRows_le {threshold place : Nat}
    (cut : rows.cut? density = some threshold)
    (found : rows.ranking[place]? = some threshold) :
    (ofRows rows density ids).1.edgeCount ≤ place := by
  have exceeding : rows.pairMeetings.countP (threshold < ·) =
      ∑ i ∈ Finset.range rows.arity, ∑ j ∈ Finset.range rows.arity,
        if i < j ∧ threshold < rows.meetings i j then 1 else 0 := by
    rw [pairMeetings, List.countP_flatMap, Undirected.sum_map_range]
    apply Finset.sum_congr rfl
    intro i _
    rw [← Finset.card_filter, Function.comp_apply, List.countP_map, List.countP_filter,
      List.countP_eq_length_filter]
    change _ = ((List.range rows.arity).filter fun j =>
      decide (i < j ∧ threshold < rows.meetings i j)).length
    congr 2
    funext j
    simp [Bool.and_comm]
  calc (ofRows rows density ids).1.edgeCount
      ≤ rows.pairMeetings.countP (threshold < ·) := by
        rw [(Undirected.ofRows rows density ids).edgeCount_eq, size_ofRows, exceeding,
          Finset.card_filter, Finset.sum_product]
        apply Finset.sum_le_sum
        intro i _
        apply Finset.sum_le_sum
        intro j second
        by_cases joined : i < j ∧ ((ofRows rows density ids).1.weight? i j).isSome
        · obtain ⟨weight, found⟩ := Option.isSome_iff_exists.1 joined.2
          have joins :=
            ((weight?_ofRows joined.1 (Finset.mem_range.1 second) weight).1 found).1
          rw [if_pos joined, if_pos ⟨joined.1, joins.2 threshold cut⟩]
        · rw [if_neg joined]
          exact Nat.zero_le _
    _ ≤ (rows.pairMeetings ++ List.replicate rows.arity 0).countP (threshold < ·) := by
        rw [List.countP_append]
        exact Nat.le_add_right _ _
    _ ≤ place := countP_le_of_getElem? found

theorem ofRows_reordered (same : rows.Reordered other) (density : Option Float)
    (ids : IdSequence) : ofRows rows density ids = ofRows other density ids := by
  have counts : rows.coOccurrence = other.coOccurrence := by
    rw [coOccurrence, coOccurrence, same.arity]
    rw [tally_perm (same.perm.map _)]
  rw [ofRows, ofRows, same.isEmpty_eq, same.arity, counts]

end Graph

/-- A graph that joins the variables whose number of meetings is such, by this number. -/
structure Rows.Joined (rows : Rows) (joins : Nat → Prop) (g : Graph Float) : Prop where
  size : g.size = rows.arity
  symmetric : ∀ i j, g.weight? i j = g.weight? j i
  weights : ∀ i j, i < j → j < rows.arity → ∀ weight, g.weight? i j = some weight ↔
    joins (rows.meetings i j) ∧ weight = .ofNat (rows.meetings i j)
  whole : ∀ i j, Double.value (.ofNat (rows.meetings i j)) = rows.meetings i j
  heavier : ∀ i j k l, i < j → j < rows.arity → k < l → l < rows.arity →
    (g.weight? i j).isSome → g.weight? k l = none → rows.meetings k l < rows.meetings i j

theorem Rows.Joined.congr {joins joins' : Nat → Prop} {g : Graph Float}
    (joined : rows.Joined joins g) (same : ∀ count, joins count ↔ joins' count) :
    rows.Joined joins' g := by
  have equal : joins = joins' := funext fun count => propext (same count)
  exact equal ▸ joined

theorem Rows.Joins.of_not_joins {count other : Nat} (joins : rows.Joins density count)
    (apart : ¬rows.Joins density other) : other < count := by
  by_contra more
  have below := not_lt.1 more
  exact apart ⟨joins.1.trans_le below,
    fun threshold cut => (joins.2 threshold cut).trans_le below⟩

theorem Graph.ofRows_joined (few : rows.size < 2 ^ 53) (density : Option Float)
    (ids : IdSequence) : rows.Joined (rows.Joins density) (ofRows rows density ids).1 where
  size := size_ofRows rows density ids
  symmetric := (Undirected.ofRows rows density ids).symmetric
  weights _ _ := weight?_ofRows
  whole i j := Double.value_ofNat (List.countP_le_length.trans_lt few)
  heavier i j k l less inside less' inside' here none := by
    obtain ⟨weight, found⟩ := Option.isSome_iff_exists.1 here
    refine ((weight?_ofRows less inside weight).1 found).1.of_not_joins fun joins => ?_
    rw [(weight?_ofRows less' inside' _).2 ⟨joins, rfl⟩] at none
    cases none

/-- Without a density two variables are joined if they meet, and with one if they meet more often
than the pair at the cut, so that fewer of them are joined than stand before the cut. The place of
the cut is reckoned with doubles. By default it is at a quarter of the ranking, as long as a double
holds the number of pairs: this leaves out only tables of `2 ^ 27` variables and more, whose matrix
no memory holds. The order of the rows does not matter. -/
theorem Graph.ofRows_law (wide : 0 < rows.arity) (few : rows.size < 2 ^ 53) (ids : IdSequence) :
    let total := rows.arity * (rows.arity + 1) / 2
    rows.Joined (0 < ·) (ofRows rows none ids).1 ∧
      (∀ density, rows.Joined
        (fun count => 0 < count ∧
          ∀ threshold ∈ rows.ranking[cutPlace total density]?, threshold < count)
        (ofRows rows (some density) ids).1) ∧
      (total ≤ 2 ^ 53 → ∃ threshold, rows.ranking[(total - 1) / 4]? = some threshold ∧
        rows.Joined (threshold < ·) (ofRows rows (some defaultDensity) ids).1 ∧
        (ofRows rows (some defaultDensity) ids).1.edgeCount ≤ (total - 1) / 4) ∧
      ∀ other, rows.Reordered other → ∀ density,
        ofRows other density ids = ofRows rows density ids := by
  intro total
  have counted : rows.ranking.length = total := rows.length_ranking
  refine ⟨?_, fun density => ?_, fun small => ?_, fun other same density => ?_⟩
  · exact (ofRows_joined few none ids).congr fun count => by simp [Rows.Joins, Rows.cut?]
  · rw [← counted]
    exact ofRows_joined few (some density) ids
  · have positive : 0 < total := by
      have : 1 * 2 ≤ rows.arity * (rows.arity + 1) := Nat.mul_le_mul wide (by omega)
      exact (Nat.le_div_iff_mul_le Nat.two_pos).2 this
    have inside : (total - 1) / 4 < rows.ranking.length := by omega
    have found := List.getElem?_eq_getElem inside
    have cut : rows.cut? (some defaultDensity) = some rows.ranking[(total - 1) / 4] := by
      rw [Rows.cut?, Option.bind_some, counted, cutPlace_defaultDensity small, found]
    refine ⟨_, found, (ofRows_joined few _ ids).congr fun count => ?_,
      edgeCount_ofRows_le cut found⟩
    rw [Rows.Joins, cut]
    simp only [Option.mem_some_iff, forall_eq']
    omega
  · exact (ofRows_reordered same density ids).symm

def meetingRows : Rows :=
  ⟨4, [.ofBits [true, true, true, false], .ofBits [true, true, false, false],
    .ofBits [true, true, false, true]], by decide⟩

/-- Of five pairs of variables that meet, four meet once, as does the pair at the cut. -/
theorem Graph.ofRows_law_ties : 0 < meetingRows.arity ∧ meetingRows.size < 2 ^ 53 ∧
    (Graph.ofRows meetingRows none {}).1.weight? 0 2 = some (.ofNat 1) ∧
    (Graph.ofRows meetingRows (some defaultDensity) {}).1.weight? 0 2 = none ∧
    (Graph.ofRows meetingRows (some defaultDensity) {}).1.weight? 0 1 = some (.ofNat 3) ∧
    (Graph.ofRows meetingRows (some defaultDensity) {}).1.edgeCount ≤ 2 := by
  have wide : 0 < meetingRows.arity := by decide
  have few : meetingRows.size < 2 ^ 53 := by decide
  have ranked : meetingRows.ranking = [3, 1, 1, 1, 1, 0, 0, 0, 0, 0] :=
    descending_eq (by decide) (by decide)
  have once : meetingRows.meetings 0 2 = 1 := by decide
  have often : meetingRows.meetings 0 1 = 3 := by decide
  obtain ⟨whole, -, capped, -⟩ := ofRows_law wide few {}
  obtain ⟨threshold, found, joined, most⟩ := capped (by decide)
  rw [ranked] at found
  obtain rfl : 1 = threshold := Option.some_inj.1 found
  refine ⟨wide, few, ?_, ?_, ?_, most⟩
  · exact (whole.weights 0 2 (by decide) (by decide) _).2 ⟨by decide, by rw [once]⟩
  · rw [Option.eq_none_iff_forall_ne_some]
    intro weight located
    have more := ((joined.weights 0 2 (by decide) (by decide) weight).1 located).1
    rw [once] at more
    exact Nat.lt_irrefl 1 more
  · exact (joined.weights 0 1 (by decide) (by decide) _).2 ⟨by decide, by rw [often]⟩

end TwoLevel
