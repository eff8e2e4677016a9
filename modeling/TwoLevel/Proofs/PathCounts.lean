import Mathlib.Algebra.BigOperators.Field
import Mathlib.Tactic.FieldSimp
import TwoLevel.Proofs.Walks

/-!
Numbers of shortest walks. A walk to a node other than the source is one to a node that precedes it
with one step more, so these numbers are sums over the nodes that precede. The share of the shortest
walks that run through a node, summed over their ends, is then found from the shares of the nodes
that it precedes.
-/

namespace TwoLevel.Graph

open Finset

variable {g : Graph ℚ} {source node next : Nat} {path : List Nat} {length : ℚ}

/-! ## The nodes that precede another -/

theorem Walk.lt_size (undirected : g.Undirected) (inside : source < g.size)
    (walk : g.Walk source node path length) : node < g.size := by
  cases walk with
  | here => exact inside
  | step _ edge => exact undirected.lt_size (Option.isSome_of_eq_some edge)

theorem Precedes.lt_size (precedes : g.Precedes source node next) : node < g.size := by
  obtain ⟨_, _, weight, _, edge, _⟩ := precedes.exists_weight
  exact lt_size_of_weight? (Option.isSome_of_eq_some edge)

open Classical in
/-- The nodes to which a shorter walk leads than to the given one. -/
noncomputable def nearerThan (g : Graph ℚ) (source node : Nat) : Finset Nat :=
  (range g.size).filter fun other => ∃ path length longer more,
    g.Shortest source other path length ∧ g.Shortest source node longer more ∧ length < more

theorem mem_nearerThan {other : Nat} : other ∈ g.nearerThan source node ↔ other < g.size ∧
    ∃ path length longer more, g.Shortest source other path length ∧
      g.Shortest source node longer more ∧ length < more := by
  classical
  rw [nearerThan, mem_filter, mem_range]

theorem Precedes.nearerThan_ssubset (positive : g.Positive)
    (precedes : g.Precedes source node next) :
    g.nearerThan source node ⊂ g.nearerThan source next := by
  obtain ⟨path, length, weight, before, edge, whole⟩ := precedes.exists_weight
  have longer := positive _ _ _ edge
  have member : node ∈ g.nearerThan source next :=
    mem_nearerThan.2 ⟨precedes.lt_size, _, _, _, _, before, whole, lt_add_of_pos_right _ longer⟩
  refine Finset.ssubset_iff_subset_ne.2 ⟨fun other nearer => ?_, fun same => ?_⟩
  · obtain ⟨inside, _, less, _, more, near, far, bound⟩ := mem_nearerThan.1 nearer
    rw [far.length_eq before] at bound
    exact mem_nearerThan.2
      ⟨inside, _, _, _, _, near, whole, bound.trans (lt_add_of_pos_right _ longer)⟩
  · rw [← same] at member
    obtain ⟨-, _, less, _, more, near, far, bound⟩ := mem_nearerThan.1 member
    rw [near.length_eq before, far.length_eq before] at bound
    exact lt_irrefl _ bound

/-- What holds of a node when it holds of those that precede it holds of all nodes. -/
theorem precedes_wellFounded (positive : g.Positive) (source : Nat) :
    WellFounded (g.Precedes source) := by
  refine Subrelation.wf (fun {node next} precedes => ?_)
    (InvImage.wf (fun node => (g.nearerThan source node).card) Nat.lt_wfRel.wf)
  exact card_lt_card (precedes.nearerThan_ssubset positive)

open Classical in
noncomputable def preceding (g : Graph ℚ) (source next : Nat) : Finset Nat :=
  (range g.size).filter fun node => g.Precedes source node next

theorem mem_preceding : node ∈ g.preceding source next ↔ g.Precedes source node next := by
  classical
  rw [preceding, mem_filter, mem_range, and_iff_right_iff_imp]
  exact Precedes.lt_size

/-! ## Numbers of walks -/

noncomputable def ways (g : Graph ℚ) (source node : Nat) : Nat := (g.shortest source node).ncard

/-- How many of the shortest walks run through a node. -/
noncomputable def waysThrough (g : Graph ℚ) (source node through : Nat) : Nat :=
  {path ∈ g.shortest source node | through ∈ path}.ncard

theorem shortest_eq_iUnion (distinct : next ≠ source) :
    g.shortest source next =
      ⋃ node ∈ g.preceding source next, (next :: ·) '' g.shortest source node := by
  ext path
  simp only [mem_shortest_of_ne distinct, Set.mem_iUnion, mem_preceding, Set.mem_image,
    exists_prop, eq_comm]

theorem finite_shortest (positive : g.Positive) (source node : Nat) :
    (g.shortest source node).Finite := by
  induction node using (precedes_wellFounded positive source).induction with
  | _ next ih =>
      rcases eq_or_ne next source with rfl | distinct
      · rw [shortest_source positive]
        exact Set.finite_singleton _
      · rw [shortest_eq_iUnion distinct]
        exact (finite_toSet _).biUnion fun node member =>
          (ih node (mem_preceding.1 member)).image _

/-- Walks that end at different nodes stay different with one step more. -/
theorem ncard_iUnion_cons {nodes : Finset Nat} {paths : Nat → Set (List Nat)}
    (finite : ∀ node ∈ nodes, (paths node).Finite)
    (ends : ∀ node, paths node ⊆ g.shortest source node) :
    (⋃ node ∈ nodes, (next :: ·) '' paths node).ncard = ∑ node ∈ nodes, (paths node).ncard := by
  have disjoint : (nodes : Set Nat).PairwiseDisjoint fun node => (next :: ·) '' paths node := by
    rintro one - other - apart
    refine Set.disjoint_left.2 ?_
    rintro _ ⟨path, member, rfl⟩ ⟨same, memberToo, equal⟩
    obtain ⟨_, first⟩ := ends one member
    obtain ⟨_, second⟩ := ends other memberToo
    obtain ⟨_, rfl⟩ := first.walk.exists_eq_cons
    obtain ⟨_, rfl⟩ := second.walk.exists_eq_cons
    simp only [List.cons.injEq, true_and] at equal
    exact apart equal.1.symm
  have counted := (finite_toSet nodes).ncard_biUnion
    (fun node member => (finite node member).image (next :: ·)) disjoint
  rw [finsum_mem_coe_finset] at counted
  refine Eq.trans ?_ (counted.trans (sum_congr rfl fun node _ => ?_))
  · rfl
  · exact Set.ncard_image_of_injective _ (List.cons_injective)

section Through

variable {through : Nat}

theorem waysThrough_self : g.waysThrough source node node = g.ways source node := by
  refine congrArg Set.ncard (Set.sep_eq_self_iff_mem_true.2 ?_)
  rintro path ⟨length, found⟩
  obtain ⟨rest, rfl⟩ := found.walk.exists_eq_cons
  exact List.mem_cons_self

theorem Precedes.waysThrough (positive : g.Positive) (precedes : g.Precedes source node through) :
    g.waysThrough source node through = 0 := by
  rw [Graph.waysThrough, Set.sep_eq_empty_iff_mem_false.2, Set.ncard_empty]
  exact fun path found => precedes.not_mem positive found

end Through

section Undirected

variable (undirected : g.Undirected) (positive : g.Positive) (inside : source < g.size)

include positive in
theorem ways_source : g.ways source source = 1 := by
  rw [ways, shortest_source positive, Set.ncard_singleton]

include positive in
theorem waysThrough_source (through : Nat) :
    g.waysThrough source source through = if through = source then 1 else 0 := by
  split
  · rename_i same
    rw [same, waysThrough_self, ways_source positive]
  · rename_i other
    rw [waysThrough, shortest_source positive, Set.sep_eq_empty_iff_mem_false.2, Set.ncard_empty]
    rintro _ rfl
    exact fun member => other (List.mem_singleton.1 member)

include positive in
theorem Precedes.ne_source (precedes : g.Precedes source node next) : next ≠ source := by
  rintro rfl
  obtain ⟨path, found⟩ := precedes
  rw [shortest_source positive] at found
  cases found

include positive in
theorem ways_pos (found : path ∈ g.shortest source node) : 0 < g.ways source node :=
  (Set.ncard_pos (finite_shortest positive source node)).2 ⟨path, found⟩

include positive in
theorem ways_of_ne (distinct : next ≠ source) :
    g.ways source next = ∑ node ∈ g.preceding source next, g.ways source node := by
  rw [ways, shortest_eq_iUnion distinct]
  exact ncard_iUnion_cons (fun node _ => finite_shortest positive source node)
    fun _ => subset_rfl

include positive in
theorem waysThrough_of_ne (distinct : next ≠ source) (through : Nat) :
    g.waysThrough source next through =
      (∑ node ∈ g.preceding source next, g.waysThrough source node through) +
        if through = next then g.ways source next else 0 := by
  split
  · rename_i same
    subst same
    rw [waysThrough_self, sum_eq_zero fun node member => ?_, zero_add]
    exact (mem_preceding.1 member).waysThrough positive
  · rename_i apart
    have steps : {path ∈ g.shortest source next | through ∈ path} =
        ⋃ node ∈ g.preceding source next,
          (next :: ·) '' {path ∈ g.shortest source node | through ∈ path} := by
      rw [shortest_eq_iUnion distinct]
      ext path
      simp only [Set.mem_ofPred_eq, Set.mem_iUnion, Set.mem_image, exists_prop]
      constructor
      · rintro ⟨⟨node, precedes, rest, found, rfl⟩, member⟩
        exact ⟨node, precedes, rest, ⟨found, (List.mem_cons.1 member).resolve_left apart⟩, rfl⟩
      · rintro ⟨node, precedes, rest, ⟨found, member⟩, rfl⟩
        exact ⟨⟨node, precedes, rest, found, rfl⟩, List.mem_cons_of_mem _ member⟩
    rw [waysThrough, steps, add_zero]
    refine ncard_iUnion_cons (fun node _ => ?_) fun _ => Set.sep_subset _ _
    exact (finite_shortest positive source node).subset (Set.sep_subset _ _)

/-! ## Shares -/

open Classical in
noncomputable def following (g : Graph ℚ) (source node : Nat) : Finset Nat :=
  (range g.size).filter fun next => g.Precedes source node next

include undirected inside in
theorem mem_following : next ∈ g.following source node ↔ g.Precedes source node next := by
  classical
  rw [following, mem_filter, mem_range, and_iff_right_iff_imp]
  rintro ⟨_, _, found⟩
  exact found.walk.lt_size undirected inside

/-- The share of the shortest walks from the source that run through a node, summed over all their
other ends. -/
noncomputable def dependency (g : Graph ℚ) (source node : Nat) : ℚ :=
  ∑ last ∈ range g.size,
    if last = node then 0 else (g.waysThrough source last node : ℚ) / g.ways source last

include positive in
theorem ways_ne_zero (precedes : g.Precedes source node next) : (g.ways source next : ℚ) ≠ 0 := by
  obtain ⟨path, found⟩ := precedes
  exact_mod_cast (ways_pos positive found).ne'

include undirected positive inside in
/-- A walk through a node that does not end there runs on through one that it precedes. -/
theorem waysThrough_eq (node last : Nat) :
    (g.waysThrough source last node : ℚ) =
      (∑ next ∈ g.following source node,
        (g.ways source node : ℚ) / g.ways source next * g.waysThrough source last next) +
      if node = last then (g.ways source node : ℚ) else 0 := by
  induction last using (precedes_wellFounded positive source).induction with
  | _ last ih =>
      rcases eq_or_ne last source with rfl | distinct
      · have none : ∀ next ∈ g.following last node,
            (g.ways last node : ℚ) / g.ways last next * g.waysThrough last last next = 0 := by
          intro next member
          have precedes := (mem_following undirected inside).1 member
          rw [waysThrough_source positive, if_neg (precedes.ne_source positive), Nat.cast_zero,
            mul_zero]
        rw [sum_eq_zero none, zero_add, waysThrough_source positive]
        split
        · rename_i same
          rw [same, ways_source positive]
        · exact Nat.cast_zero
      · -- both sides are sums over the nodes that precede `last`, plus what a walk that ends in
        -- `last` itself adds: on the right such a walk comes by way of `last` as the next node
        have steps (through : Nat) := congrArg (Nat.cast (R := ℚ))
          (waysThrough_of_ne positive distinct through)
        push_cast at steps
        have arrives : ∑ next ∈ g.following source node,
              (g.ways source node : ℚ) / g.ways source next *
                (if next = last then (g.ways source last : ℚ) else 0) =
            ∑ before ∈ g.preceding source last,
              if node = before then (g.ways source node : ℚ) else 0 := by
          simp only [mul_ite, mul_zero, sum_ite_eq, sum_ite_eq']
          by_cases precedes : g.Precedes source node last
          · rw [if_pos ((mem_following undirected inside).2 precedes),
              if_pos (mem_preceding.2 precedes),
              div_mul_cancel₀ _ (ways_ne_zero positive precedes)]
          · rw [if_neg fun member => precedes ((mem_following undirected inside).1 member),
              if_neg fun member => precedes (mem_preceding.1 member)]
        rw [steps node]
        simp only [steps, mul_add, sum_add_distrib, mul_sum]
        rw [sum_comm, arrives, ← sum_add_distrib]
        congr 1
        · exact sum_congr rfl fun before member => ih before (mem_preceding.1 member)
        · split
          · rename_i same
            rw [same]
          · rfl

include undirected positive inside in
theorem sum_waysThrough (precedes : g.Precedes source node next) :
    ∑ last ∈ range g.size, (g.waysThrough source last next : ℚ) / g.ways source last =
      1 + g.dependency source next := by
  have within : next ∈ range g.size := mem_range.2
    (precedes.choose_spec.choose_spec.walk.lt_size undirected inside)
  rw [← add_sum_erase _ _ within, waysThrough_self,
    div_self (ways_ne_zero positive precedes), dependency,
    ← add_sum_erase _ _ within, if_pos rfl, zero_add]
  congr 1
  exact sum_congr rfl fun last member => (if_neg (ne_of_mem_erase member)).symm

include undirected positive inside in
/-- The walks through a node are shared out among the nodes that it precedes. -/
theorem dependency_eq (node : Nat) :
    g.dependency source node = ∑ next ∈ g.following source node,
      (g.ways source node : ℚ) / g.ways source next * (1 + g.dependency source next) := by
  have shares (last : Nat) :
      (if last = node then 0 else (g.waysThrough source last node : ℚ) / g.ways source last) =
        ∑ next ∈ g.following source node, (g.ways source node : ℚ) / g.ways source next *
          ((g.waysThrough source last next : ℚ) / g.ways source last) := by
    split
    · rename_i same
      refine (sum_eq_zero fun next member => ?_).symm
      rw [same, ((mem_following undirected inside).1 member).waysThrough positive, Nat.cast_zero,
        zero_div, mul_zero]
    · rename_i other
      rw [waysThrough_eq undirected positive inside, if_neg (Ne.symm other), add_zero, sum_div]
      exact sum_congr rfl fun next _ => mul_div_assoc ..
  calc g.dependency source node
    _ = ∑ last ∈ range g.size, ∑ next ∈ g.following source node,
          (g.ways source node : ℚ) / g.ways source next *
            ((g.waysThrough source last next : ℚ) / g.ways source last) :=
        sum_congr rfl fun last _ => shares last
    _ = ∑ next ∈ g.following source node, (g.ways source node : ℚ) / g.ways source next *
          ∑ last ∈ range g.size, (g.waysThrough source last next : ℚ) / g.ways source last := by
        rw [sum_comm]
        simp only [mul_sum]
    _ = _ := sum_congr rfl fun next member => by
        rw [sum_waysThrough undirected positive inside ((mem_following undirected inside).1 member)]

end Undirected

end TwoLevel.Graph
