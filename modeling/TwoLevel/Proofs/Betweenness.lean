import TwoLevel.Proofs.PathCounts
import TwoLevel.Proofs.Settling

/-!
Betweenness is what it is meant to be. The search out of a source settles the nodes that can be
reached in the order of their distance and counts the shortest walks to each; handing the shares
back from the latest node to the first then gives each node the share of the shortest walks that
run through it.
-/

namespace TwoLevel

open Finset

namespace Paths

variable {g : Graph ℚ} {p : Paths ℚ} {source node : Nat}

/-! ## What the search finds -/

/-- The settled nodes are those that can be reached, the latest of them the farthest. Every node has
its distance, the nodes that precede it and the number of shortest walks to it. -/
structure Explored (g : Graph ℚ) (source : Nat) (p : Paths ℚ) : Prop where
  sized : p.Sized g.size
  reached : ∀ v, v ∈ p.settled ↔ g.Reaches source v
  nodup : p.settled.Nodup
  ascending : p.settled.Pairwise fun later earlier =>
    ∀ d e, p.best? earlier = some d → p.best? later = some e → d ≤ e
  nearest : ∀ v d, p.best? v = some d ↔ ∃ path, g.Shortest source v path d
  before : ∀ u v, u ∈ p.nodesBefore v ↔ g.Precedes source u v
  distinct : ∀ v, (p.nodesBefore v).Nodup
  counted : ∀ v, p.pathsTo v = g.ways source v

section Search

variable (undirected : g.Undirected) (positive : g.Positive) (inside : source < g.size)

structure Ended (g : Graph ℚ) (source : Nat) (p : Paths ℚ) : Prop where
  labelled : Labelled g source (scanned g p) p
  settled : ∀ v, v ∈ p.settled ↔ ∃ d, p.best? v = some d

theorem Exploring.ended {latest : ℚ} (exploring : Exploring g source latest p)
    (empty : p.queue.toList = []) : Ended g source p where
  labelled := exploring.labelled
  settled v := by
    constructor
    · intro member
      obtain ⟨d, reached, -⟩ := exploring.queued.nearer v member
      exact ⟨d, reached⟩
    · rintro ⟨d, reached⟩
      by_contra waiting
      have waits := exploring.queued.waits v d waiting reached
      rw [empty] at waits
      cases waits

namespace Ended

variable (ended : Ended g source p)

include ended in
/-- No walk is shorter than the distance that was found. -/
theorem le_of_walk {path : List Nat} {length : ℚ} (walk : g.Walk source node path length) :
    ∃ d, p.best? node = some d ∧ d ≤ length := by
  induction walk with
  | here => exact ⟨0, ended.labelled.origin, le_rfl⟩
  | step _ edge ih =>
      obtain ⟨d, reached, bound⟩ := ih
      have known := (ended.settled _).2 ⟨d, reached⟩
      obtain ⟨e, next, least⟩ := ended.labelled.bounded _ _ _ d ⟨known, edge⟩ reached
      exact ⟨e, next, by linarith⟩

include ended in
theorem shortest_of_best? {d : ℚ} (reached : p.best? node = some d) :
    ∃ path, g.Shortest source node path d := by
  obtain ⟨path, walk⟩ := ended.labelled.walked node d reached
  refine ⟨path, walk, fun other more another => ?_⟩
  obtain ⟨e, same, bound⟩ := ended.le_of_walk another
  cases reached.symm.trans same
  exact bound

include ended in
theorem best?_eq_some_iff (v : Nat) (d : ℚ) :
    p.best? v = some d ↔ ∃ path, g.Shortest source v path d := by
  constructor
  · exact ended.shortest_of_best?
  · rintro ⟨path, found⟩
    obtain ⟨e, reached, bound⟩ := ended.le_of_walk found.walk
    obtain ⟨other, least⟩ := ended.shortest_of_best? reached
    rw [reached, least.length_eq found]

include ended in
theorem mem_settled (v : Nat) : v ∈ p.settled ↔ g.Reaches source v := by
  rw [ended.settled]
  constructor
  · rintro ⟨d, reached⟩
    obtain ⟨path, found⟩ := ended.shortest_of_best? reached
    exact ⟨path, d, found.walk⟩
  · rintro ⟨path, length, walk⟩
    obtain ⟨d, reached, -⟩ := ended.le_of_walk walk
    exact ⟨d, reached⟩

include ended in
theorem mem_nodesBefore (u v : Nat) : u ∈ p.nodesBefore v ↔ g.Precedes source u v := by
  rw [ended.labelled.before]
  constructor
  · rintro ⟨w, d, ⟨-, edge⟩, start, tied⟩
    obtain ⟨path, found⟩ := ended.shortest_of_best? start
    obtain ⟨other, farther⟩ := ended.shortest_of_best? tied
    exact found.precedes edge farther
  · intro precedes
    obtain ⟨path, d, w, before, edge, whole⟩ := precedes.exists_weight
    have start := (ended.best?_eq_some_iff u d).2 ⟨path, before⟩
    exact ⟨w, d, ⟨(ended.settled u).2 ⟨d, start⟩, edge⟩, start,
      (ended.best?_eq_some_iff v _).2 ⟨_, whole⟩⟩

include ended in
theorem toFinset_nodesBefore (v : Nat) : (p.nodesBefore v).toFinset = g.preceding source v := by
  ext u
  rw [List.mem_toFinset, ended.mem_nodesBefore, Graph.mem_preceding]

include ended positive inside in
theorem pathsTo_eq (v : Nat) : p.pathsTo v = g.ways source v := by
  induction v using (Graph.precedes_wellFounded positive source).induction with
  | _ v ih =>
      rw [ended.labelled.counted, ← List.sum_toFinset _ (ended.labelled.distinct v),
        ended.toFinset_nodesBefore,
        sum_congr rfl fun u member => ih u (Graph.mem_preceding.1 member)]
      split
      · rename_i same
        subst same
        rw [sum_eq_zero fun u member => ?_, Graph.ways_source positive]
        · simp
        · exact absurd rfl ((Graph.mem_preceding.1 member).ne_source positive)
      · rename_i distinct
        rw [Graph.ways_of_ne positive distinct, zero_add, Nat.cast_sum]

end Ended

include undirected positive inside in
theorem explored : Explored g source (outOf g source) := by
  obtain ⟨latest, exploring, empty⟩ := (Exploring.start inside).settleAll positive undirected
  have ended := exploring.ended empty
  exact ⟨ended.labelled.sized, ended.mem_settled, exploring.queued.nodup, exploring.queued.ascending,
    ended.best?_eq_some_iff, ended.mem_nodesBefore, ended.labelled.distinct,
    ended.pathsTo_eq positive inside⟩

end Search

/-! ## Shares handed back -/

theorem size_foldl_setIfInBounds (f : Array ℚ → Nat → ℚ) (list : List Nat) (array : Array ℚ) :
    (list.foldl (fun array i => array.setIfInBounds i (f array i)) array).size = array.size := by
  induction list generalizing array with
  | nil => rfl
  | cons i rest ih => rw [List.foldl_cons, ih, Array.size_setIfInBounds]

theorem getD_foldl_add {list : List Nat} (distinct : list.Nodup) {array : Array ℚ}
    (inside : ∀ i ∈ list, i < array.size) (f : Nat → ℚ) (u : Nat) :
    (list.foldl (fun array i => array.setIfInBounds i (array.getD i 0 + f i)) array).getD u 0 =
      array.getD u 0 + if u ∈ list then f u else 0 := by
  induction list generalizing array with
  | nil => simp
  | cons i rest ih =>
      have ⟨apart, distinct⟩ := List.nodup_cons.1 distinct
      have first := congrFun
        (getD_setIfInBounds (inside i List.mem_cons_self) (array.getD i 0 + f i) 0) u
      rw [List.foldl_cons, ih distinct fun j later => ?_, first]
      · rcases eq_or_ne u i with rfl | other
        · simp [apart]
        · simp [other]
      · rw [Array.size_setIfInBounds]
        exact inside j (List.mem_cons_of_mem _ later)

theorem handBack_eq {share : Array ℚ} (apart : node ∉ p.nodesBefore node) :
    p.handBack share node = (p.nodesBefore node).foldl (fun array i => array.setIfInBounds i
      (array.getD i 0 + p.pathsTo i / p.pathsTo node * (1 + share.getD node 0))) share := by
  have same (list : List Nat) (others : node ∉ list) (array : Array ℚ)
      (kept : array.getD node 0 = share.getD node 0) :
      list.foldl (fun array i => array.setIfInBounds i
          (array.getD i 0 + p.pathsTo i / p.pathsTo node * (1 + array.getD node 0))) array =
        list.foldl (fun array i => array.setIfInBounds i
          (array.getD i 0 + p.pathsTo i / p.pathsTo node * (1 + share.getD node 0))) array := by
    induction list generalizing array with
    | nil => rfl
    | cons i rest ih =>
        rw [List.mem_cons, not_or] at others
        rw [List.foldl_cons, List.foldl_cons, kept, ih others.2]
        rw [Array.getD_eq_getD_getElem?, Array.getElem?_setIfInBounds_ne (Ne.symm others.1),
          ← Array.getD_eq_getD_getElem?, kept]
  exact same _ apart share rfl

/-- What a node gets from one that it precedes. -/
noncomputable def portion (g : Graph ℚ) (source node next : Nat) : ℚ :=
  (g.ways source node : ℚ) / g.ways source next * (1 + g.dependency source next)

namespace Explored

variable (explored : Explored g source p) (undirected : g.Undirected) (positive : g.Positive)
  (inside : source < g.size)

include explored positive in
/-- A node is settled before those that it precedes. -/
theorem settled_later {next : Nat} {done rest : List Nat} (split : p.settled = done ++ node :: rest)
    (precedes : g.Precedes source node next) : next ∈ done := by
  obtain ⟨path, d, w, before, edge, whole⟩ := precedes.exists_weight
  have near := (explored.nearest node d).2 ⟨path, before⟩
  have far := (explored.nearest next (d + w)).2 ⟨_, whole⟩
  have member : next ∈ p.settled := (explored.reached next).2 ⟨_, _, whole.walk⟩
  have longer := positive _ _ _ edge
  rw [split, List.mem_append] at member
  rcases member with later | earlier
  · exact later
  · exfalso
    rcases List.mem_cons.1 earlier with rfl | earlier
    · linarith [Option.some_inj.1 (near.symm.trans far)]
    · have ascending := explored.ascending
      rw [split] at ascending
      have bound := (List.pairwise_cons.1 (List.pairwise_append.1 ascending).2.1).1 next earlier
        _ _ far near
      linarith

include explored positive in
theorem not_mem_nodesBefore : node ∉ p.nodesBefore node := by
  rw [explored.before]
  intro precedes
  obtain ⟨path, length, found⟩ := precedes
  exact (List.nodup_cons.1 (found.nodup positive)).1 List.mem_cons_self

include explored positive in
theorem getD_handBack {share : Array ℚ} (sized : share.size = g.size) (u : Nat) :
    (p.handBack share node).getD u 0 = share.getD u 0 +
      if u ∈ p.nodesBefore node then
        (g.ways source u : ℚ) / g.ways source node * (1 + share.getD node 0) else 0 := by
  have within : ∀ i ∈ p.nodesBefore node, i < share.size := fun i member =>
    sized ▸ ((explored.before i node).1 member).lt_size
  rw [handBack_eq (explored.not_mem_nodesBefore positive),
    getD_foldl_add (explored.distinct node) within, explored.counted, explored.counted]

include explored undirected positive inside in
/-- Between two nodes the shares are made up of what the nodes gone through have handed back. -/
theorem getD_foldl_handBack {done rest : List Nat} (split : p.settled = done ++ rest)
    {share : Array ℚ} (sized : share.size = g.size)
    (handed : ∀ u, share.getD u 0 =
      ∑ next ∈ g.following source u, if next ∈ done then portion g source u next else 0) (u : Nat) :
    (rest.foldl p.handBack share).getD u 0 =
      ∑ next ∈ g.following source u, if next ∈ p.settled then portion g source u next else 0 := by
  induction rest generalizing done share with
  | nil =>
      rw [List.append_nil] at split
      rw [List.foldl_nil, handed, split]
  | cons node rest ih =>
      have fresh : node ∉ done := by
        have distinct := explored.nodup
        rw [split, List.nodup_append] at distinct
        exact fun member => distinct.2.2 node member node List.mem_cons_self rfl
      -- all that the node precedes was settled later and has handed back already
      have final : share.getD node 0 = g.dependency source node := by
        rw [handed, Graph.dependency_eq undirected positive inside]
        refine sum_congr rfl fun next member => if_pos ?_
        exact explored.settled_later positive split
          ((Graph.mem_following undirected inside).1 member)
      have splitOn : p.settled = (done ++ [node]) ++ rest := by simpa using split
      refine ih splitOn ?_ fun u => ?_
      · rw [handBack, size_foldl_setIfInBounds, sized]
      · have one (next : Nat) :
            (if next ∈ done ++ [node] then portion g source u next else 0) =
              (if next ∈ done then portion g source u next else 0) +
                if next = node then portion g source u node else 0 := by
          rcases eq_or_ne next node with rfl | other
          · simp [fresh]
          · simp [other]
        have same : node ∈ g.following source u ↔ u ∈ p.nodesBefore node := by
          rw [Graph.mem_following undirected inside, explored.before]
        rw [explored.getD_handBack positive sized, handed, final,
          sum_congr rfl fun next _ => one next, sum_add_distrib, sum_ite_eq']
        simp only [same, portion]

include explored undirected positive inside in
theorem getD_shares (u : Nat) : p.shares.getD u 0 = g.dependency source u := by
  have nothing (v : Nat) : (Array.replicate p.best.size (0 : ℚ)).getD v 0 =
      ∑ next ∈ g.following source v, if next ∈ [] then portion g source v next else 0 := by
    rw [getD_replicate]
    simp
  rw [shares, explored.getD_foldl_handBack undirected positive inside p.settled.nil_append.symm
    (by rw [Array.size_replicate, explored.sized.best]) nothing,
    Graph.dependency_eq undirected positive inside]
  refine sum_congr rfl fun next member => if_pos ((explored.reached next).2 ?_)
  obtain ⟨path, length, found⟩ := (Graph.mem_following undirected inside).1 member
  exact ⟨_, _, found.walk⟩

include explored undirected positive inside in
theorem getD_addShares {totals : Array ℚ} (sized : totals.size = g.size) (u : Nat) :
    (p.addShares source totals).getD u 0 = totals.getD u 0 +
      if u ∈ p.settled ∧ u ≠ source then g.dependency source u else 0 := by
  have others : p.addShares source totals = (p.settled.filter (· ≠ source)).foldl
      (fun totals node => totals.setIfInBounds node (totals.getD node 0 + p.shares.getD node 0))
      totals := by
    rw [addShares, List.foldl_filter]
    congr 1
    funext totals node
    by_cases same : node = source <;> simp [same]
  have within : ∀ i ∈ p.settled.filter (· ≠ source), i < totals.size := by
    intro i member
    obtain ⟨path, length, walk⟩ := (explored.reached i).1 (List.mem_of_mem_filter member)
    exact sized ▸ walk.lt_size undirected inside
  rw [others, getD_foldl_add (explored.nodup.filter _) within,
    explored.getD_shares undirected positive inside]
  simp [List.mem_filter]

end Explored

theorem size_addShares (p : Paths ℚ) (source : Nat) (totals : Array ℚ) :
    (p.addShares source totals).size = totals.size := by
  rw [addShares]
  induction p.settled generalizing totals with
  | nil => rfl
  | cons node rest ih =>
      rw [List.foldl_cons, ih]
      split
      · rfl
      · exact Array.size_setIfInBounds ..

end Paths

namespace Graph

variable {g : Graph ℚ} {source last node : Nat}

open Classical in
/-- The sum, over all ordered pairs of two other nodes of which the first reaches the second, of the
share of the shortest walks between them that run through the node. -/
noncomputable def between (g : Graph ℚ) (node : Nat) : ℚ :=
  ∑ source ∈ range g.size, ∑ last ∈ range g.size,
    if source ≠ last ∧ node ≠ source ∧ node ≠ last ∧ g.Reaches source last then
      (g.waysThrough source last node : ℚ) / g.ways source last
    else 0

theorem waysThrough_eq_zero (positive : g.Positive)
    (apart : ¬(g.Reaches source last ∧ g.Reaches source node)) :
    g.waysThrough source last node = 0 := by
  rw [waysThrough, Set.sep_eq_empty_iff_mem_false.2, Set.ncard_empty]
  rintro path ⟨length, found⟩ member
  obtain ⟨part, less, walk, -⟩ := found.walk.exists_part positive member
  exact apart ⟨⟨path, length, found.walk⟩, ⟨part, less, walk⟩⟩

theorem dependency_eq_zero (positive : g.Positive) (apart : ¬g.Reaches source node) :
    g.dependency source node = 0 := by
  refine sum_eq_zero fun last _ => ?_
  rw [waysThrough_eq_zero positive fun both => apart both.2, Nat.cast_zero, zero_div, ite_self]

theorem between_eq (positive : g.Positive) (node : Nat) : g.between node =
    ∑ source ∈ range g.size, if node = source then 0 else g.dependency source node := by
  refine sum_congr rfl fun source _ => ?_
  split
  · rename_i same
    exact sum_eq_zero fun last _ => if_neg fun pair => pair.2.1 same
  · rename_i apart
    refine sum_congr rfl fun last _ => ?_
    by_cases same : last = node
    · rw [if_pos same, if_neg fun pair => pair.2.2.1 same.symm]
    · rw [if_neg same]
      split
      · rfl
      · rename_i excluded
        have none : g.waysThrough source last node = 0 := by
          by_cases start : source = last
          · rw [← start, waysThrough_source positive, if_neg apart]
          · refine waysThrough_eq_zero positive fun both => excluded ?_
            exact ⟨start, apart, Ne.symm same, both.1⟩
        rw [none, Nat.cast_zero, zero_div]

theorem getD_foldl_addShares (undirected : g.Undirected) (positive : g.Positive) {count : Nat}
    (within : count ≤ g.size) :
    let totals := (List.range count).foldl
      (fun totals source => (Paths.outOf g source).addShares source totals)
      (Array.replicate g.size (0 : ℚ))
    totals.size = g.size ∧ ∀ node, totals.getD node 0 =
      ∑ source ∈ range count, if node = source then 0 else g.dependency source node := by
  induction count with
  | zero => exact ⟨Array.size_replicate .., fun node => Paths.getD_replicate ..⟩
  | succ source ih =>
      obtain ⟨sized, total⟩ := ih (Nat.le_of_succ_le within)
      have explored := Paths.explored undirected positive within
      rw [List.range_succ, List.foldl_append]
      refine ⟨(Paths.size_addShares ..).trans sized, fun node => ?_⟩
      rw [List.foldl_cons, List.foldl_nil,
        explored.getD_addShares undirected positive within sized, total, sum_range_succ]
      congr 1
      by_cases same : node = source
      · rw [if_pos same, if_neg fun both => both.2 same]
      · rw [if_neg same]
        split
        · rfl
        · rename_i missed
          refine (dependency_eq_zero positive fun reaches => missed ?_).symm
          exact ⟨(explored.reached node).2 reaches, same⟩

theorem betweenness_eq (undirected : g.Undirected) (positive : g.Positive) :
    g.betweenness = (List.range g.size).map g.between := by
  obtain ⟨sized, total⟩ := getD_foldl_addShares undirected positive (le_refl g.size)
  apply List.ext_getElem
  · rw [betweenness, Array.length_toList, sized, List.length_map, List.length_range]
  · intro node inside _
    have below : node < _ := Array.length_toList ▸ inside
    rw [List.getElem_map, List.getElem_range, between_eq positive, ← total,
      Array.getD_eq_getD_getElem?, Array.getElem?_eq_getElem below]
    rfl

/-! ## Inverted graphs -/

theorem le_foldl_max (weights : List ℚ) (least : ℚ) :
    least ≤ weights.foldl (fun most w => if most < w then w else most) least ∧
      ∀ weight ∈ weights,
        weight ≤ weights.foldl (fun most w => if most < w then w else most) least := by
  induction weights generalizing least with
  | nil => simp
  | cons first rest ih =>
      obtain ⟨bound, others⟩ := ih (if least < first then first else least)
      have both : least ≤ (if least < first then first else least) ∧
          first ≤ (if least < first then first else least) := by
        split
        · exact ⟨‹least < first›.le, le_rfl⟩
        · exact ⟨le_rfl, not_lt.1 ‹_›⟩
      refine ⟨both.1.trans bound, fun weight member => ?_⟩
      rcases List.mem_cons.1 member with rfl | later
      · exact both.2.trans bound
      · exact others weight later

theorem le_heaviest {a b : Nat} {weight : ℚ} (edge : g.weight? a b = some weight) :
    weight ≤ g.heaviest := by
  refine (le_foldl_max _ 0).2 weight (List.mem_flatMap.2 ?_)
  have inside := lt_size_of_weight? (Option.isSome_of_eq_some edge)
  refine ⟨g.nodes[a], Array.getElem_mem_toList inside, List.mem_map.2 ⟨(b, weight), ?_, rfl⟩⟩
  rw [weight?, neighbours, Array.getElem?_eq_getElem inside, Option.map_some, Option.getD_some,
    List.lookup_eq_some_iff] at edge
  obtain ⟨before, after, same, -⟩ := edge
  rw [same]
  exact List.mem_append_right _ List.mem_cons_self

theorem positive_inverted : g.inverted.Positive := by
  intro a b weight edge
  rw [inverted_eq, weight?_mapWeights, Option.map_eq_some_iff] at edge
  obtain ⟨old, edge, rfl⟩ := edge
  linarith [le_heaviest edge]

/-! ## All nodes and all pairs -/

/-- The betweenness of a node is its share of the shortest walks between two others. The search out
of any source finds exactly the nodes that can be reached, their distances, the numbers of shortest
walks to them and the nodes that come last but one on these. There are finitely many shortest walks
and none of them meets a node twice. A graph with edges of any weights can be inverted to one with
edges of positive weight. -/
theorem betweenness_law (undirected : g.Undirected) (positive : g.Positive) :
    g.betweenness = (List.range g.size).map g.between ∧
      (∀ source < g.size, Paths.Explored g source (Paths.outOf g source)) ∧
      (∀ source < g.size, ∀ last, (g.shortest source last).Finite ∧
        ∀ path ∈ g.shortest source last, path.Nodup) ∧
      ∀ other : Graph ℚ, other.Undirected →
        other.inverted.Undirected ∧ other.inverted.Positive := by
  refine ⟨betweenness_eq undirected positive, fun source inside => ?_,
    fun source inside last => ⟨?_, ?_⟩, fun other undirected => ⟨?_, positive_inverted⟩⟩
  · exact Paths.explored undirected positive inside
  · exact finite_shortest positive source last
  · rintro path ⟨length, found⟩
    exact found.nodup positive
  · exact undirected.mapWeights _

/-- Two ways of the same length lead from each corner to the opposite one. -/
def square : Graph ℚ :=
  ((((isolated 4 ⟨0⟩).1.addEdge 0 1 1).addEdge 0 2 1).addEdge 1 3 1).addEdge 2 3 1

theorem positive_addEdge (both : g.Undirected ∧ g.Positive) (a b : Nat) {weight : ℚ}
    (more : 0 < weight) :
    (g.addEdge a b weight).Undirected ∧ (g.addEdge a b weight).Positive := by
  refine ⟨both.1.addEdge a b weight, ?_⟩
  by_cases joinable : g.canJoin a b = true
  · intro x y w edge
    rw [both.1.weight?_addEdge joinable] at edge
    split at edge
    · cases edge
      exact more
    · exact both.2 x y w edge
  · rw [addEdge, if_neg joinable]
    exact both.2

theorem square_positive : square.Undirected ∧ square.Positive := by
  have bare : (isolated 4 ⟨0⟩ : Graph ℚ × IdSequence).1.Positive := by
    intro a b w edge
    rw [weight?, neighbours_isolated] at edge
    cases edge
  exact positive_addEdge (positive_addEdge (positive_addEdge (positive_addEdge
    ⟨.isolated _ _, bare⟩ 0 1 one_pos) 0 2 one_pos) 1 3 one_pos) 2 3 one_pos

theorem betweenness_law_square : square.Undirected ∧ square.Positive ∧
    square.betweenness = [0, 1, 2, 3].map square.between ∧
    3 ∈ (Paths.outOf square 0).settled ∧
    (Paths.outOf square 0).pathsTo 3 = (square.shortest 0 3).ncard := by
  obtain ⟨undirected, positive⟩ := square_positive
  obtain ⟨values, explored, -⟩ := betweenness_law undirected positive
  have found := explored 0 (by decide)
  have reaches : square.Reaches 0 3 :=
    ⟨_, _, (Walk.here.step (by rfl : square.weight? 0 1 = some 1)).step
      (by rfl : square.weight? 1 3 = some 1)⟩
  exact ⟨undirected, positive, values, (found.reached 3).2 reaches, found.counted 3⟩

end Graph

end TwoLevel
