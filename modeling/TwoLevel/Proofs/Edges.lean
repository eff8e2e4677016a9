import Mathlib.Algebra.BigOperators.Group.Finset.Piecewise
import Mathlib.Algebra.BigOperators.Group.Finset.Sigma
import Mathlib.Algebra.GroupWithZero.Nat
import Mathlib.Algebra.Order.BigOperators.Group.Finset
import TwoLevel.Graph.CoOccurrence
import TwoLevel.Proofs.Rows

/-!
The edges of a graph as a function of two nodes. Every operation on graphs is described by what it
does to this function, and each of them keeps the graph undirected: the two ends of an edge agree on
its weight, no node is joined to itself, and the other end of an edge is a node.
-/

namespace TwoLevel.Graph

variable {V W : Type} {g : Graph W} {edges : List (Nat × W)} {a b x y node target : Nat}
  {weight : W} {ids : IdSequence}

/-! ## Lists of edges -/

theorem distinct_of_ascending (ascending : edges.Pairwise fun a b => a.1 < b.1) :
    edges.Pairwise fun a b => a.1 ≠ b.1 :=
  ascending.imp fun less => less.ne

theorem lookup_cons_eq_ite (edge : Nat × W) (rest : List (Nat × W)) (x : Nat) :
    (edge :: rest).lookup x = if x = edge.1 then some edge.2 else rest.lookup x := by
  rw [List.lookup_cons]
  rcases eq_or_ne x edge.1 with same | other
  · simp [same]
  · simp [other, beq_false_of_ne other]

theorem lookup_map_weights (f : W → V) (edges : List (Nat × W)) (node : Nat) :
    (edges.map fun edge => (edge.1, f edge.2)).lookup node = (edges.lookup node).map f := by
  induction edges with
  | nil => rfl
  | cons edge rest ih =>
      rw [List.map_cons, lookup_cons_eq_ite, lookup_cons_eq_ite, ih]
      split <;> rfl

theorem of_mem_setEdge {edge : Nat × W} (member : edge ∈ setEdge target weight edges) :
    edge.1 = target ∨ edge ∈ edges := by
  fun_induction setEdge target weight edges with
  | case1 => exact .inl (by rw [List.mem_singleton.1 member])
  | case2 first rest _ =>
      rcases List.mem_cons.1 member with rfl | earlier
      · exact .inl rfl
      · exact .inr earlier
  | case3 first rest _ _ =>
      rcases List.mem_cons.1 member with rfl | earlier
      · exact .inl rfl
      · exact .inr (List.mem_cons_of_mem _ earlier)
  | case4 first rest _ _ ih =>
      rcases List.mem_cons.1 member with rfl | later
      · exact .inr List.mem_cons_self
      · exact (ih later).imp_right (List.mem_cons_of_mem _)

theorem setEdge_ascending (ascending : edges.Pairwise fun a b => a.1 < b.1) :
    (setEdge target weight edges).Pairwise fun a b => a.1 < b.1 := by
  fun_induction setEdge target weight edges with
  | case1 => exact List.pairwise_singleton _ _
  | case2 first rest below =>
      refine List.pairwise_cons.2 ⟨fun edge member => ?_, ascending⟩
      rcases List.mem_cons.1 member with rfl | later
      · exact below
      · exact below.trans ((List.pairwise_cons.1 ascending).1 edge later)
  | case3 first rest _ same =>
      have ⟨head, tail⟩ := List.pairwise_cons.1 ascending
      exact List.pairwise_cons.2 ⟨fun edge later => same ▸ head edge later, tail⟩
  | case4 first rest notBelow other ih =>
      have ⟨head, tail⟩ := List.pairwise_cons.1 ascending
      refine List.pairwise_cons.2 ⟨fun edge member => ?_, ih tail⟩
      rcases of_mem_setEdge member with rfl | later
      · omega
      · exact head edge later

theorem lookup_setEdge (ascending : edges.Pairwise fun a b => a.1 < b.1) :
    (setEdge target weight edges).lookup x = if x = target then some weight else edges.lookup x := by
  fun_induction setEdge target weight edges with
  | case1 => rw [lookup_cons_eq_ite]
  | case2 first rest below => rw [lookup_cons_eq_ite]
  | case3 first rest _ same =>
      rw [lookup_cons_eq_ite, lookup_cons_eq_ite, ← same]
      split <;> rfl
  | case4 first rest _ other ih =>
      rw [lookup_cons_eq_ite, lookup_cons_eq_ite, ih (List.pairwise_cons.1 ascending).2]
      by_cases here : x = first.1
      · simp [here, Ne.symm other]
      · simp [here]

/-! ## What each operation does to the edges -/

theorem neighbours_of_size_le (beyond : g.size ≤ node) : g.neighbours node = [] := by
  rw [neighbours, Array.getElem?_eq_none beyond]
  rfl

theorem lt_size_of_weight? (joined : (g.weight? a b).isSome) : a < g.size := by
  by_contra beyond
  rw [weight?, neighbours_of_size_le (not_lt.1 beyond)] at joined
  cases joined

theorem size_addNode (g : Graph W) (ids : IdSequence) : (g.addNode ids).1.size = g.size + 1 :=
  Array.size_push ..

theorem size_addNodes (g : Graph W) (ids : IdSequence) (count : Nat) :
    (g.addNodes ids count).1.size = g.size + count := by
  induction count generalizing g ids with
  | zero => rfl
  | succ count ih => rw [addNodes, ih, size_addNode]; omega

theorem size_isolated (W : Type) (count : Nat) (ids : IdSequence) :
    (isolated count ids : Graph W × IdSequence).1.size = count := by
  rw [isolated, size_addNodes]
  exact Nat.zero_add count

theorem neighbours_addNode (g : Graph W) (ids : IdSequence) (node : Nat) :
    (g.addNode ids).1.neighbours node = g.neighbours node := by
  simp only [neighbours, addNode, Array.getElem?_push]
  split
  · rename_i last
    rw [last, Array.getElem?_eq_none (Nat.le_refl _)]
    rfl
  · rfl

theorem neighbours_addNodes (bare : ∀ node, g.neighbours node = []) (ids : IdSequence)
    (count node : Nat) : (g.addNodes ids count).1.neighbours node = [] := by
  induction count generalizing g ids with
  | zero => exact bare node
  | succ count ih =>
      exact ih (fun node => (neighbours_addNode g ids node).trans (bare node)) _

theorem neighbours_isolated (W : Type) (count : Nat) (ids : IdSequence) (node : Nat) :
    (isolated count ids : Graph W × IdSequence).1.neighbours node = [] :=
  neighbours_addNodes (fun _ => rfl) ids count node

theorem canJoin_iff : g.canJoin a b = true ↔ a ≠ b ∧ a < g.size ∧ b < g.size := by
  simp [canJoin, and_assoc]

theorem neighbours_addEdge (joinable : g.canJoin a b = true) :
    (g.addEdge a b weight).neighbours node =
      if node = a then setEdge b weight (g.neighbours a)
      else if node = b then setEdge a weight (g.neighbours b) else g.neighbours node := by
  obtain ⟨apart, first, second⟩ := canJoin_iff.1 joinable
  rw [addEdge, if_pos joinable]
  simp only [neighbours, Array.getElem?_modify]
  by_cases left : node = a
  · subst left
    rw [if_neg (Ne.symm apart), if_pos rfl, if_pos rfl, Array.getElem?_eq_getElem first]
    rfl
  · rw [if_neg left, if_neg (Ne.symm left)]
    by_cases right : node = b
    · subst right
      rw [if_pos rfl, if_pos rfl, Array.getElem?_eq_getElem second]
      rfl
    · rw [if_neg right, if_neg (Ne.symm right)]

theorem size_addEdge (g : Graph W) (a b : Nat) (weight : W) :
    (g.addEdge a b weight).size = g.size := by
  unfold addEdge
  split
  · rw [size, Array.size_modify, Array.size_modify, size]
  · rfl

theorem canJoin_addEdge (g : Graph W) (a b : Nat) (weight : W) :
    (g.addEdge a b weight).canJoin x y = g.canJoin x y := by
  rw [canJoin, canJoin, size_addEdge]

/-- Adds edges one after the other. -/
def addEdges (g : Graph W) (added : List (Nat × Nat × W)) : Graph W :=
  added.foldl (fun g (a, b, weight) => g.addEdge a b weight) g

theorem addEdges_induction {P : Graph W → Prop} (start : P g)
    (step : ∀ g a b weight, P g → P (g.addEdge a b weight)) (added : List (Nat × Nat × W)) :
    P (g.addEdges added) :=
  List.foldlRecOn added _ start fun g kept edge _ => step g edge.1 edge.2.1 edge.2.2 kept

theorem size_addEdges (g : Graph W) (added : List (Nat × Nat × W)) :
    (g.addEdges added).size = g.size :=
  addEdges_induction (P := (·.size = g.size)) rfl
    (fun _ _ _ _ same => (size_addEdge ..).trans same) added

theorem neighbours_mapWeights (f : W → V) (g : Graph W) (node : Nat) :
    (g.mapWeights f).neighbours node = (g.neighbours node).map fun edge => (edge.1, f edge.2) := by
  rw [neighbours, neighbours, mapWeights, Array.getElem?_map]
  cases g.nodes[node]? <;> rfl

theorem weight?_mapWeights (f : W → V) (g : Graph W) (a b : Nat) :
    (g.mapWeights f).weight? a b = (g.weight? a b).map f := by
  rw [weight?, neighbours_mapWeights, lookup_map_weights, weight?]

theorem size_mapWeights (f : W → V) (g : Graph W) : (g.mapWeights f).size = g.size :=
  Array.size_map ..

/-! ## Graphs from matrices -/

/-- The entry of a matrix that says how its row is joined to its column. -/
def cell? (matrix : Array (Array W)) (i j : Nat) : Option W := (matrix[i]?).bind (·[j]?)

theorem mem_drop_zipIdx {entries : List W} {k j : Nat} :
    (weight, j) ∈ entries.zipIdx.drop k ↔ k ≤ j ∧ entries[j]? = some weight := by
  rw [List.mem_iff_getElem?]
  simp only [List.getElem?_drop, List.getElem?_zipIdx, Option.map_eq_some_iff, Prod.mk.injEq]
  constructor
  · rintro ⟨n, entry, located, rfl, rfl⟩
    exact ⟨by omega, by simpa using located⟩
  · rintro ⟨far, located⟩
    exact ⟨j - k, weight, by rwa [Nat.add_sub_cancel' far], rfl, by omega⟩

section Matrix

variable [BEq W] [OfNat W 0] {matrix : Array (Array W)} {i j : Nat}

/-- The edges that a row of a matrix gives to its node. -/
def edgesOfRow (node : Nat) (row : Array W) : List (Nat × Nat × W) :=
  ((row.toList.zipIdx.drop (node + 1)).filter fun (weight, _) => !(weight == 0)).map
    fun (weight, other) => (node, other, weight)

theorem mem_edgesOfRow {row : Array W} :
    (i, j, weight) ∈ edgesOfRow node row ↔
      i = node ∧ i < j ∧ row[j]? = some weight ∧ (weight == 0) = false := by
  simp only [edgesOfRow, List.mem_map, List.mem_filter, Prod.exists, Prod.mk.injEq,
    Bool.not_eq_true']
  constructor
  · rintro ⟨_, _, ⟨member, nonzero⟩, rfl, rfl, rfl⟩
    obtain ⟨above, located⟩ := mem_drop_zipIdx.1 member
    exact ⟨rfl, above, by rwa [Array.getElem?_toList] at located, nonzero⟩
  · rintro ⟨rfl, above, located, nonzero⟩
    rw [← Array.getElem?_toList] at located
    exact ⟨weight, j, ⟨mem_drop_zipIdx.2 ⟨above, located⟩, nonzero⟩, rfl, rfl, rfl⟩

theorem joinRow_eq (g : Graph W) (node : Nat) (row : Array W) :
    g.joinRow node row = g.addEdges (edgesOfRow node row) := by
  rw [joinRow, addEdges, edgesOfRow, List.foldl_map, List.foldl_filter]
  congr 1
  funext g (weight, other)
  cases zero : weight == 0 <;> simp [zero]

/-- The edges that a matrix gives to the graph, row by row. -/
def edgesOfMatrix (matrix : Array (Array W)) : List (Nat × Nat × W) :=
  matrix.toList.zipIdx.flatMap fun (row, node) => edgesOfRow node row

theorem mem_edgesOfMatrix :
    (i, j, weight) ∈ edgesOfMatrix matrix ↔
      i < j ∧ cell? matrix i j = some weight ∧ (weight == 0) = false := by
  simp only [edgesOfMatrix, List.mem_flatMap, Prod.exists, mem_edgesOfRow,
    List.mk_mem_zipIdx_iff_getElem?, Array.getElem?_toList, cell?, Option.bind_eq_some_iff]
  constructor
  · rintro ⟨row, _, found, rfl, above, located, nonzero⟩
    exact ⟨above, ⟨row, found, located⟩, nonzero⟩
  · rintro ⟨above, ⟨row, found, located⟩, nonzero⟩
    exact ⟨row, i, found, rfl, above, located, nonzero⟩

theorem ofMatrix_eq (matrix : Array (Array W)) (ids : IdSequence) :
    ofMatrix matrix ids =
      ((isolated matrix.size ids : Graph W × IdSequence).1.addEdges (edgesOfMatrix matrix),
        (isolated matrix.size ids : Graph W × IdSequence).2) := by
  simp only [ofMatrix, joinRow_eq]
  rw [addEdges, edgesOfMatrix, List.foldl_flatMap]
  rfl

theorem size_ofMatrix (matrix : Array (Array W)) (ids : IdSequence) :
    (ofMatrix matrix ids).1.size = matrix.size := by
  rw [ofMatrix_eq, size_addEdges]
  exact size_isolated W matrix.size ids

end Matrix

/-! ## Graphs of rows -/

theorem size_thin (matrix : Array (Array Nat)) (density : Float) :
    (thin matrix density).size = matrix.size := by
  unfold thin
  dsimp only
  split
  · rfl
  · exact Array.size_map ..

/-- The numbers of meetings that make edges. -/
def kept (rows : Rows) : Option Float → Array (Array Nat)
  | none => rows.coOccurrence
  | some density => thin rows.coOccurrence density

theorem size_coOccurrence (rows : Rows) : rows.coOccurrence.size = rows.arity := by
  simp [Rows.coOccurrence]

theorem size_kept (rows : Rows) (density : Option Float) :
    (kept rows density).size = rows.arity := by
  cases density with
  | none => exact size_coOccurrence rows
  | some density => exact (size_thin _ density).trans (size_coOccurrence rows)

theorem ofRows_of_isEmpty {rows : Rows} (empty : rows.isEmpty = true) (density : Option Float)
    (ids : IdSequence) : ofRows rows density ids = isolated rows.arity ids := if_pos empty

theorem ofRows_of_rows {rows : Rows} (more : rows.isEmpty = false) (density : Option Float)
    (ids : IdSequence) : ofRows rows density ids =
      ((ofMatrix (kept rows density) ids).1.mapWeights Float.ofNat,
        (ofMatrix (kept rows density) ids).2) := by
  rw [ofRows, if_neg (by simp [more])]
  cases density <;> rfl

theorem size_ofRows (rows : Rows) (density : Option Float) (ids : IdSequence) :
    (ofRows rows density ids).1.size = rows.arity := by
  cases more : rows.isEmpty with
  | true => rw [ofRows_of_isEmpty more, size_isolated]
  | false => rw [ofRows_of_rows more, size_mapWeights, size_ofMatrix, size_kept]

section Inverted

variable [OfNat W 0] [OfNat W 1] [Add W] [Sub W] [LT W] [DecidableLT W]

def heaviest (g : Graph W) : W :=
  (g.nodes.toList.flatMap fun node => node.edges.map (·.2)).foldl
    (fun most w => if most < w then w else most) 0

theorem inverted_eq (g : Graph W) : g.inverted = g.mapWeights (1 + g.heaviest - ·) := rfl

end Inverted

/-! ## Undirected graphs -/

structure Undirected (g : Graph W) : Prop where
  ascending : ∀ node, (g.neighbours node).Pairwise fun a b => a.1 < b.1
  symmetric : ∀ a b, g.weight? a b = g.weight? b a
  loopless : ∀ node, g.weight? node node = none

namespace Undirected

theorem mem_neighbours (undirected : g.Undirected) :
    (b, weight) ∈ g.neighbours a ↔ g.weight? a b = some weight :=
  (lookup_eq_some_iff_mem (distinct_of_ascending (undirected.ascending a))).symm

theorem lt_size (undirected : g.Undirected) (joined : (g.weight? a b).isSome) : b < g.size :=
  lt_size_of_weight? (undirected.symmetric a b ▸ joined)

theorem of_bare (bare : ∀ node, g.neighbours node = []) : g.Undirected where
  ascending node := by simp [bare]
  symmetric a b := by simp [weight?, bare]
  loopless node := by simp [weight?, bare]

theorem isolated (count : Nat) (ids : IdSequence) :
    (isolated count ids : Graph W × IdSequence).1.Undirected :=
  of_bare (neighbours_isolated W count ids)

theorem addNode (undirected : g.Undirected) (ids : IdSequence) : (g.addNode ids).1.Undirected where
  ascending node := by
    rw [neighbours_addNode]
    exact undirected.ascending node
  symmetric a b := by
    rw [weight?, weight?, neighbours_addNode, neighbours_addNode]
    exact undirected.symmetric a b
  loopless node := by
    rw [weight?, neighbours_addNode]
    exact undirected.loopless node

theorem weight?_addEdge (undirected : g.Undirected) (joinable : g.canJoin a b = true) :
    (g.addEdge a b weight).weight? x y =
      if x = a ∧ y = b ∨ x = b ∧ y = a then some weight else g.weight? x y := by
  have apart := (canJoin_iff.1 joinable).1
  rw [weight?, neighbours_addEdge joinable]
  by_cases left : x = a
  · subst left
    rw [if_pos rfl, lookup_setEdge (undirected.ascending x), weight?]
    simp [apart]
  · rw [if_neg left]
    by_cases right : x = b
    · subst right
      rw [if_pos rfl, lookup_setEdge (undirected.ascending x), weight?]
      simp [left]
    · rw [if_neg right, weight?]
      simp [left, right]

theorem addEdge (undirected : g.Undirected) (a b : Nat) (weight : W) :
    (g.addEdge a b weight).Undirected := by
  by_cases joinable : g.canJoin a b = true
  · have apart := (canJoin_iff.1 joinable).1
    constructor
    · intro node
      rw [neighbours_addEdge joinable]
      split
      · exact setEdge_ascending (undirected.ascending a)
      · split
        · exact setEdge_ascending (undirected.ascending b)
        · exact undirected.ascending node
    · intro x y
      rw [undirected.weight?_addEdge joinable, undirected.weight?_addEdge joinable,
        undirected.symmetric x y]
      congr 1
      apply propext
      tauto
    · intro node
      rw [undirected.weight?_addEdge joinable, if_neg (by omega)]
      exact undirected.loopless node
  · rw [Graph.addEdge, if_neg joinable]
    exact undirected

theorem addEdges (undirected : g.Undirected) (added : List (Nat × Nat × W)) :
    (g.addEdges added).Undirected :=
  addEdges_induction undirected (fun _ _ _ _ kept => kept.addEdge ..) added

theorem weight?_addEdge_of_ne (undirected : g.Undirected)
    (apart : ¬(x = a ∧ y = b ∨ x = b ∧ y = a)) :
    (g.addEdge a b weight).weight? x y = g.weight? x y := by
  by_cases joinable : g.canJoin a b = true
  · rw [undirected.weight?_addEdge joinable, if_neg apart]
  · rw [Graph.addEdge, if_neg joinable]

/-- When the edges lead upward and agree on two nodes, they are what joins these. -/
theorem weight?_addEdges {i j : Nat} {added : List (Nat × Nat × W)} {read : Option W}
    (undirected : g.Undirected) (joinable : g.canJoin i j = true) (less : i < j)
    (upward : ∀ a b weight, (a, b, weight) ∈ added → a < b)
    (agreed : ∀ weight, (i, j, weight) ∈ added → read = some weight)
    (reached : g.weight? i j = read ∨ ∃ weight, (i, j, weight) ∈ added) :
    (g.addEdges added).weight? i j = read := by
  induction added generalizing g with
  | nil => exact reached.resolve_right (by simp)
  | cons edge rest ih =>
      obtain ⟨a, b, weight⟩ := edge
      have up := upward a b weight List.mem_cons_self
      refine ih (undirected.addEdge a b weight) (by rwa [canJoin_addEdge])
        (fun a b weight later => upward a b weight (List.mem_cons_of_mem _ later))
        (fun weight later => agreed weight (List.mem_cons_of_mem _ later)) ?_
      by_cases same : i = a ∧ j = b
      · obtain ⟨rfl, rfl⟩ := same
        rw [undirected.weight?_addEdge joinable, if_pos (.inl ⟨rfl, rfl⟩)]
        exact .inl (agreed weight List.mem_cons_self).symm
      · rw [undirected.weight?_addEdge_of_ne (by omega)]
        refine reached.imp_right fun ⟨other, member⟩ => ⟨other, ?_⟩
        rcases List.mem_cons.1 member with here | later
        · cases here
          exact absurd ⟨rfl, rfl⟩ same
        · exact later

theorem ofMatrix [BEq W] [OfNat W 0] (matrix : Array (Array W)) (ids : IdSequence) :
    (ofMatrix matrix ids).1.Undirected := by
  rw [ofMatrix_eq]
  exact (isolated _ _).addEdges _

theorem mapWeights (undirected : g.Undirected) (f : W → V) : (g.mapWeights f).Undirected where
  ascending node := by
    rw [neighbours_mapWeights, List.pairwise_map]
    exact undirected.ascending node
  symmetric a b := by rw [weight?_mapWeights, weight?_mapWeights, undirected.symmetric]
  loopless node := by
    rw [weight?_mapWeights, undirected.loopless]
    rfl

theorem ofRows (rows : Rows) (density : Option Float) (ids : IdSequence) :
    (ofRows rows density ids).1.Undirected := by
  cases more : rows.isEmpty with
  | true =>
      rw [ofRows_of_isEmpty more]
      exact isolated _ _
  | false =>
      rw [ofRows_of_rows more]
      exact (ofMatrix _ _).mapWeights _

/-! ## Numbers of edges -/

theorem length_neighbours (undirected : g.Undirected) (a : Nat) :
    (g.neighbours a).length =
      ∑ b ∈ Finset.range g.size, if (g.weight? a b).isSome then 1 else 0 := by
  have distinct : ((g.neighbours a).map (·.1)).Nodup := by
    rw [List.nodup_iff_pairwise_ne, List.pairwise_map]
    exact distinct_of_ascending (undirected.ascending a)
  have ends : ((g.neighbours a).map (·.1)).toFinset =
      (Finset.range g.size).filter fun b => (g.weight? a b).isSome := by
    ext b
    rw [List.mem_toFinset, List.mem_map, Finset.mem_filter, Finset.mem_range]
    constructor
    · rintro ⟨⟨b, weight⟩, member, rfl⟩
      have joined : (g.weight? a b).isSome := by
        rw [undirected.mem_neighbours.1 member]
        rfl
      exact ⟨undirected.lt_size joined, joined⟩
    · rintro ⟨-, joined⟩
      obtain ⟨weight, found⟩ := Option.isSome_iff_exists.1 joined
      exact ⟨(b, weight), undirected.mem_neighbours.2 found, rfl⟩
  rw [← Finset.card_filter, ← ends, List.toFinset_card_of_nodup distinct, List.length_map]

theorem length_neighbours_le (undirected : g.Undirected) (a : Nat) :
    (g.neighbours a).length ≤ g.size := by
  rw [undirected.length_neighbours, ← Finset.card_filter]
  exact (Finset.card_filter_le _ _).trans_eq (Finset.card_range _)

theorem sum_map_range (f : Nat → Nat) (n : Nat) :
    ((List.range n).map f).sum = ∑ i ∈ Finset.range n, f i := rfl

theorem length_edges (g : Graph W) :
    (g.nodes.toList.flatMap (·.edges)).length =
      ∑ a ∈ Finset.range g.size, (g.neighbours a).length := by
  have listed : g.nodes.toList.map (fun node => node.edges.length) =
      (List.range g.size).map fun a => (g.neighbours a).length := by
    apply List.ext_getElem
    · simp [size]
    · intro a inside _
      have inside : a < g.nodes.size := by simpa using inside
      simp [neighbours, inside]
  rw [List.length_flatMap, listed, sum_map_range]

/-- Each edge is listed at both of its ends. -/
theorem edgeCount_eq (undirected : g.Undirected) : g.edgeCount =
    ((Finset.range g.size ×ˢ Finset.range g.size).filter fun pair =>
      pair.1 < pair.2 ∧ (g.weight? pair.1 pair.2).isSome).card := by
  have halves (a b : Nat) : (if (g.weight? a b).isSome then 1 else 0) =
      (if a < b ∧ (g.weight? a b).isSome then 1 else 0) +
        if b < a ∧ (g.weight? b a).isSome then 1 else 0 := by
    rw [undirected.symmetric b a]
    rcases lt_trichotomy a b with less | rfl | more
    · simp [less, less.not_gt]
    · simp [undirected.loopless]
    · simp [more, more.not_gt]
  rw [edgeCount, length_edges, Finset.card_filter, Finset.sum_product]
  simp only [undirected.length_neighbours, halves, Finset.sum_add_distrib]
  rw [Finset.sum_comm (f := fun a b => if b < a ∧ (g.weight? b a).isSome then 1 else 0)]
  omega

end Undirected

/-- Only the entries above the diagonal are read. -/
theorem weight?_ofMatrix [BEq W] [OfNat W 0] {matrix : Array (Array W)} {i j : Nat}
    (less : i < j) (inside : j < matrix.size) :
    (ofMatrix matrix ids).1.weight? i j =
      (cell? matrix i j).filter fun weight => !(weight == 0) := by
  rw [ofMatrix_eq]
  apply (Undirected.isolated matrix.size ids).weight?_addEdges
  · rw [canJoin_iff, size_isolated]
    omega
  · exact less
  · exact fun a b weight member => (mem_edgesOfMatrix.1 member).1
  · intro weight member
    obtain ⟨-, located, nonzero⟩ := mem_edgesOfMatrix.1 member
    simp [located, nonzero]
  · cases read : (cell? matrix i j).filter fun weight => !(weight == 0) with
    | none => exact .inl (by rw [weight?, neighbours_isolated, List.lookup_nil])
    | some weight =>
        obtain ⟨located, nonzero⟩ := Option.filter_eq_some_iff.1 read
        exact .inr ⟨weight, mem_edgesOfMatrix.2 ⟨less, located, by simpa using nonzero⟩⟩

end TwoLevel.Graph
