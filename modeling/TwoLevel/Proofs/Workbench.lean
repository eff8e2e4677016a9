import TwoLevel.Proofs.Edges

/-!
Graphs that are built side by side, with identifiers from one sequence. Whatever is done with them,
each stays undirected, and no identifier is drawn for two nodes.
-/

namespace TwoLevel

/-! ## Identifiers -/

namespace Graph

variable {V W : Type} {g : Graph W} {node : Nat}

def identifiers (g : Graph W) : List Nat := g.nodes.toList.map (·.id)

theorem nodeId?_eq (g : Graph W) (node : Nat) : g.nodeId? node = g.identifiers[node]? := by
  rw [nodeId?, identifiers, List.getElem?_map, Array.getElem?_toList]

theorem nodeId?_isSome : (g.nodeId? node).isSome ↔ node < g.size := by
  simp [nodeId?, size]

theorem identifiers_addNode (g : Graph W) (ids : IdSequence) :
    (g.addNode ids).1.identifiers = g.identifiers ++ [ids.next] := by
  simp [identifiers, addNode, IdSequence.draw]

theorem addNodes_draws (g : Graph W) (ids : IdSequence) (count : Nat) :
    (g.addNodes ids count).1.identifiers = g.identifiers ++ List.range' ids.next count ∧
      (g.addNodes ids count).2.next = ids.next + count := by
  induction count generalizing g ids with
  | zero => exact ⟨(List.append_nil _).symm, rfl⟩
  | succ count ih =>
      obtain ⟨drawn, next⟩ := ih (g.addNode ids).1 (g.addNode ids).2
      rw [identifiers_addNode, List.append_assoc] at drawn
      refine ⟨drawn, next.trans ?_⟩
      change ids.next + 1 + count = _
      omega

theorem identifiers_addEdge (g : Graph W) (a b : Nat) (weight : W) :
    (g.addEdge a b weight).identifiers = g.identifiers := by
  unfold addEdge
  split
  · apply List.ext_getElem?
    intro node
    simp only [← nodeId?_eq, nodeId?, Array.getElem?_modify]
    split <;> split <;> cases g.nodes[node]? <;> rfl
  · rfl

theorem identifiers_addEdges (g : Graph W) (added : List (Nat × Nat × W)) :
    (g.addEdges added).identifiers = g.identifiers :=
  addEdges_induction (P := (·.identifiers = g.identifiers)) rfl
    (fun _ _ _ _ same => (identifiers_addEdge ..).trans same) added

theorem identifiers_mapWeights (f : W → V) (g : Graph W) :
    (g.mapWeights f).identifiers = g.identifiers := by
  simp [identifiers, mapWeights, Function.comp_def]

theorem ofMatrix_draws [BEq W] [OfNat W 0] (matrix : Array (Array W)) (ids : IdSequence) :
    (ofMatrix matrix ids).1.identifiers = List.range' ids.next matrix.size ∧
      (ofMatrix matrix ids).2.next = ids.next + matrix.size := by
  obtain ⟨drawn, next⟩ := addNodes_draws ({} : Graph W) ids matrix.size
  rw [ofMatrix_eq, identifiers_addEdges]
  exact ⟨drawn, next⟩

theorem ofRows_draws (rows : Rows) (density : Option Float) (ids : IdSequence) :
    (ofRows rows density ids).1.identifiers = List.range' ids.next rows.arity ∧
      (ofRows rows density ids).2.next = ids.next + rows.arity := by
  cases more : rows.isEmpty with
  | true =>
      rw [ofRows_of_isEmpty more]
      exact addNodes_draws {} ids rows.arity
  | false =>
      rw [ofRows_of_rows more, identifiers_mapWeights, ← size_kept rows density]
      exact ofMatrix_draws _ ids

end Graph

/-! ## Steps -/

/-- Graphs that take their identifiers from one sequence, each with the number of the graph that
its nodes were made for: an inverted graph has the nodes of the graph it was made from. -/
structure Workbench where
  graphs : List (Nat × Graph Float) := []
  ids : IdSequence := {}

namespace Workbench

variable {s t : Workbench} {place : Nat} {g made : Graph Float} {ids : IdSequence}

def add (s : Workbench) : Graph Float × IdSequence → Workbench
  | (g, ids) => ⟨s.graphs ++ [(s.graphs.length, g)], ids⟩

def replace (s : Workbench) (place family : Nat) : Graph Float × IdSequence → Workbench
  | (g, ids) => ⟨s.graphs.set place (family, g), ids⟩

inductive Step (s : Workbench) : Workbench → Prop
  | draw : Step s ⟨s.graphs, s.ids.draw.2⟩
  | isolated (count : Nat) : Step s (s.add (Graph.isolated count s.ids))
  | ofMatrix (matrix : Array (Array Float)) : Step s (s.add (Graph.ofMatrix matrix s.ids))
  | ofRows (rows : Rows) (density : Option Float) : Step s (s.add (Graph.ofRows rows density s.ids))
  | addNode {place family : Nat} {g : Graph Float} (found : s.graphs[place]? = some (family, g)) :
      Step s (s.replace place family (g.addNode s.ids))
  | addEdge {place family : Nat} {g : Graph Float} (found : s.graphs[place]? = some (family, g))
      (a b : Nat) (weight : Float) :
      Step s (s.replace place family (g.addEdge a b weight, s.ids))
  | inverted {place family : Nat} {g : Graph Float} (found : s.graphs[place]? = some (family, g)) :
      Step s ⟨s.graphs ++ [(family, g.inverted)], s.ids⟩

inductive Reaches (first : Nat) : Workbench → Prop
  | start : Reaches first ⟨[], ⟨first⟩⟩
  | step {s t : Workbench} (earlier : Reaches first s) (step : s.Step t) : Reaches first t

/-- The graphs are undirected, and each identifier that was drawn is owned by one of the graphs that
nodes were made for. -/
structure Sound (owner : Nat → Nat) (s : Workbench) : Prop where
  undirected : ∀ entry ∈ s.graphs, entry.2.Undirected
  families : ∀ entry ∈ s.graphs, entry.1 < s.graphs.length
  distinct : ∀ entry ∈ s.graphs, entry.2.identifiers.Nodup
  drawn : ∀ entry ∈ s.graphs, ∀ id ∈ entry.2.identifiers, id < s.ids.next
  owned : ∀ entry ∈ s.graphs, ∀ id ∈ entry.2.identifiers, owner id = entry.1

/-- A graph of which the new nodes have drawn their identifiers. -/
structure Draws (old : List Nat) (ids : IdSequence) (made : Graph Float) (next : IdSequence) :
    Prop where
  undirected : made.Undirected
  identifiers : ∃ count, made.identifiers = old ++ List.range' ids.next count ∧
    next.next = ids.next + count

/-- What a step puts onto the workbench is a graph that draws new identifiers for one of the numbers
that nodes are made for, in place of one of this number or besides all others. -/
theorem Sound.put {owner : Nat → Nat} {old : List Nat} (sound : s.Sound owner)
    (family : Nat) (draws : Draws old s.ids made t.ids) (below : family < t.graphs.length)
    (more : s.graphs.length ≤ t.graphs.length)
    (kept : ∀ entry ∈ t.graphs, entry ∈ s.graphs ∨ entry = (family, made))
    (distinct : old.Nodup) (drawn : ∀ id ∈ old, id < s.ids.next)
    (owned : ∀ id ∈ old, owner id = family) : ∃ owner, t.Sound owner := by
  obtain ⟨undirected, count, listed, next⟩ := draws
  have fresh : ∀ id ∈ made.identifiers,
      (id ∈ old ∧ id < s.ids.next) ∨ (s.ids.next ≤ id ∧ id < t.ids.next) := by
    intro id member
    rw [listed, List.mem_append, List.mem_range'_1] at member
    rcases member with member | inside
    · exact .inl ⟨member, drawn id member⟩
    · exact .inr (by omega)
  refine ⟨fun id => if id < s.ids.next then owner id else family, ?_, ?_, ?_, ?_, ?_⟩
  · intro entry member
    rcases kept entry member with earlier | rfl
    · exact sound.undirected entry earlier
    · exact undirected
  · intro entry member
    rcases kept entry member with earlier | rfl
    · exact (sound.families entry earlier).trans_le more
    · exact below
  · intro entry member
    rcases kept entry member with earlier | rfl
    · exact sound.distinct entry earlier
    · rw [listed]
      refine List.nodup_append.2 ⟨distinct, List.nodup_range', fun id first other second => ?_⟩
      have := drawn id first
      have := (List.mem_range'_1.1 second).1
      omega
  · intro entry member id inside
    rcases kept entry member with earlier | rfl
    · have := sound.drawn entry earlier id inside
      omega
    · rcases fresh id inside with ⟨-, less⟩ | ⟨-, less⟩ <;> omega
  · intro entry member id inside
    rcases kept entry member with earlier | rfl
    · rw [if_pos (sound.drawn entry earlier id inside)]
      exact sound.owned entry earlier id inside
    · rcases fresh id inside with ⟨member, less⟩ | ⟨more, -⟩
      · rw [if_pos less]
        exact owned id member
      · rw [if_neg (not_lt.2 more)]

theorem Sound.add {owner : Nat → Nat} (sound : s.Sound owner) (draws : Draws [] s.ids made ids) :
    ∃ owner, (s.add (made, ids)).Sound owner := by
  refine sound.put s.graphs.length draws ?_ ?_ ?_ List.nodup_nil (by simp) (by simp)
  · simp [Workbench.add]
  · simp [Workbench.add]
  · intro entry member
    simpa [Workbench.add] using member

theorem Sound.replace {owner : Nat → Nat} {family : Nat} (sound : s.Sound owner)
    (found : s.graphs[place]? = some (family, g)) (draws : Draws g.identifiers s.ids made ids) :
    ∃ owner, (s.replace place family (made, ids)).Sound owner := by
  have member := List.mem_of_getElem? found
  refine sound.put family draws ?_ ?_ ?_ (sound.distinct _ member)
    (sound.drawn _ member) (sound.owned _ member)
  · simpa [Workbench.replace] using sound.families _ member
  · simp [Workbench.replace]
  · intro entry kept
    exact List.mem_or_eq_of_mem_set kept

theorem Draws.none (undirected : made.Undirected) (same : made.identifiers = g.identifiers) :
    Draws g.identifiers ids made ids :=
  ⟨undirected, 0, by simp [same], rfl⟩

theorem Sound.step {owner : Nat → Nat} (sound : s.Sound owner) (step : s.Step t) :
    ∃ owner, t.Sound owner := by
  cases step with
  | draw =>
      refine ⟨owner, sound.undirected, sound.families, sound.distinct, ?_, sound.owned⟩
      intro entry member id inside
      exact (sound.drawn entry member id inside).trans (Nat.lt_succ_self _)
  | isolated count =>
      exact sound.add ⟨.isolated count s.ids, count, Graph.addNodes_draws {} s.ids count⟩
  | ofMatrix matrix =>
      exact sound.add ⟨.ofMatrix matrix s.ids, _, Graph.ofMatrix_draws matrix s.ids⟩
  | ofRows rows density =>
      exact sound.add ⟨.ofRows rows density s.ids, _, Graph.ofRows_draws rows density s.ids⟩
  | addNode found =>
      have undirected := sound.undirected _ (List.mem_of_getElem? found)
      exact sound.replace found ⟨undirected.addNode s.ids, 1, Graph.identifiers_addNode _ s.ids, rfl⟩
  | addEdge found a b weight =>
      have undirected := sound.undirected _ (List.mem_of_getElem? found)
      exact sound.replace found (.none (undirected.addEdge a b weight) (Graph.identifiers_addEdge ..))
  | @inverted place family g found =>
      have member := List.mem_of_getElem? found
      have draws : Draws g.identifiers s.ids g.inverted s.ids :=
        .none ((sound.undirected _ member).mapWeights _) (Graph.identifiers_mapWeights _ g)
      refine sound.put family draws ((sound.families _ member).trans_le ?_) ?_ ?_
        (sound.distinct _ member) (sound.drawn _ member) (sound.owned _ member)
      · simp
      · simp
      · intro entry kept
        simpa using kept

theorem Reaches.sound {first : Nat} (reaches : Reaches first s) : ∃ owner, s.Sound owner := by
  induction reaches with
  | start => exact ⟨id, by simp, by simp, by simp, by simp, by simp⟩
  | step _ step ih =>
      obtain ⟨owner, sound⟩ := ih
      exact sound.step step

end Workbench

/-- The edges of a graph join two different nodes each and are listed at both ends with one weight,
and adding an edge changes no other one. -/
structure Graph.Lawful (g : Graph Float) : Prop where
  symmetric : ∀ a b, g.weight? a b = g.weight? b a
  loopless : ∀ node, ∀ edge ∈ g.neighbours node, edge.1 ≠ node
  below : ∀ node, ∀ edge ∈ g.neighbours node, edge.1 < g.size
  ascending : ∀ node, (g.neighbours node).Pairwise fun a b => a.1 < b.1
  listed : ∀ node other weight, (other, weight) ∈ g.neighbours node ↔
    g.weight? node other = some weight
  identified : ∀ node, (g.nodeId? node).isSome ↔ node < g.size
  unlisted : ∀ node, g.size ≤ node → g.neighbours node = []
  edges : g.edgeCount = ((Finset.range g.size ×ˢ Finset.range g.size).filter fun pair =>
    pair.1 < pair.2 ∧ (g.weight? pair.1 pair.2).isSome).card
  refused : ∀ a b weight, g.canJoin a b = false → g.addEdge a b weight = g
  joined : ∀ a b weight, g.canJoin a b = true →
    (∀ node, (g.addEdge a b weight).nodeId? node = g.nodeId? node) ∧
      ∀ x y, (g.addEdge a b weight).weight? x y =
        if x = a ∧ y = b ∨ x = b ∧ y = a then some weight else g.weight? x y

theorem Graph.Undirected.isLawful {g : Graph Float} (undirected : g.Undirected) : g.Lawful where
  symmetric := undirected.symmetric
  loopless node edge member same := by
    have joined := undirected.mem_neighbours.1 member
    rw [same, undirected.loopless] at joined
    cases joined
  below node edge member := by
    apply undirected.lt_size (a := node)
    rw [undirected.mem_neighbours.1 member]
    rfl
  ascending := undirected.ascending
  listed _ _ _ := undirected.mem_neighbours
  identified _ := nodeId?_isSome
  unlisted _ := neighbours_of_size_le
  edges := undirected.edgeCount_eq
  refused a b weight apart := by rw [Graph.addEdge, apart, if_neg Bool.false_ne_true]
  joined a b weight joinable := by
    refine ⟨fun node => ?_, fun x y => undirected.weight?_addEdge joinable⟩
    rw [nodeId?_eq, nodeId?_eq, identifiers_addEdge]

/-- Whatever is done with graphs side by side, each of them is lawful, and no two nodes have drawn
the same identifier, in one graph or in two. A matrix joins two nodes by its entry above the
diagonal, unless that is missing or zero. -/
theorem Workbench.graphs_law :
    (∀ first s, Reaches first s →
      (∀ entry ∈ s.graphs, entry.2.Lawful ∧ entry.2.identifiers.Nodup ∧
        ∀ id ∈ entry.2.identifiers, id < s.ids.next) ∧
      ∀ one ∈ s.graphs, ∀ other ∈ s.graphs, one.1 ≠ other.1 →
        one.2.identifiers.Disjoint other.2.identifiers) ∧
    ∀ (matrix : Array (Array Float)) (ids : IdSequence) (i j : Nat), i < j → j < matrix.size →
      (Graph.ofMatrix matrix ids).1.weight? i j =
        (Graph.cell? matrix i j).filter fun weight => !(weight == 0) := by
  constructor
  · intro first s reaches
    obtain ⟨owner, sound⟩ := reaches.sound
    refine ⟨fun entry member => ⟨(sound.undirected entry member).isLawful,
      sound.distinct entry member, sound.drawn entry member⟩, ?_⟩
    intro one member other too apart id here there
    exact apart ((sound.owned one member id here).symm.trans (sound.owned other too id there))
  · intro matrix ids i j less inside
    exact Graph.weight?_ofMatrix less inside

/-- An edge that was added and a ragged matrix with entries where none are read. -/
theorem Workbench.graphs_law_ragged :
    let pair : Graph Float × IdSequence := Graph.isolated 2 ⟨7⟩
    let joined := pair.1.addEdge 1 0 0.5
    let ragged := Graph.ofMatrix #[#[5, 2, 4], #[3]] pair.2
    let s : Workbench := ⟨[(0, joined), (0, joined.inverted), (2, ragged.1)], ragged.2⟩
    Workbench.Reaches 7 s ∧ joined.inverted.Lawful ∧
      joined.inverted.identifiers.Disjoint ragged.1.identifiers ∧
      ragged.1.weight? 0 1 = some 2 := by
  intro pair joined ragged s
  have reaches : Workbench.Reaches 7 s :=
    .step (.step (.step (.step .start (.isolated 2))
      (@Workbench.Step.addEdge _ 0 0 pair.1 rfl 1 0 0.5))
      (@Workbench.Step.inverted _ 0 0 joined rfl)) (.ofMatrix #[#[5, 2, 4], #[3]])
  obtain ⟨each, apart⟩ := Workbench.graphs_law.1 7 s reaches
  refine ⟨reaches, (each (0, joined.inverted) (by simp [s])).1,
    apart (0, joined.inverted) (by simp [s]) (2, ragged.1) (by simp [s]) (by decide), ?_⟩
  rw [Workbench.graphs_law.2 _ _ 0 1 (by decide) (by decide)]
  decide

end TwoLevel
