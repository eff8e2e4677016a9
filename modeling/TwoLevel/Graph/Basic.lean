/-!
Undirected weighted graphs. Nodes are numbered by position and carry an identifier; the edges of a
node are listed by the position of their other end.
-/

namespace TwoLevel

structure IdSequence where
  next : Nat := 0
deriving DecidableEq, Repr

def IdSequence.draw (ids : IdSequence) : Nat × IdSequence := (ids.next, ⟨ids.next + 1⟩)

structure Graph.Node (W : Type) where
  id : Nat
  edges : List (Nat × W) := []

structure Graph (W : Type) where
  nodes : Array (Graph.Node W) := #[]

namespace Graph

variable {W : Type}

def size (g : Graph W) : Nat := g.nodes.size

def addNode (g : Graph W) (ids : IdSequence) : Graph W × IdSequence :=
  let (id, ids) := ids.draw
  (⟨g.nodes.push ⟨id, []⟩⟩, ids)

def addNodes (g : Graph W) (ids : IdSequence) : Nat → Graph W × IdSequence
  | 0 => (g, ids)
  | count + 1 =>
      let (g, ids) := g.addNode ids
      g.addNodes ids count

def isolated (count : Nat) (ids : IdSequence) : Graph W × IdSequence :=
  addNodes {} ids count

/-- The edges with one to `target` of the given weight, in place of an earlier one. -/
def setEdge (target : Nat) (weight : W) : List (Nat × W) → List (Nat × W)
  | [] => [(target, weight)]
  | edge :: rest =>
      if target < edge.1 then (target, weight) :: edge :: rest
      else if target = edge.1 then (target, weight) :: rest
      else edge :: setEdge target weight rest

def Node.join (node : Node W) (target : Nat) (weight : W) : Node W :=
  { node with edges := setEdge target weight node.edges }

def canJoin (g : Graph W) (a b : Nat) : Bool := a ≠ b && a < g.size && b < g.size

def addEdge (g : Graph W) (a b : Nat) (weight : W) : Graph W :=
  if g.canJoin a b then ⟨(g.nodes.modify a (·.join b weight)).modify b (·.join a weight)⟩ else g

def nodeId? (g : Graph W) (node : Nat) : Option Nat := g.nodes[node]?.map (·.id)

def neighbours (g : Graph W) (node : Nat) : List (Nat × W) :=
  (g.nodes[node]?.map (·.edges)).getD []

def weight? (g : Graph W) (a b : Nat) : Option W := (g.neighbours a).lookup b

def edgeCount (g : Graph W) : Nat :=
  (g.nodes.toList.flatMap (·.edges)).length / 2

/-- Joins a node to others by the entries of its row that stand above the diagonal and are not
zero. -/
def joinRow [BEq W] [OfNat W 0] (g : Graph W) (node : Nat) (row : Array W) : Graph W :=
  (row.toList.zipIdx.drop (node + 1)).foldl
    (fun g (weight, other) => if weight == 0 then g else g.addEdge node other weight) g

def ofMatrix [BEq W] [OfNat W 0] (matrix : Array (Array W)) (ids : IdSequence) :
    Graph W × IdSequence :=
  let (g, ids) : Graph W × IdSequence := isolated matrix.size ids
  (matrix.toList.zipIdx.foldl (fun g (row, node) => g.joinRow node row) g, ids)

def mapWeights {V : Type} (f : W → V) (g : Graph W) : Graph V :=
  ⟨g.nodes.map fun node => ⟨node.id, node.edges.map fun (target, w) => (target, f w)⟩⟩

/-- The same edges, weighed by how far they fall short of one more than the heaviest. -/
def inverted [OfNat W 0] [OfNat W 1] [Add W] [Sub W] [LT W] [DecidableLT W] (g : Graph W) :
    Graph W :=
  let weights := g.nodes.toList.flatMap fun node => node.edges.map (·.2)
  let heaviest := weights.foldl (fun most w => if most < w then w else most) 0
  g.mapWeights (1 + heaviest - ·)

end Graph

end TwoLevel
