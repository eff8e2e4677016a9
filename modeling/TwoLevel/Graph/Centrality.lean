import TwoLevel.Graph.ShortestPaths
import TwoLevel.Graph.CoOccurrence
import TwoLevel.Number.Shortest

/-!
How central the nodes of a graph are: by the weight of their edges, by the shortest paths that run
through them when heavy edges are short, or by both.
-/

namespace TwoLevel

inductive Centrality where
  | degree
  | betweenness
  /-- The share of the degree; the betweenness makes up the rest. -/
  | blend (weight : Float)
deriving DecidableEq

namespace Graph

def degrees (g : Graph Float) : List Float :=
  (List.range g.size).map fun node => (g.neighbours node).foldl (fun sum edge => sum + edge.2) 0

end Graph

namespace Centrality

def scores (g : Graph Float) : Centrality → List Float
  | degree => g.degrees
  | betweenness => g.inverted.betweenness
  | blend weight =>
      let w := Graph.clampUnit weight
      g.degrees.zipWith (fun d b => w * d + (1 - w) * b) g.inverted.betweenness

instance : ToString Centrality where
  toString
    | degree => "degree"
    | betweenness => "betweenness"
    | blend weight => "blend(" ++ Number.floatText weight ++ ")"

end Centrality

end TwoLevel
