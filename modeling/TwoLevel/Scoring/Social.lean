import TwoLevel.Scoring.Basic
import TwoLevel.Graph.Centrality
import TwoLevel.Number.Scale

/-!
Social scoring: literals on variables that are central in the onset and not in the offset are worth
more. The interactivity says how much this weighs against the frequency of a literal.
-/

namespace TwoLevel

structure Social where
  interactivity : Float
  resolution : Float
  /-- For each variable, how much more central it is in the onset than in the offset. -/
  scores : Array Float

namespace Social

def defaultResolution : Float := 1e-5

def inUnit (x : Float) : Bool := 0 ≤ x && x ≤ 1

def checkSettings (interactivity resolution : Float) : Except Failure Unit := do
  if !inUnit interactivity then .error (.invalidInteractivity interactivity)
  if !(resolution.isFinite && 0 < resolution) then .error (.invalidResolution resolution)

def checkBlend : Centrality → Except Failure Unit
  | .blend weight => if inUnit weight then .ok () else .error (.invalidBlendWeight weight)
  | _ => .ok ()

def ofScores (scores : Array Float) (interactivity resolution : Float) : Except Failure Social := do
  checkSettings interactivity resolution
  return ⟨interactivity, resolution, scores⟩

/-- The centrality of the variables in the onset less that in the offset, over the unit
interval. -/
def contrast (onset offset : Rows) (centrality : Centrality) : List Float :=
  let (onGraph, ids) := Graph.ofRows onset (some Graph.defaultDensity) {}
  let (offGraph, _) := Graph.ofRows offset (some Graph.defaultDensity) ids
  Number.rescale ((centrality.scores onGraph).zipWith (· - ·) (centrality.scores offGraph))

def ofRows (onset offset : Rows) (interactivity : Float) (centrality : Centrality)
    (resolution : Float) : Except Failure Social := do
  checkSettings interactivity resolution
  checkBlend centrality
  Rows.checkVariables onset offset
  return ⟨interactivity, resolution, (contrast onset offset centrality).toArray⟩

/-- The score of a variable, zero for one that has none. -/
def score (s : Social) (var : Nat) : Float := (s.scores[var]?).getD 0

def blended (s : Social) (l : Literal) (frequency : Float) : Float :=
  Number.roundTo s.resolution
    (s.interactivity * s.score l.var + (1 - s.interactivity) * frequency)

def growth (s : Social) (c : Cube) (rows : Rows) : List (Literal × Float) :=
  let counts := Scoring.counts c rows
  let frequencies := Number.rescale (counts.map fun entry => .ofNat entry.2)
  counts.zipWith (fun entry frequency => (entry.1, s.blended entry.1 frequency)) frequencies

def scoring (s : Social) : Scoring := ⟨"social", s.growth, Scoring.distanceRemoval⟩

end Social

end TwoLevel
