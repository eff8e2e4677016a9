import TwoLevel.Graph.Basic
import TwoLevel.Rows.Basic
import TwoLevel.Tally

/-!
The graph of the variables of a table: two are joined by the number of rows in which both are
normal. Only the heaviest of these edges are kept.
-/

namespace TwoLevel

/-- All ways to take two of the elements, the earlier one first. -/
def pairs {α : Type} : List α → List (α × α)
  | [] => []
  | a :: rest => rest.map (a, ·) ++ pairs rest

def Cube.normals (m : Cube) : List Nat := (m.literals.filter (·.isNormal)).map (·.var)

def Rows.coOccurrence (rows : Rows) : Array (Array Nat) :=
  let place (i j : Nat) := i * rows.arity + j
  let counts := tally (rows.arity * rows.arity) (fun (i, j) => place i j)
    (rows.minterms.map fun m => pairs m.normals)
  (Array.range rows.arity).map fun i => counts.extract (place i 0) (place (i + 1) 0)

namespace Graph

variable {W : Type}

def clampUnit (x : Float) : Float :=
  if x < 0 then 0 else if 1 < x then 1 else x

/-- The place, counted from the greatest, of the value that a share `density` of `count` values
reaches. -/
def cutPlace (count : Nat) (density : Float) : Nat :=
  (Float.ofNat (count - 1) * clampUnit density).toUInt64.toNat

def ranked? [LT W] [DecidableLT W] (place : Nat) : List W → Option W
  | [] => none
  | pivot :: rest =>
      let greater := rest.filter (pivot < ·)
      let lesser := rest.filter (· < pivot)
      let reached := rest.length + 1 - lesser.length
      if place < greater.length then ranked? place greater
      else if place < reached then some pivot
      else ranked? (place - reached) lesser
termination_by values => values.length
decreasing_by
  all_goals
    simp only [List.length_unattach, List.length_cons]
    exact Nat.lt_succ_of_le (Nat.le_trans (List.length_filter_le _ _) (by simp))

/-- Keeps the entries that exceed the value at the cut of all entries on and above the diagonal;
the others become zero. -/
def thin [OfNat W 0] [LT W] [DecidableLT W] (matrix : Array (Array W)) (density : Float) :
    Array (Array W) :=
  let values := matrix.toList.zipIdx.flatMap fun (row, i) => (row.extract i row.size).toList
  match ranked? (cutPlace values.length density) values with
  | none => matrix
  | some threshold =>
      matrix.map fun row => (Array.range matrix.size).map fun j =>
        match row[j]? with
        | some value => if threshold < value then value else 0
        | none => 0

def floats (matrix : Array (Array Nat)) : Array (Array Float) := matrix.map (·.map Float.ofNat)

/-- The share of edges that a graph of variables keeps at most, when nothing else is said. -/
def defaultDensity : Float := 0.25

/-- The graph of the variables of a table. Without rows it has no edges. -/
def ofRows (rows : Rows) (density : Option Float) (ids : IdSequence) :
    Graph Float × IdSequence :=
  if rows.isEmpty then isolated rows.arity ids
  else
    let counts := rows.coOccurrence
    let kept := match density with
      | none => counts
      | some density => thin counts density
    let (g, ids) := ofMatrix kept ids
    (g.mapWeights Float.ofNat, ids)

end Graph

end TwoLevel
