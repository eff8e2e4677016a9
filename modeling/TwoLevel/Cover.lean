import TwoLevel.Pass
import TwoLevel.Selection
import TwoLevel.Rows.Basic
import TwoLevel.Tally

/-!
Covers: primes that together hold all rows of the onset. Primes that alone hold a row come first,
then those that hold the most rows; in the end those that the others make redundant are dropped.
-/

namespace TwoLevel

/-- The different rows of the onset, each as the places of the primes that hold it. -/
structure Grid where
  primes : Array Cube
  rows : List (List Nat)

namespace Grid

def holders (primes : List Cube) (m : Cube) : List Nat :=
  (primes.zipIdx.filter fun entry => entry.1.admits m).map (·.2)

def rowOf (primes : List Cube) (m : Cube) : Except Failure (List Nat) :=
  match holders primes m with
  | [] => .error (.uncoverableMinterm m)
  | row => .ok row

def ofRows (onset : Rows) (primes : CubeSet) : Except Failure Grid := do
  return ⟨primes.cubes.toArray, ← onset.distinct.mapM (rowOf primes.cubes)⟩

def cubes (grid : Grid) (places : List Nat) : CubeSet :=
  .ofList (places.filterMap (grid.primes[·]?))

def held (grid : Grid) (rows : List (List Nat)) : Array Nat :=
  tally grid.primes.size id rows

def alone (grid : Grid) (rows : List (List Nat)) : Array Nat :=
  grid.held (rows.filter (·.length = 1))

/-- The primes that hold some uncovered row and alone hold as many as any prime does, scored by
the uncovered rows that they hold. -/
def scored (grid : Grid) (uncovered : List (List Nat)) : List (Nat × Nat) :=
  let held := grid.held uncovered
  let alone := grid.alone uncovered
  let most := alone.foldl max 0
  let places := (List.range grid.primes.size).filter fun place =>
    alone.getD place 0 = most && 0 < held.getD place 0
  places.map fun place => (place, held.getD place 0)

def pick (grid : Grid) (uncovered : List (List Nat)) (source : Source) : Option Nat × Source :=
  source.choose? (leaders (grid.scored uncovered))

theorem held_pos_of_pick {grid : Grid} {uncovered : List (List Nat)} {source next : Source}
    {place : Nat} (picked : grid.pick uncovered source = (some place, next)) :
    ∃ row ∈ uncovered, row.contains place := by
  obtain ⟨score, member⟩ := mem_of_mem_leaders (Source.mem_of_choose? picked)
  obtain ⟨other, kept, same⟩ := List.mem_map.1 member
  cases same
  have positive := (List.mem_filter.1 kept).2
  simp only [Bool.and_eq_true, decide_eq_true_eq, held, getD_tally] at positive
  split at positive
  · obtain ⟨other, inside, same⟩ := List.countP_pos_iff.1 positive.2
    obtain ⟨row, member, holds⟩ := List.mem_flatten.1 inside
    exact ⟨row, member, List.contains_iff_mem.2 (eq_of_beq same ▸ holds)⟩
  · exact absurd positive.2 (Nat.lt_irrefl 0)

def beyond (place : Nat) (rows : List (List Nat)) : List (List Nat) :=
  rows.filter fun row => !row.contains place

theorem length_beyond_lt {rows : List (List Nat)} {place : Nat}
    (holds : ∃ row ∈ rows, row.contains place = true) :
    (beyond place rows).length < rows.length := by
  obtain ⟨row, member, holds⟩ := holds
  exact List.length_filter_lt_length_iff_exists.2
    ⟨row, member, by simp [List.contains_iff_mem.1 holds]⟩

structure Choice where
  result : Except Failure (List Nat)
  nodes : Nat
  source : Source

def chooseFrom (grid : Grid) (budget : Option Nat) (uncovered : List (List Nat))
    (chosen : List Nat) (nodes : Nat) (source : Source) : Choice :=
  if uncovered.isEmpty then ⟨.ok chosen, nodes, source⟩
  else
    match exhausted? budget nodes with
    | some limit => ⟨.error (.budgetExhausted .covering limit (grid.cubes chosen)), nodes, source⟩
    | none =>
        match _ : grid.pick uncovered source with
        | (none, source) => ⟨.ok chosen, nodes + 1, source⟩
        | (some place, source) =>
            grid.chooseFrom budget (beyond place uncovered) (chosen ++ [place]) (nodes + 1) source
termination_by uncovered.length
decreasing_by
  exact length_beyond_lt (held_pos_of_pick ‹_›)

def redundant (grid : Grid) (others : List Nat) (place : Nat) : Bool :=
  grid.rows.all fun row => !row.contains place || row.any others.contains

/-- Drops redundant primes, the last one chosen first. -/
def irredundant (grid : Grid) (chosen : List Nat) : List Nat :=
  chosen.reverse.foldl (fun kept place =>
    let others := kept.filter (· ≠ place)
    if grid.redundant others place then others else kept) chosen

end Grid

def cover (onset : Rows) (primes : CubeSet) (budget : Option Nat) (source : Source) : Pass :=
  match Grid.ofRows onset primes with
  | .error failure => ⟨.error failure, 0, source⟩
  | .ok grid =>
      let choice := grid.chooseFrom budget grid.rows [] 0 source
      ⟨choice.result.map fun chosen => grid.cubes (grid.irredundant chosen),
        choice.nodes, choice.source⟩

end TwoLevel
