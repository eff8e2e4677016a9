import TwoLevel.Cube.Set
import TwoLevel.Failure
import Std.Data.HashSet

/-!
Rows of a truth table: minterms over a fixed number of variables, in the order in which they were
given and with repetition. The onset and the offset of a function are rows.
-/

namespace TwoLevel

structure Rows where
  arity : Nat
  minterms : List Cube
  complete : ∀ m ∈ minterms, m.IsMinterm arity
deriving DecidableEq

namespace Rows

def empty (arity : Nat) : Rows := ⟨arity, [], by simp⟩

def size (rows : Rows) : Nat := rows.minterms.length

def isEmpty (rows : Rows) : Bool := rows.minterms.isEmpty

def filter (rows : Rows) (keep : Cube → Bool) : Rows :=
  ⟨rows.arity, rows.minterms.filter keep,
    fun m member => rows.complete m (List.mem_filter.1 member).1⟩

/-- The rows not covered by a cube; the universal cube covers none. -/
def uncoveredBy (rows : Rows) (c : Cube) : Rows := rows.filter (!c.covers ·)

def within (rows : Rows) (c : Cube) : List Cube := rows.minterms.filter c.admits

def meets (rows : Rows) (c : Cube) : Bool := rows.minterms.any c.admits

def leastDistance? (rows : Rows) (c : Cube) : Option Nat := (rows.minterms.map c.distance).min?

def firstShared? (rows other : Rows) : Option Cube :=
  let others := Std.HashSet.ofList other.minterms
  rows.minterms.find? (others.contains ·)

def distinctOnto (seen : Std.HashSet Cube) (kept : Array Cube) : List Cube → Array Cube
  | [] => kept
  | m :: rest =>
      let (known, seen) := seen.containsThenInsert m
      distinctOnto seen (if known then kept else kept.push m) rest

/-- The different rows, in the order of their first occurrences. -/
def distinct (rows : Rows) : List Cube := (distinctOnto ∅ #[] rows.minterms).toList

def checkVariables (onset offset : Rows) : Except Failure Unit :=
  if onset.arity = offset.arity then .ok ()
  else .error (.dimensionMismatch onset.arity offset.arity)

/-- Fails unless both sets are over the same variables and have no row in common. -/
def checkDisjoint (onset offset : Rows) : Except Failure Unit := do
  checkVariables onset offset
  match onset.firstShared? offset with
  | some minterm => .error (.overlappingSets minterm)
  | none => .ok ()

def ofCubes (arity : Nat) (cubes : List Cube) : Except Failure Rows :=
  match complete : cubes.zipIdx.find? (fun entry => !decide (entry.1.IsMinterm arity)) with
  | some (cube, index) => .error (.incompleteMinterm index arity cube)
  | none =>
      .ok ⟨arity, cubes, fun m member => by
        obtain ⟨index, place⟩ := List.mem_iff_getElem?.1 member
        simpa using List.find?_eq_none.1 complete (m, index) (List.mem_zipIdx_iff_getElem?.2 place)⟩

def ofMinterms? (arity : Nat) (minterms : List Minterm) :
    Except Failure { rows : Rows // rows.arity = arity } :=
  match complete : minterms.find? (·.1.size != arity) with
  | some m => .error (.dimensionMismatch arity m.1.size)
  | none =>
      .ok ⟨⟨arity, minterms.map (·.1), fun c member => by
        obtain ⟨m, given, rfl⟩ := List.mem_map.1 member
        have := List.find?_eq_none.1 complete m given
        simp only [bne_iff_ne, ne_eq, Decidable.not_not] at this
        exact this ▸ m.2⟩, rfl⟩

def ofBits (arity : Nat) (rows : List (List Bool)) : Except Failure Rows :=
  (ofMinterms? arity (rows.map .ofBits)).map (·.1)

end Rows

end TwoLevel
