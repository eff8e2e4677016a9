import TwoLevel.Rows.Basic
import Std.Data.HashMap

/-!
Minterms that are in the onset and in the offset. Such a minterm stays on the side in which it takes
the greater share of the rows; if the shares are equal it leaves both.
-/

namespace TwoLevel

namespace Rows

def multiplicities (rows : Rows) : Std.HashMap Cube Nat :=
  rows.minterms.foldl (fun counts m => counts.alter m fun count => some (count.getD 0 + 1)) ∅

/-- The minterm occurs on the other side and takes no smaller share of the rows there. -/
def yields (own other : Std.HashMap Cube Nat) (ownSize otherSize : Nat) (m : Cube) : Bool :=
  match other[m]? with
  | none => false
  | some count => own.getD m 0 * otherSize ≤ count * ownSize

structure Cleaning where
  onset : Rows
  offset : Rows
  removedFromOnset : List Cube
  removedFromOffset : List Cube

def Cleaning.isClean (c : Cleaning) : Bool :=
  c.removedFromOnset.isEmpty && c.removedFromOffset.isEmpty

/-- Takes conflicting minterms out of the side that they fit less, or out of both. -/
def separate (onset offset : Rows) : Cleaning :=
  let on := onset.multiplicities
  let off := offset.multiplicities
  let leavesOnset := yields on off onset.size offset.size
  let leavesOffset := yields off on offset.size onset.size
  { onset := onset.filter (!leavesOnset ·)
    offset := offset.filter (!leavesOffset ·)
    removedFromOnset := onset.minterms.filter leavesOnset
    removedFromOffset := offset.minterms.filter leavesOffset }

def resolveConflicts (onset offset : Rows) : Except Failure Cleaning := do
  checkVariables onset offset
  return separate onset offset

end Rows

end TwoLevel
