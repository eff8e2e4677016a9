import TwoLevel.Names
import TwoLevel.Rows.Conflict

/-!
Truth tables of functions with one output: names for the variables and the output, an onset and an
offset over the same variables. A cover of such a table carries the same names.
-/

namespace TwoLevel

structure Table where
  names : Names
  output : String
  onset : Rows
  offset : Rows
  sameVariables : onset.arity = offset.arity

structure NamedCover where
  arity : Nat
  names : Names
  output : String
  cubes : CubeSet

namespace Table

def arity (t : Table) : Nat := t.onset.arity

/-- A table of the rows; variables without a name get one. -/
def ofRows (names : Names) (output : String) (onset offset : Rows) : Except Failure Table :=
  if same : onset.arity = offset.arity then
    .ok ⟨names.fillTo onset.arity, output, onset, offset, same⟩
  else .error (.dimensionMismatch onset.arity offset.arity)

instance : BEq Table where
  beq a b :=
    a.names == b.names && a.output == b.output && a.onset == b.onset && a.offset == b.offset

def clean (t : Table) : Table × Rows.Cleaning :=
  let cleaning := Rows.separate t.onset t.offset
  (⟨t.names, t.output, cleaning.onset, cleaning.offset, t.sameVariables⟩, cleaning)

def conflicts (t : Table) : List Cube :=
  let others := Std.HashSet.ofList t.offset.minterms
  t.onset.distinct.filter (others.contains ·)

def withCubes (t : Table) (cubes : CubeSet) : NamedCover :=
  ⟨t.arity, t.names, t.output, cubes⟩

end Table

def NamedCover.ofCubes (arity : Nat) (names : Names) (output : String) (cubes : CubeSet) :
    NamedCover :=
  ⟨arity, names.fillTo arity, output, cubes⟩

end TwoLevel
