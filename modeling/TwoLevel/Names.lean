import TwoLevel.Literal

/-!
The names of a table's variables, by position, with an index from a name to the first position that
holds it. Positions that nobody named are filled with generated names, each different from all the
others.
-/

namespace TwoLevel

structure Names where
  array : Array String
  index : Std.TreeMap String Nat

namespace Names

def empty : Names := ⟨#[], ∅⟩

instance : EmptyCollection Names := ⟨empty⟩

def toList (names : Names) : List String := names.array.toList

def size (names : Names) : Nat := names.array.size

def get? (names : Names) (position : Nat) : Option String := names.array[position]?

def find? (names : Names) (name : String) : Option Nat := names.index[name]?

/-- Appends a name; the index keeps the first position of a name that was there before. -/
def push : Names → String → Names
  | ⟨array, index⟩, name =>
      let index := index.insertIfNew name array.size
      ⟨array.push name, index⟩

def ofList (list : List String) : Names :=
  list.foldl push ∅

/-- The least of `tries + 1` numbers from `start` on whose generated name is free. -/
def freeNumber (names : Names) (start : Nat) : Nat → Nat
  | 0 => start
  | tries + 1 =>
      if names.index.contains (defaultName start) then freeNumber names (start + 1) tries else start

/-- Appends a generated name. As many numbers as there are names cannot all be taken and leave
none over, so `size` further tries are enough. -/
def pushGenerated (names : Names) : Names :=
  names.push (defaultName (names.freeNumber names.size names.size))

def pushMany (names : Names) : Nat → Names
  | 0 => names
  | count + 1 => names.pushGenerated.pushMany count

def fillTo (names : Names) (target : Nat) : Names :=
  names.pushMany (target - names.size)

def generated (count : Nat) : Names := empty.fillTo count

/-- The name at a position, generated on the fly beyond the last one. -/
def getD (names : Names) (position : Nat) : String :=
  (names.get? position).getD (defaultName position)

def toVariables (names : Names) : List Variable :=
  names.toList.zipIdx.map fun entry => ⟨entry.2, some entry.1⟩

instance : BEq Names where
  beq a b := a.array == b.array && a.index.toList == b.index.toList

end Names

end TwoLevel
