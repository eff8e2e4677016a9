import TwoLevel.Names

/-!
Cubes: products of literals, at most one for each variable. A cube without literals is universal, a
cube that fixes exactly the variables `0, …, n - 1` is a minterm over `n` variables.
-/

namespace TwoLevel

structure Cube where
  literals : List Literal
  ascending : literals.Pairwise (fun l m => l.var < m.var) := by simp
deriving DecidableEq, Hashable

namespace Cube

def universal : Cube := ⟨[], .nil⟩

instance : Inhabited Cube := ⟨universal⟩

def size (c : Cube) : Nat := c.literals.length

def isUniversal (c : Cube) : Bool := c.literals.isEmpty

/-- The literals with `l` at its place, or unchanged if one on the variable of `l` is there. -/
def place (l : Literal) : List Literal → List Literal
  | [] => [l]
  | m :: rest =>
      if l.var < m.var then l :: m :: rest
      else if l.var = m.var then m :: rest
      else m :: place l rest

theorem mem_place_imp {l k : Literal} {literals : List Literal} (member : k ∈ place l literals) :
    k = l ∨ k ∈ literals := by
  induction literals with
  | nil => simpa [place] using member
  | cons m rest ih =>
      simp only [place] at member
      split at member
      · simpa using member
      · split at member
        · exact .inr member
        · rcases List.mem_cons.1 member with rfl | member
          · simp
          · rcases ih member with rfl | member <;> simp [*]

theorem ascending_place (l : Literal) {literals : List Literal}
    (ascending : literals.Pairwise (fun l m => l.var < m.var)) :
    (place l literals).Pairwise (fun l m => l.var < m.var) := by
  induction literals with
  | nil => simp [place]
  | cons m rest ih =>
      have ⟨head, tail⟩ := List.pairwise_cons.1 ascending
      simp only [place]
      split
      · rename_i before
        refine List.pairwise_cons.2 ⟨fun k member => ?_, ascending⟩
        rcases List.mem_cons.1 member with rfl | member
        · exact before
        · exact Nat.lt_trans before (head k member)
      · split
        · exact ascending
        · refine List.pairwise_cons.2 ⟨fun k member => ?_, ih tail⟩
          rcases mem_place_imp member with rfl | member
          · omega
          · exact head k member

/-- Adds a literal, unless its variable is fixed already. -/
def insert (c : Cube) (l : Literal) : Cube :=
  ⟨place l c.literals, ascending_place l c.ascending⟩

/-- Takes a literal away; other literals on its variable stay. -/
def erase (c : Cube) (l : Literal) : Cube :=
  ⟨c.literals.filter (· ≠ l), c.ascending.filter _⟩

/-- The product of the literals, of each variable the first one given. -/
def ofLiterals (literals : List Literal) : Cube :=
  literals.foldl insert universal

/-- Literals that give the variables from `first` on the values in turn. -/
def literalsFrom (first : Nat) : List Bool → List Literal
  | [] => []
  | value :: rest => ⟨first, .ofValue value⟩ :: literalsFrom (first + 1) rest

theorem le_var_of_mem_literalsFrom {first : Nat} {values : List Bool} {l : Literal}
    (member : l ∈ literalsFrom first values) : first ≤ l.var := by
  induction values generalizing first with
  | nil => simp [literalsFrom] at member
  | cons value rest ih =>
      rcases List.mem_cons.1 member with rfl | member
      · exact Nat.le_refl _
      · exact Nat.le_trans (Nat.le_succ _) (ih member)

theorem ascending_literalsFrom (first : Nat) (values : List Bool) :
    (literalsFrom first values).Pairwise (fun l m => l.var < m.var) := by
  induction values generalizing first with
  | nil => exact .nil
  | cons value rest ih =>
      exact List.pairwise_cons.2
        ⟨fun _ member => le_var_of_mem_literalsFrom member, ih (first + 1)⟩

def ofBits (values : List Bool) : Cube :=
  ⟨literalsFrom 0 values, ascending_literalsFrom 0 values⟩

/-- Looks for a variable among ascending literals and stops at the first one beyond it. -/
def polarityIn (var : Nat) : List Literal → Option Polarity
  | [] => none
  | l :: rest =>
      if l.var < var then polarityIn var rest
      else if l.var = var then some l.polarity
      else none

def polarityOf? (c : Cube) (var : Nat) : Option Polarity := polarityIn var c.literals

def fixes (c : Cube) (var : Nat) : Bool := (c.polarityOf? var).isSome

def contains (c : Cube) (l : Literal) : Bool := c.polarityOf? l.var == some l.polarity

def skipTo (var : Nat) : List Literal → List Literal
  | [] => []
  | l :: rest => if l.var < var then skipTo var rest else l :: rest

def allAmong : List Literal → List Literal → Bool
  | [], _ => true
  | l :: rest, others =>
      match skipTo l.var others with
      | [] => false
      | m :: others => m == l && allAmong rest others

def countMissing : List Literal → List Literal → Nat
  | [], _ => 0
  | l :: rest, others =>
      let others := skipTo l.var others
      countMissing rest others + if others.head? == some l then 0 else 1

def missingFrom : List Literal → List Literal → List Literal
  | [], _ => []
  | l :: rest, others =>
      let others := skipTo l.var others
      if others.head? == some l then missingFrom rest others else l :: missingFrom rest others

/-- The universal cube covers nothing; any other one covers what has all its literals. -/
def covers (c other : Cube) : Bool := !c.isUniversal && allAmong c.literals other.literals

/-- The minterm lies in the cube: it has all the literals of the cube, if there are any. -/
def admits (c minterm : Cube) : Bool := c.isUniversal || c.covers minterm

def missing (c minterm : Cube) : List Literal := missingFrom c.literals minterm.literals

def IsMinterm (n : Nat) (c : Cube) : Prop :=
  c.size = n ∧ ∀ entry ∈ c.literals.zipIdx, entry.1.var = entry.2

instance (n : Nat) (c : Cube) : Decidable (c.IsMinterm n) :=
  inferInstanceAs (Decidable (_ ∧ _))

def distance (c minterm : Cube) : Nat := countMissing c.literals minterm.literals

theorem length_literalsFrom (first : Nat) (values : List Bool) :
    (literalsFrom first values).length = values.length := by
  induction values generalizing first with
  | nil => rfl
  | cons value rest ih => simp [literalsFrom, ih]

theorem var_of_mem_zipIdx_literalsFrom {first : Nat} {values : List Bool} {entry : Literal × Nat}
    (member : entry ∈ (literalsFrom first values).zipIdx first) : entry.1.var = entry.2 := by
  induction values generalizing first with
  | nil => simp [literalsFrom] at member
  | cons value rest ih =>
      rcases List.mem_cons.1 member with rfl | member
      · rfl
      · exact ih member

theorem isMinterm_ofBits (values : List Bool) : (ofBits values).IsMinterm values.length :=
  ⟨length_literalsFrom 0 values, fun _ member => var_of_mem_zipIdx_literalsFrom member⟩

theorem isMinterm_of_literals {c : Cube} {values : List Bool}
    (same : c.literals = literalsFrom 0 values) : c.IsMinterm c.size := by
  obtain ⟨literals, ascending⟩ := c
  subst same
  exact ⟨rfl, (isMinterm_ofBits values).2⟩

/-- Literal by literal, a cube before those that it begins. -/
instance : Ord Cube where
  compare a b := compare a.literals b.literals

instance : Std.TransOrd Cube :=
  inferInstanceAs (Std.TransCmp (compareOn literals))

theorem eq_of_literals {a b : Cube} (same : a.literals = b.literals) : a = b := by
  cases a; cases b; simp_all

instance : Std.LawfulEqOrd Cube where
  eq_of_compare same := eq_of_literals (Std.LawfulEqOrd.compare_eq_iff_eq.1 same)

/-- The literals joined by `*`; the universal cube is `1`. -/
def textWith (c : Cube) (name : Nat → String) : String :=
  if c.isUniversal then "1" else "*".intercalate (c.literals.map fun l => l.textAs (name l.var))

instance : ToString Cube where
  toString c := c.textWith defaultName

end Cube

abbrev Minterm := { c : Cube // c.IsMinterm c.size }

def Minterm.ofBits (values : List Bool) : Minterm :=
  ⟨.ofBits values, Cube.isMinterm_of_literals rfl⟩

end TwoLevel
