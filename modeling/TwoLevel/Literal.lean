import Std.Data.TreeMap

/-!
Variables and literals. A literal is a variable with the value it has to take; literals are ordered
by variable, the complement before the normal one.
-/

namespace TwoLevel

inductive Polarity where
  | complement
  | normal
deriving DecidableEq, Hashable, Repr

namespace Polarity

def flip : Polarity → Polarity
  | complement => normal
  | normal => complement

def value : Polarity → Bool
  | complement => false
  | normal => true

def ofValue (value : Bool) : Polarity :=
  if value then normal else complement

@[simp] theorem value_ofValue (b : Bool) : (ofValue b).value = b := by
  cases b <;> rfl

@[simp] theorem ofValue_value (p : Polarity) : ofValue p.value = p := by
  cases p <;> rfl

end Polarity

structure Literal where
  var : Nat
  polarity : Polarity
deriving DecidableEq, Hashable, Repr

namespace Literal

def normal (var : Nat) : Literal := ⟨var, .normal⟩

def complement (var : Nat) : Literal := ⟨var, .complement⟩

def isNormal (l : Literal) : Bool := l.polarity.value

def negated (l : Literal) : Literal := ⟨l.var, l.polarity.flip⟩

/-- Two literals on one variable that ask for different values. -/
def opposes (l m : Literal) : Bool := l.var == m.var && l.polarity != m.polarity

def rank (l : Literal) : Nat := 2 * l.var + l.polarity.value.toNat

theorem rank_injective {l m : Literal} (same : l.rank = m.rank) : l = m := by
  obtain ⟨v, p⟩ := l
  obtain ⟨w, q⟩ := m
  cases p <;> cases q <;> simp [rank, Polarity.value] at same ⊢ <;> omega

instance : Ord Literal where
  compare l m := compare l.rank m.rank

instance : Std.TransOrd Literal :=
  inferInstanceAs (Std.TransCmp (compareOn rank))

instance : Std.LawfulEqOrd Literal where
  eq_of_compare same := rank_injective (Nat.compare_eq_eq.1 same)

def textAs (l : Literal) (name : String) : String :=
  if l.isNormal then name else "~" ++ name

end Literal

def defaultName (var : Nat) : String := "x" ++ toString var

instance : ToString Literal where
  toString l := l.textAs (defaultName l.var)

structure Variable where
  index : Nat
  name : Option String := none
deriving DecidableEq, Repr

namespace Variable

def normal (v : Variable) : Literal := .normal v.index

def complement (v : Variable) : Literal := .complement v.index

/-- By index, then unnamed before named, then by the characters of the name. -/
instance : Ord Variable where
  compare := compareLex (compareOn index) (compareOn name)

instance : ToString Variable where
  toString v := v.name.getD (defaultName v.index)

end Variable

end TwoLevel
