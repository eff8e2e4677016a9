import TwoLevel.Random.Cipher

/-!
Sources of random words, and the fair choice of one of finitely many candidates. A source is an
infinite stream of words with the position of the next one.
-/

namespace TwoLevel

structure Source where
  stream : Nat → UInt32
  position : Nat := 0

namespace Source

/-- The words of the cipher keyed with a seed. -/
def ofSeed (seed : UInt64) : Source :=
  let key := Random.Key.ofSeed seed
  ⟨key.word, 0⟩

def ofWords (words : Array UInt32) : Source :=
  ⟨fun position => words.getD position 0, 0⟩

def peek (source : Source) : UInt32 := source.stream source.position

def skip (source : Source) (count : Nat) : Source :=
  { source with position := source.position + count }

def next32 (source : Source) : UInt32 × Source := (source.peek, source.skip 1)

/-- Two words as one number, the low half first. -/
def next64 (source : Source) : UInt64 × Source :=
  let (low, source) := source.next32
  let (high, source) := source.next32
  (high.toUInt64 <<< 32 ||| low.toUInt64, source)

def seeds (source : Source) : Nat → List UInt64 × Source
  | 0 => ([], source)
  | count + 1 =>
      let (seed, source) := source.next64
      let (rest, source) := source.seeds count
      (seed :: rest, source)

def indexOf (r : Nat) (word : UInt32) : Nat := word.toNat * r / UInt32.size

/-- How many words stand for each index: the greatest power of two that leaves no index short. -/
def share (r : Nat) : Nat := 1 <<< (31 - r.log2)

/-- Whether a word is one of the first `share r` words that stand for its index. -/
def accepts (r : Nat) (word : UInt32) : Bool := word.toNat * r % UInt32.size < r * share r

/-- Draws words until one is accepted and returns its index; after `patience` refused words the next
one is taken as it is. -/
def below (r : Nat) (source : Source) : Nat → Nat × Source
  | 0 => (indexOf r source.peek, source.skip 1)
  | patience + 1 =>
      if accepts r source.peek then (indexOf r source.peek, source.skip 1)
      else below r (source.skip 1) patience

/-- More refused words in a row than any run can draw. -/
def patience : Nat := 1 <<< 62

/-- A fair choice; nothing is drawn when there is nothing to choose from. -/
def choose? {α : Type} (source : Source) (candidates : List α) : Option α × Source :=
  if candidates.isEmpty then (none, source)
  else
    let (index, source) := below candidates.length source patience
    (candidates[index]?, source)

end Source

end TwoLevel
