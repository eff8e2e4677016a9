/-!
The ChaCha block function with twelve rounds as a stream of 32-bit words, and its key from a 64-bit
seed.
-/

namespace TwoLevel.Random

structure Lane where
  first : UInt32
  second : UInt32
  third : UInt32
  fourth : UInt32
deriving DecidableEq, Repr

namespace Lane

@[inline] def zip (f : UInt32 → UInt32 → UInt32) (a b : Lane) : Lane :=
  ⟨f a.first b.first, f a.second b.second, f a.third b.third, f a.fourth b.fourth⟩

@[inline] def rotate (a : Lane) (bits : UInt32) : Lane :=
  let turn (word : UInt32) := word <<< bits ||| word >>> (32 - bits)
  ⟨turn a.first, turn a.second, turn a.third, turn a.fourth⟩

/-- Moves the words one place to the front, the first one to the end. -/
@[inline] def shift (a : Lane) : Lane := ⟨a.second, a.third, a.fourth, a.first⟩

def get (a : Lane) : Nat → UInt32
  | 0 => a.first
  | 1 => a.second
  | 2 => a.third
  | _ => a.fourth

end Lane

/-- The sixteen words of a block, as the four rows of a square. -/
structure Square where
  a : Lane
  b : Lane
  c : Lane
  d : Lane
deriving DecidableEq, Repr

namespace Square

@[inline] def mixColumns (s : Square) : Square :=
  let a := s.a.zip (· + ·) s.b
  let d := (s.d.zip (· ^^^ ·) a).rotate 16
  let c := s.c.zip (· + ·) d
  let b := (s.b.zip (· ^^^ ·) c).rotate 12
  let a := a.zip (· + ·) b
  let d := (d.zip (· ^^^ ·) a).rotate 8
  let c := c.zip (· + ·) d
  let b := (b.zip (· ^^^ ·) c).rotate 7
  ⟨a, b, c, d⟩

@[inline] def slant (s : Square) : Square :=
  ⟨s.a, s.b.shift, s.c.shift.shift, s.d.shift.shift.shift⟩

@[inline] def unslant (s : Square) : Square :=
  ⟨s.a, s.b.shift.shift.shift, s.c.shift.shift, s.d.shift⟩

def doubleRound (s : Square) : Square := s.mixColumns.slant.mixColumns.unslant

def get (s : Square) (place : Nat) : UInt32 :=
  let lane := match place / 4 with
    | 0 => s.a
    | 1 => s.b
    | 2 => s.c
    | _ => s.d
  lane.get (place % 4)

end Square

structure Key where
  low : Lane
  high : Lane
deriving DecidableEq, Repr

namespace Key

/-- One step of the generator that spreads a seed over a key: the next state and a word from it. -/
def spread (state : UInt64) : UInt64 × UInt32 :=
  let state := state * 6364136223846793005 + 11634580027462260723
  let word := (((state >>> 18) ^^^ state) >>> 27).toUInt32
  let turn := (state >>> 59).toUInt32
  (state, word >>> turn ||| word <<< (32 - turn))

def spreadLane (state : UInt64) : UInt64 × Lane :=
  let (state, first) := spread state
  let (state, second) := spread state
  let (state, third) := spread state
  let (state, fourth) := spread state
  (state, ⟨first, second, third, fourth⟩)

def ofSeed (seed : UInt64) : Key :=
  let (state, low) := spreadLane seed
  ⟨low, (spreadLane state).2⟩

def start (key : Key) (number : Nat) : Square :=
  ⟨⟨0x61707865, 0x3320646e, 0x79622d32, 0x6b206574⟩, key.low, key.high,
    ⟨.ofNat number, .ofNat (number / UInt32.size), 0, 0⟩⟩

def block (key : Key) (number : Nat) : Square :=
  let start := key.start number
  let mixed := Nat.repeat Square.doubleRound 6 start
  ⟨mixed.a.zip (· + ·) start.a, mixed.b.zip (· + ·) start.b,
    mixed.c.zip (· + ·) start.c, mixed.d.zip (· + ·) start.d⟩

def word (key : Key) (position : Nat) : UInt32 :=
  (key.block (position / 16)).get (position % 16)

end Key

end TwoLevel.Random
