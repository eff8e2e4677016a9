/-!
Decimal text of binary floating-point numbers: the fewest digits that read back as the same number,
of those the nearest to it, of two equally near the greater, all written out without an exponent.
-/

namespace TwoLevel.Number

/-- A positive number `mantissa * 2 ^ exponent`; `narrow` says that the next smaller number is only
half as far away as the next greater one. -/
structure Dyadic where
  mantissa : Nat
  exponent : Int
  narrow : Bool

def Dyadic.ofFloat (x : Float) : Dyadic :=
  let bits := x.toBits.toNat
  let exponent : Nat := bits / 0x10000000000000 % 2048
  let fraction := bits % 0x10000000000000
  if exponent = 0 then ⟨fraction, -1074, false⟩
  else ⟨0x10000000000000 + fraction, exponent - 1075, fraction == 0 && 1 < exponent⟩

/-- The number multiplied by a power of the base; a negative exponent leaves it as it is. -/
def scaled (n base : Nat) (exponent : Int) : Nat := n * base.pow exponent.toNat

/-- Whether `a * 2 ^ p` is less than or equal to `b * 10 ^ q`. -/
def binaryLeDecimal (a : Nat) (p : Int) (b : Nat) (q : Int) : Bool :=
  scaled (scaled a 2 p) 10 (-q) ≤ scaled (scaled b 10 q) 2 (-p)

/-- Whether `b * 10 ^ q` is less than or equal to `a * 2 ^ p`. -/
def decimalLeBinary (b : Nat) (q : Int) (a : Nat) (p : Int) : Bool :=
  scaled (scaled b 10 q) 2 (-p) ≤ scaled (scaled a 2 p) 10 (-q)

/-- Whether `digits * 10 ^ unit` rounds to the number, a tie going to the even mantissa. -/
def Dyadic.readsBack (d : Dyadic) (digits : Nat) (unit : Int) : Bool :=
  let low := 4 * d.mantissa - (if d.narrow then 1 else 2)
  let high := 4 * d.mantissa + 2
  let scale := d.exponent - 2
  if d.mantissa % 2 = 0 then
    binaryLeDecimal low scale digits unit && decimalLeBinary digits unit high scale
  else
    !decimalLeBinary digits unit low scale && !binaryLeDecimal high scale digits unit

def decimalLength (n : Nat) : Nat :=
  if n = 0 then 0 else decimalLength (n / 10) + 1

/-- The exponent of the power of ten at which the number starts. -/
def Dyadic.magnitude (d : Dyadic) : Int :=
  let above := scaled d.mantissa 2 d.exponent
  let below := scaled 1 2 (-d.exponent)
  if below ≤ above then decimalLength (above / below) - 1
  else -decimalLength ((below - 1) / above)

def Dyadic.floor (d : Dyadic) (unit : Int) : Nat :=
  scaled (scaled d.mantissa 2 d.exponent) 10 (-unit) / scaled (scaled 1 2 (-d.exponent)) 10 unit

/-- The nearer of the neighbours on the grid of `10 ^ unit` that reads back, the upper one on a
tie. -/
def Dyadic.onGrid? (d : Dyadic) (unit : Int) : Option Nat :=
  let lower := d.floor unit
  let upper := lower + 1
  match d.readsBack lower unit, d.readsBack upper unit with
  | true, true =>
      some (if binaryLeDecimal d.mantissa (d.exponent + 1) (lower + upper) unit
        && !decimalLeBinary (lower + upper) unit d.mantissa (d.exponent + 1) then lower else upper)
  | true, false => some lower
  | false, true => some upper
  | false, false => none

/-- The first grid on which some point reads back, going to finer ones, with that point. -/
def Dyadic.firstOnGrid (d : Dyadic) (unit : Int) : Nat → Nat × Int
  | 0 => (d.floor unit, unit)
  | finer + 1 =>
      match d.onGrid? unit with
      | some digits => (digits, unit)
      | none => d.firstOnGrid (unit - 1) finer

/-- Seventeen digits always read back, so no grid beyond the seventeenth is needed. -/
def Dyadic.shortest (d : Dyadic) : Nat × Int :=
  d.firstOnGrid d.magnitude 17

/-- Writes `digits * 10 ^ unit` without an exponent and without zeros at the end of a fraction. -/
def positional (digits : Nat) (unit : Int) : String :=
  if 0 ≤ unit then toString digits ++ "".pushn '0' unit.toNat
  else
    let places := (-unit).toNat
    let whole := digits / scaled 1 10 places
    let fraction := (toString (digits % scaled 1 10 places)).toList
    let padded := List.replicate (places - fraction.length) '0' ++ fraction
    let trimmed := (padded.reverse.dropWhile (· == '0')).reverse
    if trimmed.isEmpty then toString whole else toString whole ++ "." ++ String.ofList trimmed

def floatText (x : Float) : String :=
  if x.isNaN then "NaN"
  else
    let sign := if x.toBits < 0x8000000000000000 then "" else "-"
    if x.isInf then sign ++ "inf"
    else if x == 0 then sign ++ "0"
    else
      let shortest := (Dyadic.ofFloat x).shortest
      sign ++ positional shortest.1 shortest.2

end TwoLevel.Number
