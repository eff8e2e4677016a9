/-!
Numbers read from decimal text: counts that fit 64 bits, and floating-point numbers.
-/

namespace TwoLevel.Number

def digit? (c : Char) : Option Nat :=
  if c.isDigit then some (c.toNat - '0'.toNat) else none

/-- The value of a text that is digits only and not empty. -/
def digits? (s : List Char) : Option Nat :=
  if s.isEmpty then none
  else s.foldlM (fun value c => (digit? c).map (10 * value + ·)) 0

def count? (s : List Char) : Option Nat :=
  let unsigned := match s with
    | '+' :: rest => rest
    | _ => s
  (digits? unsigned).filter (· < UInt64.size)

/-- The number nearest to `digits * 10 ^ exponent`. Where it is beyond all doubt too large or too
small, the digits are not looked at. -/
def ofDigits (digits : Nat) (exponent : Int) : Float :=
  let magnitude := (Nat.toDigits 10 digits).length + exponent
  if digits = 0 || magnitude < -330 then 0
  else if 310 < magnitude then 1.0 / 0.0
  else if exponent < 0 then .ofScientific digits true exponent.natAbs
  else .ofScientific digits false exponent.natAbs

def sign : List Char → Bool × List Char
  | '+' :: rest => (false, rest)
  | '-' :: rest => (true, rest)
  | s => (false, s)

/-- The digits after an `e`, with a sign. No text at all is an exponent of zero. -/
def exponent? : List Char → Option Int
  | [] => some 0
  | e :: rest =>
      if e == 'e' || e == 'E' then
        let (negative, rest) := sign rest
        (digits? rest).map fun value => if negative then -(value : Int) else value
      else none

/-- Digits with a point anywhere, at least one digit, then perhaps an exponent. -/
def unsigned? (s : List Char) : Option Float := do
  let (whole, rest) := s.span Char.isDigit
  let (fraction, rest) := match rest with
    | '.' :: rest => rest.span Char.isDigit
    | _ => ([], rest)
  let digits ← digits? (whole ++ fraction)
  let exponent ← exponent? rest
  return ofDigits digits (exponent - fraction.length)

/-- A floating-point number: a decimal, `inf`, `infinity` or `nan` in any case, with a sign. -/
def float? (s : List Char) : Option Float := do
  let (negative, rest) := sign s
  let magnitude ← match String.ofList (rest.map Char.toLower) with
    | "inf" | "infinity" => some (1.0 / 0.0)
    | "nan" => some (0.0 / 0.0)
    | _ => unsigned? rest
  return if negative then -magnitude else magnitude

end TwoLevel.Number
