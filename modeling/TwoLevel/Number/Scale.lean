/-!
Scaling and rounding of scores.
-/

namespace TwoLevel.Number

/-- The values stretched over the unit interval; all zero if they do not differ. -/
def rescale (values : List Float) : List Float :=
  let least := values.foldl (fun least v => if v < least then v else least) (1.0 / 0.0)
  let most := values.foldl (fun most v => if most < v then v else most) (-1.0 / 0.0)
  if values.isEmpty || least == most then values.map fun _ => 0
  else values.map fun v => (v - least) / (most - least)

/-- The nearest integer; a half goes away from zero. From `2 ^ 52` on every number is an integer. -/
def roundHalfAway (x : Float) : Float :=
  if x.abs < 4503599627370496 then
    let below := x.abs.toUInt64.toFloat
    let rounded := if x.abs - below < 0.5 then below else below + 1
    if x < 0 then -rounded else rounded
  else x

def roundTo (resolution value : Float) : Float :=
  roundHalfAway (value / resolution) * resolution

end TwoLevel.Number
