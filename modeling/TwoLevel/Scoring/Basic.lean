import TwoLevel.Rows.Lemmas
import TwoLevel.Tally

/-!
Scoring strategies say which literal to add to a cube that still meets the offset, and which one to
take from an implicant. By default a literal is worth adding that is frequent among the rows that
remain, and worth taking away if the rest keeps far from the offset.
-/

namespace TwoLevel

structure Scoring where
  name : String
  growth : Cube → Rows → List (Literal × Float)
  removal : Cube → List Literal → Rows → List (Literal × Float)

namespace Scoring

/-- How many of the rows within the cube have each literal, for variables that the cube leaves
free and literals that some row has. -/
def counts (c : Cube) (rows : Rows) : List (Literal × Nat) :=
  let inside := rows.within c
  if inside.isEmpty then []
  else
    let tallies := tally (2 * rows.arity) Literal.rank (inside.map (·.literals))
    let counted (l : Literal) := (l, tallies.getD l.rank 0)
    let free := (List.range rows.arity).filter (!c.fixes ·)
    (free.flatMap fun var => [counted (.complement var), counted (.normal var)]).filter (0 < ·.2)

def frequencyGrowth (c : Cube) (rows : Rows) : List (Literal × Float) :=
  (counts c rows).map fun (l, count) => (l, .ofNat count)

/-- How far the cube is from the offset without the literal; without an offset, how large it is. -/
def distanceWithout (c : Cube) (offset : Rows) (l : Literal) : Nat :=
  let rest := c.erase l
  (offset.leastDistance? rest).getD rest.size

/-- The same for several literals at once: a literal that a nearest row lacks brings the cube one
step nearer when it goes. -/
def distancesWithout (c : Cube) (offset : Rows) (candidates : List Literal) : List Nat :=
  match offset.leastDistance? c with
  | none => candidates.map fun l => (c.erase l).size
  | some least =>
      let nearest := offset.minterms.filter (c.distance · = least)
      let lacked := Std.HashSet.ofList (nearest.flatMap c.missing)
      candidates.map fun l => if lacked.contains l then least - 1 else least

theorem distancesWithout_eq (c : Cube) (offset : Rows) (candidates : List Literal) :
    distancesWithout c offset candidates = candidates.map (distanceWithout c offset) := by
  simp only [distancesWithout]
  cases found : offset.leastDistance? c with
  | none =>
      have empty := Rows.leastDistance?_eq_none.1 found
      refine List.map_congr_left fun l _ => ?_
      simp [distanceWithout, Rows.leastDistance?_eq_none.2 empty]
  | some least =>
      obtain ⟨⟨nearest, member, near⟩, below⟩ := Rows.leastDistance?_eq_some.1 found
      refine List.map_congr_left fun l _ => ?_
      suffices offset.leastDistance? (c.erase l) =
          some (if ∃ m ∈ offset.minterms, c.distance m = least ∧ l ∈ c.missing m
            then least - 1 else least) by
        simp [distanceWithout, this, and_assoc]
      rw [Rows.leastDistance?_eq_some]
      simp only [Cube.distance_erase]
      split
      · rename_i lacked
        obtain ⟨m, inside, near, lacking⟩ := lacked
        refine ⟨⟨m, inside, by simp [lacking, near]⟩, fun other given => ?_⟩
        have := below other given
        split <;> omega
      · rename_i kept
        refine ⟨⟨nearest, member, ?_⟩, fun other given => ?_⟩
        · rw [if_neg fun lacking => kept ⟨nearest, member, near, lacking⟩, near]
        · have := below other given
          split
          · rename_i lacking
            have : c.distance other ≠ least := fun near => kept ⟨other, given, near, lacking⟩
            omega
          · assumption

def distanceRemoval (c : Cube) (candidates : List Literal) (offset : Rows) :
    List (Literal × Float) :=
  candidates.zipWith (fun l distance => (l, .ofNat distance))
    (distancesWithout c offset candidates)

/-- Adds frequent literals, and takes away those that keep the cube far from the offset. -/
def frequency : Scoring := ⟨"frequency", frequencyGrowth, distanceRemoval⟩

/-- The same scores under the name of the second rule. -/
def distance : Scoring := ⟨"distance", frequencyGrowth, distanceRemoval⟩

end Scoring

end TwoLevel
