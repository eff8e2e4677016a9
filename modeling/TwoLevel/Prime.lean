import TwoLevel.Pass
import TwoLevel.Selection
import TwoLevel.Scoring.Basic
import TwoLevel.Rows.Lemmas

/-!
Prime implicants by expansion. An implicant loses literals, one at a time, as long as it avoids the
offset without them; what has none left to lose is prime.
-/

namespace TwoLevel

namespace Rows

/-- The literals without which the cube avoids the offset: of none of its rows it is the only one
that the row lacks. -/
def removable (offset : Rows) (c : Cube) : List Literal :=
  let lacks := offset.minterms.map c.missing
  c.literals.filter fun l => !lacks.any (·.all (· == l))

theorem mem_removable {offset : Rows} {c : Cube} {l : Literal} :
    l ∈ offset.removable c ↔ l ∈ c.literals ∧ offset.meets (c.erase l) = false := by
  simp only [removable, meets, List.mem_filter, List.any_map, Bool.not_eq_true']
  refine and_congr_right fun _ => ?_
  rw [Bool.eq_false_iff, Bool.eq_false_iff]
  simp [Cube.admits_erase_iff]

/-- The cube avoids the offset, and no cube with one literal less does. -/
def isPrime (offset : Rows) (c : Cube) : Bool :=
  !offset.meets c && (offset.removable c).isEmpty

end Rows

def Scoring.safeRemoval (scoring : Scoring) (c : Cube) (candidates : List Literal)
    (offset : Rows) : List (Literal × Float) :=
  let safe := Std.HashSet.ofList candidates
  (scoring.removal c candidates offset).filter fun entry => safe.contains entry.1

theorem Scoring.mem_of_selectBest_safeRemoval {scoring : Scoring} {c : Cube}
    {candidates : List Literal} {offset : Rows} {source next : Source} {l : Literal}
    (chosen : selectBest (scoring.safeRemoval c candidates offset) source = (some l, next)) :
    l ∈ candidates := by
  obtain ⟨score, member⟩ := mem_of_selectBest chosen
  simpa using (List.mem_filter.1 member).2

/-- Expands the cubes of a queue. A cube that lost a literal goes to the end of the queue. -/
def expandFrom (scoring : Scoring) (offset : Rows) (budget : Option Nat) (queue : List Cube)
    (primes : CubeSet) (nodes : Nat) (source : Source) : Pass :=
  match queue with
  | [] => ⟨.ok primes, nodes, source⟩
  | c :: rest =>
      match exhausted? budget nodes with
      | some limit => .cut .expansion limit primes nodes source
      | none =>
          let candidates := offset.removable c
          if candidates.isEmpty then
            expandFrom scoring offset budget rest (primes.insert c) (nodes + 1) source
          else
            match _ : selectBest (scoring.safeRemoval c candidates offset) source with
            | (none, source) => ⟨.error (.noCandidates .expansion c), nodes + 1, source⟩
            | (some l, source) =>
                expandFrom scoring offset budget (rest ++ [c.erase l]) primes (nodes + 1) source
termination_by (queue.flatMap Cube.literals).length + queue.length
decreasing_by
  all_goals simp only [List.flatMap_append, List.flatMap_cons, List.flatMap_nil, List.append_nil,
    List.length_append, List.length_cons, List.length_nil]
  · omega
  · have := c.size_erase_of_mem
      (List.mem_filter.1 (Scoring.mem_of_selectBest_safeRemoval ‹_›)).1
    simp only [Cube.size] at this
    omega

/-- Primes for the given implicants; the first one that meets the offset is refused. -/
def expand (scoring : Scoring) (offset : Rows) (implicants : CubeSet) (budget : Option Nat)
    (source : Source) : Pass :=
  match implicants.cubes.find? offset.meets with
  | some c => ⟨.error (.unsafeImplicant c), 0, source⟩
  | none => expandFrom scoring offset budget implicants.cubes ∅ 0 source

end TwoLevel
