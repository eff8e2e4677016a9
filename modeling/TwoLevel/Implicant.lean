import TwoLevel.Pass
import TwoLevel.Selection
import TwoLevel.Scoring.Basic
import TwoLevel.Rows.Lemmas

/-!
Implicants by coverage-directed search. A cube grows literal by literal from the universal one until
it has no row of the offset; the rows that it holds are set aside, and the search goes on with the
others until no row of the onset remains.
-/

namespace TwoLevel

def Scoring.freeGrowth (scoring : Scoring) (c : Cube) (remainder : Rows) :
    List (Literal × Float) :=
  (scoring.growth c remainder).filter fun entry => !c.fixes entry.1.var

theorem Scoring.fixes_of_selectBest_freeGrowth {scoring : Scoring} {c : Cube} {remainder : Rows}
    {source next : Source} {l : Literal}
    (chosen : selectBest (scoring.freeGrowth c remainder) source = (some l, next)) :
    c.fixes l.var = false := by
  obtain ⟨score, member⟩ := mem_of_selectBest chosen
  simpa using (List.mem_filter.1 member).2

/-- Adds literals to a cube until it avoids the offset. A cube that meets the offset fixes no
variable beyond the last one, so the literals run out. -/
def growFrom (scoring : Scoring) (remainder offset : Rows) (c : Cube) (source : Source) :
    Except Failure Cube × Source :=
  if _ : offset.meets c then
    match _ : selectBest (scoring.freeGrowth c remainder) source with
    | (none, source) => (.error (.noCandidates .search c), source)
    | (some l, source) => growFrom scoring remainder offset (c.insert l) source
  else (.ok c, source)
termination_by offset.arity + 1 - c.size
decreasing_by
  have := c.size_insert_of_free (Scoring.fixes_of_selectBest_freeGrowth ‹_›)
  have := offset.size_le_of_meets ‹_›
  omega

def grow (scoring : Scoring) (remainder offset : Rows) (source : Source) :
    Except Failure Cube × Source :=
  growFrom scoring remainder offset .universal source

/-- Searches implicants until no row remains. An implicant that holds none of the remaining rows is
refused, so each one leaves fewer of them. -/
def searchFrom (scoring : Scoring) (offset : Rows) (budget : Option Nat) (remainder : Rows)
    (found : CubeSet) (nodes : Nat) (source : Source) : Pass :=
  match exhausted? budget nodes with
  | some limit => .cut .search limit found nodes source
  | none =>
      if remainder.isEmpty then ⟨.ok found, nodes + 1, source⟩
      else
        match grow scoring remainder offset source with
        | (.error failure, source) => ⟨.error failure, nodes + 1, source⟩
        | (.ok implicant, source) =>
            let rest := remainder.filter (!implicant.admits ·)
            if _ : rest.size < remainder.size then
              searchFrom scoring offset budget rest (found.insert implicant) (nodes + 1) source
            else ⟨.error (.noCandidates .search implicant), nodes + 1, source⟩
termination_by remainder.size

def search (scoring : Scoring) (onset offset : Rows) (budget : Option Nat) (source : Source) :
    Pass :=
  searchFrom scoring offset budget onset ∅ 0 source

end TwoLevel
