import TwoLevel.Random.Source

/-!
The choice of a best candidate: the candidates whose score no other one exceeds are the leaders, and
chance decides among them.
-/

namespace TwoLevel

variable {α σ : Type}

def topScore? [LT σ] [DecidableLT σ] : List (α × σ) → Option σ
  | [] => none
  | first :: rest =>
      some (rest.foldl (fun top entry => if top < entry.2 then entry.2 else top) first.2)

def leaders [LT σ] [DecidableLT σ] (scored : List (α × σ)) : List α :=
  match topScore? scored with
  | none => []
  | some top => (scored.filter fun entry => !decide (entry.2 < top)).map (·.1)

theorem mem_of_mem_leaders [LT σ] [DecidableLT σ] {scored : List (α × σ)} {a : α}
    (member : a ∈ leaders scored) : ∃ score, (a, score) ∈ scored := by
  simp only [leaders] at member
  split at member
  · simp at member
  · obtain ⟨⟨b, score⟩, kept, rfl⟩ := List.mem_map.1 member
    exact ⟨score, (List.mem_filter.1 kept).1⟩

theorem Source.mem_of_choose? {candidates : List α} {source next : Source} {a : α}
    (chosen : source.choose? candidates = (some a, next)) : a ∈ candidates := by
  simp only [Source.choose?] at chosen
  split at chosen
  · simp at chosen
  · exact List.mem_of_getElem? (congrArg Prod.fst chosen)

def eligible (scored : List (α × Float)) : List (α × Float) := scored.filter (·.2.isFinite)

/-- A best candidate by finite scores. Nothing is drawn when no score is finite. -/
def selectBest (scored : List (α × Float)) (source : Source) : Option α × Source :=
  source.choose? (leaders (eligible scored))

theorem mem_of_selectBest {scored : List (α × Float)} {source next : Source} {a : α}
    (chosen : selectBest scored source = (some a, next)) : ∃ score, (a, score) ∈ scored := by
  obtain ⟨score, member⟩ := mem_of_mem_leaders (Source.mem_of_choose? chosen)
  exact ⟨score, (List.mem_filter.1 member).1⟩

end TwoLevel
