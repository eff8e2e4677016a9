import TwoLevel.Names
import Mathlib.Data.List.Induction

/-!
Names in order and their index. The index never says more than the list of names, so names can be
built again from their list; positions that nobody named get default names.
-/

namespace TwoLevel.Names

variable {names : Names} {list : List String} {name : String} {target : Nat}

/-- The index is the one that the list of the names gives. -/
def Indexed (names : Names) : Prop := ofList names.toList = names

theorem toList_push (names : Names) (name : String) :
    (names.push name).toList = names.toList ++ [name] :=
  Array.toList_push

theorem ofList_concat (list : List String) (name : String) :
    ofList (list ++ [name]) = (ofList list).push name := by
  rw [ofList, List.foldl_append]
  rfl

theorem toList_ofList (list : List String) : (ofList list).toList = list := by
  induction list using List.reverseRecOn with
  | nil => rfl
  | append_singleton list name ih => rw [ofList_concat, toList_push, ih]

theorem size_eq (names : Names) : names.size = names.toList.length := rfl

theorem indexed_ofList (list : List String) : (ofList list).Indexed := by
  rw [Indexed, toList_ofList]

theorem indexed_push (indexed : names.Indexed) (name : String) : (names.push name).Indexed := by
  rw [Indexed, toList_push, ofList_concat, indexed]

theorem pushMany_induction {P : Names → Prop} (count : Nat) (start : P names)
    (step : ∀ names number, P names → P (names.push (defaultName number))) :
    P (names.pushMany count) := by
  induction count generalizing names with
  | zero => exact start
  | succ count ih => exact ih (step names _ start)

theorem indexed_fillTo (indexed : names.Indexed) (target : Nat) : (names.fillTo target).Indexed :=
  pushMany_induction _ indexed fun _ number before => indexed_push before (defaultName number)

theorem indexed_generated (count : Nat) : (generated count).Indexed :=
  indexed_fillTo (indexed_ofList []) count

theorem size_pushMany (names : Names) (count : Nat) :
    (names.pushMany count).size = names.size + count := by
  induction count generalizing names with
  | zero => rfl
  | succ count ih =>
      rw [pushMany, ih, size_eq, pushGenerated, toList_push, List.length_append,
        List.length_singleton, size_eq]
      omega

theorem size_fillTo (names : Names) (target : Nat) :
    (names.fillTo target).size = max names.size target := by
  rw [fillTo, size_pushMany]
  omega

theorem size_generated (count : Nat) : (generated count).size = count := by
  rw [generated, size_fillTo]
  exact Nat.max_eq_right (Nat.zero_le count)

theorem of_mem_fillTo (member : name ∈ (names.fillTo target).toList) :
    name ∈ names.toList ∨ ∃ number, name = defaultName number := by
  refine pushMany_induction (P := fun filled => ∀ name ∈ filled.toList,
    name ∈ names.toList ∨ ∃ number, name = defaultName number) _ (fun _ old => .inl old) ?_ name
    member
  intro filled number before other inside
  rw [toList_push] at inside
  rcases List.mem_append.1 inside with old | new
  · exact before other old
  · exact .inr ⟨number, List.mem_singleton.1 new⟩

end TwoLevel.Names
