import TwoLevel.Cube.Basic

/-!
Finite sets of cubes, kept in the order of cubes: sums of products. Two sets with the same members
are equal.
-/

namespace TwoLevel

structure CubeSet where
  cubes : List Cube
  ascending : cubes.Pairwise (compare · · = .lt) := by simp
deriving DecidableEq

namespace CubeSet

instance : EmptyCollection CubeSet := ⟨⟨[], .nil⟩⟩

instance : Inhabited CubeSet := ⟨∅⟩

instance : Membership Cube CubeSet where
  mem set c := c ∈ set.cubes

instance (c : Cube) (set : CubeSet) : Decidable (c ∈ set) :=
  inferInstanceAs (Decidable (c ∈ set.cubes))

def size (set : CubeSet) : Nat := set.cubes.length

def isEmpty (set : CubeSet) : Bool := set.cubes.isEmpty

/-- The cubes with `c` at its place, or unchanged if it is there. -/
def place (c : Cube) : List Cube → List Cube
  | [] => [c]
  | d :: rest =>
      match compare c d with
      | .lt => c :: d :: rest
      | .eq => d :: rest
      | .gt => d :: place c rest

theorem mem_place_imp {c e : Cube} {cubes : List Cube} (member : e ∈ place c cubes) :
    e = c ∨ e ∈ cubes := by
  induction cubes with
  | nil => simpa [place] using member
  | cons d rest ih =>
      simp only [place] at member
      split at member
      · simpa using member
      · exact .inr member
      · rcases List.mem_cons.1 member with rfl | member
        · simp
        · rcases ih member with rfl | member <;> simp [*]

theorem ascending_place (c : Cube) {cubes : List Cube}
    (ascending : cubes.Pairwise (compare · · = .lt)) :
    (place c cubes).Pairwise (compare · · = .lt) := by
  induction cubes with
  | nil => simp [place]
  | cons d rest ih =>
      have ⟨head, tail⟩ := List.pairwise_cons.1 ascending
      simp only [place]
      split
      · rename_i before
        refine List.pairwise_cons.2 ⟨fun e member => ?_, ascending⟩
        rcases List.mem_cons.1 member with rfl | member
        · exact before
        · exact Std.TransCmp.lt_trans before (head e member)
      · exact ascending
      · rename_i after
        refine List.pairwise_cons.2 ⟨fun e member => ?_, ih tail⟩
        rcases mem_place_imp member with rfl | member
        · exact Std.OrientedCmp.lt_of_gt after
        · exact head e member

def insert (set : CubeSet) (c : Cube) : CubeSet :=
  ⟨place c set.cubes, ascending_place c set.ascending⟩

def erase (set : CubeSet) (c : Cube) : CubeSet :=
  ⟨set.cubes.filter (· ≠ c), set.ascending.filter _⟩

def ofList (cubes : List Cube) : CubeSet :=
  cubes.foldl insert ∅

def merge : List Cube → List Cube → List Cube
  | [], others => others
  | c :: rest, others =>
      others.takeWhile (fun d => compare d c == .lt) ++ c ::
        merge rest ((others.dropWhile fun d => compare d c == .lt).dropWhile (· == c))

theorem mem_merge_imp {e : Cube} {cubes others : List Cube} (member : e ∈ merge cubes others) :
    e ∈ cubes ∨ e ∈ others := by
  induction cubes generalizing others with
  | nil => exact .inr member
  | cons c rest ih =>
      rcases List.mem_append.1 member with before | member
      · exact .inr (List.takeWhile_subset _ before)
      · rcases List.mem_cons.1 member with rfl | member
        · simp
        · rcases ih member with member | after
          · simp [member]
          · exact .inr (List.dropWhile_subset _ (List.dropWhile_subset _ after))

theorem lt_of_mem_dropWhile {c e : Cube} {others : List Cube}
    (ascending : others.Pairwise (compare · · = .lt))
    (member : e ∈ (others.dropWhile fun d => compare d c == .lt).dropWhile (· == c)) :
    compare c e = .lt := by
  induction others with
  | nil => simp at member
  | cons d rest ih =>
      have ⟨head, tail⟩ := List.pairwise_cons.1 ascending
      rw [List.dropWhile_cons] at member
      split at member
      · exact ih tail member
      · rename_i after
        rw [List.dropWhile_cons] at member
        split at member
        · rename_i same
          exact eq_of_beq same ▸ head e (List.dropWhile_subset _ member)
        · rename_i other
          have before : compare c d = .lt := by
            cases order : compare d c with
            | lt => simp [order] at after
            | eq => simp [Std.LawfulEqCmp.eq_of_compare order] at other
            | gt => exact Std.OrientedCmp.lt_of_gt order
          rcases List.mem_cons.1 member with rfl | member
          · exact before
          · exact Std.TransCmp.lt_trans before (head e member)

theorem ascending_merge {cubes others : List Cube}
    (ascending : cubes.Pairwise (compare · · = .lt))
    (order : others.Pairwise (compare · · = .lt)) :
    (merge cubes others).Pairwise (compare · · = .lt) := by
  induction cubes generalizing others with
  | nil => exact order
  | cons c rest ih =>
      have ⟨head, tail⟩ := List.pairwise_cons.1 ascending
      let after := (others.dropWhile fun d => compare d c == .lt).dropWhile (· == c)
      have later : ∀ e ∈ merge rest after, compare c e = .lt := fun e member =>
        (mem_merge_imp member).elim (head e) (lt_of_mem_dropWhile order)
      have rising : (c :: merge rest after).Pairwise (compare · · = .lt) :=
        List.pairwise_cons.2 ⟨later, ih tail
          ((order.sublist (List.dropWhile_sublist _)).sublist (List.dropWhile_sublist _))⟩
      refine List.pairwise_append.2
        ⟨order.sublist (List.takeWhile_sublist _), rising, fun d member e inside => ?_⟩
      have before : compare d c = .lt := by
        simpa using List.all_eq_true.1 List.all_takeWhile d member
      rcases List.mem_cons.1 inside with rfl | inside
      · exact before
      · exact Std.TransCmp.lt_trans before (later e inside)

def union (a b : CubeSet) : CubeSet :=
  ⟨merge a.cubes b.cubes, ascending_merge a.ascending b.ascending⟩

instance : Union CubeSet := ⟨union⟩

instance : HasSubset CubeSet where
  Subset a b := ∀ c ∈ a.cubes, c ∈ b.cubes

instance (a b : CubeSet) : Decidable (a ⊆ b) :=
  inferInstanceAs (Decidable (∀ c ∈ a.cubes, c ∈ b.cubes))

def admits (set : CubeSet) (minterm : Cube) : Bool := set.cubes.any (·.admits minterm)

def literalCount (set : CubeSet) : Nat := (set.cubes.flatMap Cube.literals).length

/-- The cubes joined by `+`; the empty sum is `0`. -/
def textWith (set : CubeSet) (name : Nat → String) : String :=
  if set.isEmpty then "0" else " + ".intercalate (set.cubes.map (·.textWith name))

instance : ToString CubeSet where
  toString set := set.textWith defaultName

end CubeSet

end TwoLevel
