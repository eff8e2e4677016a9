import TwoLevel.Proofs.Names
import Std.Data.String.ToNat
import Mathlib.Data.List.Nodup
import Mathlib.Data.List.Perm.Subperm
import Mathlib.Order.Bounds.Basic

/-!
The names that are generated for positions without one. The search for a free number ends, since
the numbers that it can pass over have different names, and it ends at the least free one. However
often names are filled, the given ones stay, every generated one is the only one of its kind, and
the index finds the first position of each name.
-/

namespace TwoLevel

theorem defaultName_injective : Function.Injective defaultName :=
  fun _ _ same => Nat.repr_injective ((String.append_right_inj "x").1 same)

namespace Names

variable {names : Names} {given : List String} {name : String} {position : Nat}

/-! ## The index -/

theorem find?_push (names : Names) (name other : String) :
    (names.push name).find? other =
      (names.find? other).or (if name = other then some names.size else none) := by
  obtain ⟨array, index⟩ := names
  change (index.insertIfNew name array.size)[other]? =
    index[other]?.or (if name = other then some array.size else none)
  simp only [Std.TreeMap.getElem?_insertIfNew, Std.compare_eq_iff_eq]
  by_cases same : name = other
  · subst same
    cases found : index[name]? <;> simp [Std.TreeMap.mem_iff_isSome_getElem?, found]
  · simp [same]

theorem find?_ofList (list : List String) (name : String) :
    (ofList list).find? name = list.idxOf? name := by
  induction list using List.reverseRecOn with
  | nil => exact Std.TreeMap.getElem?_emptyc
  | append_singleton list last ih =>
      rw [ofList_concat, find?_push, ih, size_eq, toList_ofList, List.idxOf?, List.findIdx?_append]
      by_cases same : last = name <;> simp [same]

theorem Indexed.find?_eq (indexed : names.Indexed) (name : String) :
    names.find? name = names.toList.idxOf? name := by
  rw [← find?_ofList, indexed]

theorem get?_eq (names : Names) (position : Nat) : names.get? position = names.toList[position]? :=
  Array.getElem?_toList.symm

theorem Indexed.find?_eq_none (indexed : names.Indexed) :
    names.find? name = none ↔ name ∉ names.toList := by
  rw [indexed.find?_eq, List.idxOf?_eq_none_iff]

theorem Indexed.find?_eq_some (indexed : names.Indexed) :
    names.find? name = some position ↔ IsLeast {p | names.get? p = some name} position := by
  simp only [indexed.find?_eq, get?_eq, List.idxOf?_eq_some_iff]
  constructor
  · rintro ⟨inside, here, before⟩
    refine ⟨List.getElem?_eq_some_iff.2 ⟨inside, here⟩, fun other there => not_lt.1 fun less => ?_⟩
    exact before other less (List.getElem?_eq_some_iff.1 there).2
  · rintro ⟨here, least⟩
    obtain ⟨inside, same⟩ := List.getElem?_eq_some_iff.1 here
    refine ⟨inside, same, fun other less there => less.not_ge (least ?_)⟩
    exact List.getElem?_eq_some_iff.2 ⟨less.trans inside, there⟩

theorem Indexed.contains_iff (indexed : names.Indexed) :
    names.index.contains name = true ↔ name ∈ names.toList := by
  rw [Std.TreeMap.contains_eq_isSome_getElem?, ← not_iff_not, Bool.not_eq_true,
    Option.isSome_eq_false_iff, Option.isNone_iff_eq_none]
  exact indexed.find?_eq_none

/-! ## The search for a free number -/

/-- The search from a number on, with no bound: it passes over numbers whose names are taken. -/
inductive Seeks (names : Names) : Nat → Nat → Prop
  | free {start : Nat} (free : names.index.contains (defaultName start) = false) :
      Seeks names start start
  | taken {start k : Nat} (taken : names.index.contains (defaultName start) = true)
      (later : Seeks names (start + 1) k) : Seeks names start k

theorem Seeks.isLeast {start k : Nat} (seeks : names.Seeks start k) (indexed : names.Indexed) :
    IsLeast {n | start ≤ n ∧ defaultName n ∉ names.toList} k := by
  induction seeks with
  | free free =>
      rw [← Bool.not_eq_true, indexed.contains_iff] at free
      exact ⟨⟨le_rfl, free⟩, fun n after => after.1⟩
  | @taken start k taken _ ih =>
      obtain ⟨⟨after, free⟩, least⟩ := ih
      refine ⟨⟨(Nat.le_succ start).trans after, free⟩, fun n ⟨from_start, unused⟩ => ?_⟩
      have passed : start ≠ n := fun same => unused (same ▸ indexed.contains_iff.1 taken)
      exact least ⟨lt_of_le_of_ne from_start passed, unused⟩

/-- Enough tries reach a free number. -/
theorem seeks_freeNumber {start tries : Nat} (reached : ∃ n, start ≤ n ∧ n ≤ start + tries ∧
    names.index.contains (defaultName n) = false) :
    names.Seeks start (names.freeNumber start tries) := by
  induction tries generalizing start with
  | zero =>
      obtain ⟨n, after, before, free⟩ := reached
      obtain rfl : n = start := le_antisymm before after
      exact .free free
  | succ tries ih =>
      rw [freeNumber]
      split
      · rename_i taken
        refine .taken taken (ih ?_)
        obtain ⟨n, after, before, free⟩ := reached
        have passed : start ≠ n := by
          rintro rfl
          rw [taken] at free
          cases free
        exact ⟨n, lt_of_le_of_ne after passed, by omega, free⟩
      · rename_i free
        exact .free (Bool.not_eq_true _ ▸ free)

/-- Of one number more than there are names, one has a free name. -/
theorem Indexed.exists_free (indexed : names.Indexed) (start : Nat) :
    ∃ n, start ≤ n ∧ n ≤ start + names.size ∧
      names.index.contains (defaultName n) = false := by
  by_contra none
  have taken : (List.range' start (names.size + 1)).map defaultName ⊆ names.toList := by
    intro name member
    obtain ⟨n, inside, rfl⟩ := List.mem_map.1 member
    rw [List.mem_range'_1] at inside
    by_contra free
    rw [← indexed.contains_iff, Bool.not_eq_true] at free
    exact none ⟨n, inside.1, by omega, free⟩
  have distinct : ((List.range' start (names.size + 1)).map defaultName).Nodup :=
    List.Nodup.map defaultName_injective (List.nodup_range' ..)
  have fits := (distinct.subperm taken).length_le
  rw [List.length_map, List.length_range', ← size_eq] at fits
  exact absurd fits (Nat.not_succ_le_self _)

theorem Indexed.seeks (indexed : names.Indexed) (start : Nat) :
    names.Seeks start (names.freeNumber start names.size) :=
  seeks_freeNumber (indexed.exists_free start)

/-! ## Names that were filled -/

/-- Names made of given ones and of generated ones behind them: each generated name carries the
least number from its position on that no name before it carries. -/
structure Grown (given : List String) (names : Names) : Prop where
  indexed : names.Indexed
  kept : given <+: names.toList
  generated : ∀ p, given.length ≤ p → p < names.size → ∃ k,
    names.get? p = some (defaultName k) ∧
      IsLeast {n | p ≤ n ∧ defaultName n ∉ names.toList.take p} k

theorem Grown.start (given : List String) : (ofList given).Grown given := by
  refine ⟨indexed_ofList given, (toList_ofList given).symm ▸ List.prefix_rfl,
    fun p after before => ?_⟩
  rw [size_eq, toList_ofList] at before
  exact absurd before after.not_gt

theorem Grown.pushGenerated (grown : names.Grown given) : names.pushGenerated.Grown given := by
  have list : names.pushGenerated.toList =
      names.toList ++ [defaultName (names.freeNumber names.size names.size)] := toList_push ..
  refine ⟨indexed_push grown.indexed _, ?_, fun p after before => ?_⟩
  · rw [list]
    exact grown.kept.trans (List.prefix_append ..)
  · rw [size_eq, list, List.length_append, List.length_singleton, Nat.lt_succ_iff,
      ← size_eq] at before
    rw [get?_eq, list, List.take_append_of_le_length (size_eq names ▸ before)]
    rcases before.lt_or_eq with old | rfl
    · rw [List.getElem?_append_left (size_eq names ▸ old), ← get?_eq]
      exact grown.generated p after old
    · rw [size_eq, List.take_length, ← size_eq]
      refine ⟨_, ?_, (grown.indexed.seeks names.size).isLeast grown.indexed⟩
      rw [size_eq, List.getElem?_concat_length]

theorem Grown.fillTo (grown : names.Grown given) (target : Nat) :
    (names.fillTo target).Grown given := by
  unfold Names.fillTo
  generalize target - names.size = count
  induction count generalizing names with
  | zero => exact grown
  | succ count ih => exact ih grown.pushGenerated

theorem Grown.length_le (grown : names.Grown given) : given.length ≤ names.size :=
  grown.kept.length_le

/-- A generated name is not the name of an earlier position. -/
theorem Grown.new {p q : Nat} (grown : names.Grown given) (after : given.length ≤ p)
    (inside : p < names.size) (earlier : q < p) : names.get? q ≠ names.get? p := by
  obtain ⟨k, here, ⟨-, unused⟩, -⟩ := grown.generated p after inside
  intro same
  rw [here, get?_eq] at same
  apply unused
  refine List.mem_iff_getElem?.2 ⟨q, ?_⟩
  rw [List.getElem?_take_of_lt earlier, same]

/-- A generated name is the name of no other position. -/
theorem Grown.alone {p q : Nat} (grown : names.Grown given) (after : given.length ≤ p)
    (inside : p < names.size) (other : q ≠ p) (inside' : q < names.size) :
    names.get? q ≠ names.get? p := by
  rcases other.lt_or_gt with earlier | later
  · exact grown.new after inside earlier
  · exact (grown.new (after.trans later.le) inside' later).symm

theorem grown_foldl_fillTo (grown : names.Grown given) (targets : List Nat) :
    (targets.foldl Names.fillTo names).Grown given := by
  induction targets generalizing names with
  | nil => exact grown
  | cons target rest ih => exact ih (grown.fillTo target)

theorem size_foldl_fillTo (names : Names) (targets : List Nat) :
    (targets.foldl Names.fillTo names).size = targets.foldl max names.size := by
  induction targets generalizing names with
  | nil => rfl
  | cons target rest ih => rw [List.foldl_cons, ih, size_fillTo, List.foldl_cons]

/-- What is true of names that were given and then filled to a size. -/
structure Backfilled (given : List String) (size : Nat) (names : Names) : Prop where
  kept : given <+: names.toList
  size : names.size = size
  /-- The name at a position that was not given has the least number from the position on whose
  name was not there yet. -/
  generated : ∀ p, given.length ≤ p → p < names.size → ∃ k,
    names.get? p = some (defaultName k) ∧
      IsLeast {n | p ≤ n ∧ defaultName n ∉ names.toList.take p} k
  alone : ∀ p q, given.length ≤ p → p < names.size → q < names.size → q ≠ p →
    names.get? q ≠ names.get? p
  /-- A look-up finds the first position of a name. -/
  found : ∀ name p, names.find? name = some p ↔ IsLeast {q | names.get? q = some name} p
  missing : ∀ name, names.find? name = none ↔ name ∉ names.toList
  /-- The search for a free number ends, wherever it starts, and with the one that is generated. -/
  ends : ∀ start, names.Seeks start (names.freeNumber start names.size)

/-- Names stay in order and apart however often they are filled and to whatever sizes. -/
theorem backfilled_of_fillings (given : List String) (targets : List Nat) :
    Backfilled given (targets.foldl max given.length)
      (targets.foldl Names.fillTo (ofList given)) := by
  have grown : (targets.foldl Names.fillTo (ofList given)).Grown given :=
    grown_foldl_fillTo (.start given) targets
  have size : (ofList given).size = given.length := by rw [size_eq, toList_ofList]
  constructor
  · exact grown.kept
  · rw [size_foldl_fillTo, size]
  · exact grown.generated
  · exact fun p q after inside inside' other => grown.alone after inside other inside'
  · exact fun name p => grown.indexed.find?_eq_some
  · exact fun name => grown.indexed.find?_eq_none
  · exact grown.indexed.seeks

/-- Given names may be doubled and look like generated ones. -/
example : ([4, 2, 6].foldl Names.fillTo (ofList ["x2", "a", "a", "x5"])).toList =
    ["x2", "a", "a", "x5", "x4", "x6"] := by decide +kernel

end Names

end TwoLevel
