import TwoLevel.Table.Basic
import TwoLevel.Proofs.Rows

/-!
Cleaning takes rows out of tables that say both of a minterm. A minterm that occurs on both sides
leaves the side on which its share of the rows is not the greater one, so no minterm stays on both.
-/

namespace TwoLevel

namespace Rows

variable {rows onset offset : Rows} {m : Cube}

theorem getElem?_foldl_alter (cubes : List Cube) (counts : Std.HashMap Cube Nat) (m : Cube) :
    (cubes.foldl (fun counts c => counts.alter c fun count => some (count.getD 0 + 1)) counts)[m]? =
      if m ∈ cubes then some (counts[m]?.getD 0 + cubes.count m) else counts[m]? := by
  induction cubes generalizing counts with
  | nil => simp
  | cons c rest ih =>
      rw [List.foldl_cons, ih, Std.HashMap.getElem?_alter]
      by_cases here : c = m
      · subst here
        by_cases later : c ∈ rest
        · simp [later]
          omega
        · simp [later, List.count_eq_zero_of_not_mem later]
      · have absent : ¬m = c := fun same => here same.symm
        by_cases later : m ∈ rest <;> simp [later, here, absent]

theorem getElem?_multiplicities (rows : Rows) (m : Cube) :
    rows.multiplicities[m]? = if m ∈ rows.minterms then some (rows.minterms.count m) else none := by
  rw [multiplicities, getElem?_foldl_alter]
  simp

theorem getD_multiplicities (rows : Rows) (m : Cube) :
    rows.multiplicities.getD m 0 = rows.minterms.count m := by
  rw [Std.HashMap.getD_eq_getD_getElem?, getElem?_multiplicities]
  split
  · rfl
  · rename_i absent
    exact (List.count_eq_zero_of_not_mem absent).symm

/-- A minterm leaves a side if it occurs on the other one and has no greater share of the rows here:
the shares are compared without division. -/
theorem yields_iff {own other : Rows} :
    yields own.multiplicities other.multiplicities own.size other.size m = true ↔
      m ∈ other.minterms ∧
        own.minterms.count m * other.size ≤ other.minterms.count m * own.size := by
  rw [yields, getElem?_multiplicities, getD_multiplicities]
  by_cases member : m ∈ other.minterms <;> simp [member]

theorem mem_separate_onset : m ∈ (separate onset offset).onset.minterms ↔
    m ∈ onset.minterms ∧ (m ∈ offset.minterms →
      offset.minterms.count m * onset.size < onset.minterms.count m * offset.size) := by
  simp only [separate, filter, List.mem_filter, Bool.not_eq_true', ← Bool.not_eq_true, yields_iff,
    not_and, Nat.not_le]

theorem mem_separate_offset : m ∈ (separate onset offset).offset.minterms ↔
    m ∈ offset.minterms ∧ (m ∈ onset.minterms →
      onset.minterms.count m * offset.size < offset.minterms.count m * onset.size) := by
  simp only [separate, filter, List.mem_filter, Bool.not_eq_true', ← Bool.not_eq_true, yields_iff,
    not_and, Nat.not_le]

theorem separate_disjoint (onset offset : Rows) :
    (separate onset offset).onset.minterms.Disjoint (separate onset offset).offset.minterms := by
  intro m on off
  obtain ⟨inOnset, greater⟩ := mem_separate_onset.1 on
  obtain ⟨inOffset, smaller⟩ := mem_separate_offset.1 off
  exact Nat.lt_asymm (greater inOffset) (smaller inOnset)

theorem size_separate_onset_le (onset offset : Rows) :
    (separate onset offset).onset.size ≤ onset.size :=
  List.length_filter_le _ _

end Rows

namespace Table

variable {t : Table}

theorem resolveConflicts_clean (t : Table) :
    Rows.resolveConflicts t.onset t.offset = .ok t.clean.2 := by
  have checked : Rows.checkVariables t.onset t.offset = .ok () := if_pos t.sameVariables
  rw [Rows.resolveConflicts, checked]
  rfl

theorem clean_disjoint (t : Table) : t.clean.1.onset.minterms.Disjoint t.clean.1.offset.minterms :=
  Rows.separate_disjoint t.onset t.offset

end Table

end TwoLevel
