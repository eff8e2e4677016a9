import Mathlib.Algebra.Order.Field.Basic
import Mathlib.Algebra.Order.Field.Rat
import Mathlib.Data.List.Lattice
import TwoLevel.Proofs.Cleaning
import TwoLevel.Proofs.Stages

/-!
The law of conflict resolution. A row leaves its side exactly if its minterm is a row of the other
side too and has no greater share of the rows here. What is left is without conflict, so a second
resolution changes nothing, and the sides are treated alike. The minterms may be gone through in any
order.
-/

namespace TwoLevel.Rows

variable {own other onset offset kept : Rows} {removed : List Cube} {m : Cube}

/-! ## Shares -/

/-- The part of the rows that are this minterm. -/
def share (rows : Rows) (m : Cube) : ℚ := rows.minterms.count m / rows.size

/-- The minterm is a row of the other side too, and of the rows there it has no smaller share. -/
def Loses (own other : Rows) (m : Cube) : Prop := m ∈ other.minterms ∧ own.share m ≤ other.share m

instance (own other : Rows) (m : Cube) : Decidable (own.Loses other m) :=
  inferInstanceAs (Decidable (_ ∧ _))

theorem share_le_iff (here : m ∈ own.minterms) (there : m ∈ other.minterms) :
    own.share m ≤ other.share m ↔
      own.minterms.count m * other.size ≤ other.minterms.count m * own.size := by
  have own_rows : (0 : ℚ) < own.size := by exact_mod_cast List.length_pos_of_mem here
  have other_rows : (0 : ℚ) < other.size := by exact_mod_cast List.length_pos_of_mem there
  rw [share, share, div_le_div_iff₀ own_rows other_rows]
  exact_mod_cast Iff.rfl

theorem yields_eq (here : m ∈ own.minterms) :
    yields own.multiplicities other.multiplicities own.size other.size m =
      decide (own.Loses other m) := by
  rw [Bool.eq_iff_iff, yields_iff, decide_eq_true_iff, Loses]
  exact and_congr_right fun there => (share_le_iff here there).symm

/-! ## Sides -/

/-- What becomes of one side: the rows that are kept and those that are removed. -/
structure Split (own other kept : Rows) (removed : List Cube) : Prop where
  arity : kept.arity = own.arity
  stay : kept.minterms = own.minterms.filter fun m => ¬ own.Loses other m
  leave : removed = own.minterms.filter fun m => own.Loses other m
  stayInOrder : kept.minterms.Sublist own.minterms
  leaveInOrder : removed.Sublist own.minterms
  together : (removed ++ kept.minterms).Perm own.minterms
  untouched : ∀ m ∉ other.minterms,
    m ∉ removed ∧ kept.minterms.count m = own.minterms.count m

namespace Split

theorem of_filter (arity : kept.arity = own.arity)
    (stay : kept.minterms = own.minterms.filter fun m => ¬ own.Loses other m)
    (leave : removed = own.minterms.filter fun m => own.Loses other m) :
    Split own other kept removed where
  arity := arity
  stay := stay
  leave := leave
  stayInOrder := stay ▸ List.filter_sublist
  leaveInOrder := leave ▸ List.filter_sublist
  together := by
    rw [stay, leave]
    simpa only [decide_not] using List.filter_append_perm _ own.minterms
  untouched m alone := by
    have stays : ¬ own.Loses other m := fun loses => alone loses.1
    rw [stay, leave]
    refine ⟨fun listed => ?_, List.count_filter (by simpa using stays)⟩
    exact stays (by simpa using (List.mem_filter.1 listed).2)

theorem of_disjoint (split : Split own other kept removed)
    (disjoint : own.minterms.Disjoint other.minterms) : kept = own ∧ removed = [] := by
  have stays : ∀ m ∈ own.minterms, ¬ own.Loses other m := fun m here loses =>
    disjoint here loses.1
  constructor
  · apply eq_of_minterms split.arity
    rw [split.stay]
    exact List.filter_eq_self.2 fun m here => decide_eq_true (stays m here)
  · rw [split.leave]
    exact List.filter_eq_nil_iff.2 fun m here loses => stays m here (of_decide_eq_true loses)

end Split

theorem split_separate (onset offset : Rows) :
    Split onset offset (separate onset offset).onset (separate onset offset).removedFromOnset :=
  .of_filter rfl (List.filter_congr fun m here => by rw [yields_eq here, decide_not])
    (List.filter_congr fun m here => yields_eq here)

/-! ## Resolutions -/

/-- The resolution with the sides exchanged. -/
def Cleaning.swap (c : Cleaning) : Cleaning :=
  ⟨c.offset, c.onset, c.removedFromOffset, c.removedFromOnset⟩

theorem separate_swap (onset offset : Rows) :
    separate offset onset = (separate onset offset).swap := rfl

theorem separate_of_disjoint (disjoint : onset.minterms.Disjoint offset.minterms) :
    separate onset offset = ⟨onset, offset, [], []⟩ := by
  obtain ⟨onset_kept, onset_removed⟩ := (split_separate onset offset).of_disjoint disjoint
  obtain ⟨offset_kept, offset_removed⟩ := (split_separate offset onset).of_disjoint disjoint.symm
  rw [separate_swap, Cleaning.swap] at offset_kept offset_removed
  cases resolved : separate onset offset
  simp_all

theorem resolveConflicts_of_arity (same : onset.arity = offset.arity) :
    resolveConflicts onset offset = .ok (separate onset offset) := by
  have checked : checkVariables onset offset = .ok () := if_pos same
  rw [resolveConflicts, checked]
  rfl

/-! ## Minterms gone through one by one -/

/-- Adds a counted minterm if it is known on the other side and leaves for the two counts. -/
def note (leaves : Nat → Nat → Bool) (other : Std.HashMap Cube Nat) (leaving : Std.HashSet Cube)
    (counted : Cube × Nat) : Std.HashSet Cube :=
  match other[counted.1]? with
  | none => leaving
  | some count => if leaves counted.2 count then leaving.insert counted.1 else leaving

def noteOnset (onset offset : Rows) : Std.HashSet Cube → Cube × Nat → Std.HashSet Cube :=
  note (fun here there => here * offset.size ≤ there * onset.size) offset.multiplicities

def noteOffset (onset offset : Rows) : Std.HashSet Cube → Cube × Nat → Std.HashSet Cube :=
  note (fun here there => there * onset.size ≤ here * offset.size) offset.multiplicities

/-- The resolution that goes through the counted minterms of the onset in the given order and notes
for each whether it leaves the onset and whether it leaves the offset. -/
def separateAlong (order : List (Cube × Nat)) (onset offset : Rows) : Cleaning :=
  let leaving := order.foldl (fun leaving counted =>
    (noteOnset onset offset leaving.1 counted, noteOffset onset offset leaving.2 counted)) (∅, ∅)
  { onset := onset.filter (!leaving.1.contains ·)
    offset := offset.filter (!leaving.2.contains ·)
    removedFromOnset := onset.minterms.filter leaving.1.contains
    removedFromOffset := offset.minterms.filter leaving.2.contains }

section

variable {leaves : Nat → Nat → Bool} {leaving : Std.HashSet Cube} {order : List (Cube × Nat)}
  {counted : Cube × Nat}

theorem mem_note {counts : Std.HashMap Cube Nat} : m ∈ note leaves counts leaving counted ↔
    m ∈ leaving ∨ counted.1 = m ∧ ∃ count, counts[m]? = some count ∧ leaves counted.2 count := by
  unfold note
  by_cases same : counted.1 = m
  · subst same
    cases counts[counted.1]? with
    | none => simp
    | some count => by_cases goes : leaves counted.2 count = true <;> simp [goes]
  · cases counts[counted.1]? with
    | none => simp [same]
    | some count => by_cases goes : leaves counted.2 count = true <;> simp [goes, same]

theorem mem_foldl_note {counts : Std.HashMap Cube Nat} :
    m ∈ order.foldl (note leaves counts) leaving ↔ m ∈ leaving ∨
      ∃ here, (m, here) ∈ order ∧ ∃ count, counts[m]? = some count ∧ leaves here count := by
  induction order generalizing leaving with
  | nil => simp
  | cons counted rest ih =>
      obtain ⟨c, here⟩ := counted
      rw [List.foldl_cons, ih, mem_note, or_assoc]
      refine or_congr_right ?_
      constructor
      · rintro (⟨rfl, known⟩ | ⟨other, listed, known⟩)
        · exact ⟨here, List.mem_cons_self, known⟩
        · exact ⟨other, List.mem_cons_of_mem _ listed, known⟩
      · rintro ⟨other, listed, known⟩
        rcases List.mem_cons.1 listed with same | later
        · cases same
          exact .inl ⟨rfl, known⟩
        · exact .inr ⟨other, later, known⟩

theorem mem_leaving (complete : order.Perm onset.multiplicities.toList) :
    m ∈ order.foldl (note leaves offset.multiplicities) ∅ ↔ m ∈ onset.minterms ∧
      m ∈ offset.minterms ∧ leaves (onset.minterms.count m) (offset.minterms.count m) := by
  rw [mem_foldl_note]
  simp only [complete.mem_iff, Std.HashMap.mem_toList_iff_getElem?_eq_some,
    getElem?_multiplicities, Std.HashSet.not_mem_empty, false_or]
  by_cases here : m ∈ onset.minterms <;> by_cases there : m ∈ offset.minterms <;>
    simp [here, there]

end

/-- Each minterm is looked at by itself, so the order does not matter. -/
theorem separateAlong_eq {order : List (Cube × Nat)}
    (complete : order.Perm onset.multiplicities.toList) :
    separateAlong order onset offset = separate onset offset := by
  have fromOnset : ∀ m ∈ onset.minterms,
      (order.foldl (noteOnset onset offset) ∅).contains m =
        yields onset.multiplicities offset.multiplicities onset.size offset.size m := by
    intro m here
    rw [Bool.eq_iff_iff, Std.HashSet.contains_iff_mem, noteOnset, mem_leaving complete, yields_iff]
    simp [here]
  have fromOffset : ∀ m ∈ offset.minterms,
      (order.foldl (noteOffset onset offset) ∅).contains m =
        yields offset.multiplicities onset.multiplicities offset.size onset.size m := by
    intro m there
    rw [Bool.eq_iff_iff, Std.HashSet.contains_iff_mem, noteOffset, mem_leaving complete, yields_iff]
    simp [there]
  have apart := List.foldl_hom₂ order Prod.mk (noteOnset onset offset) (noteOffset onset offset)
    (fun leaving counted =>
      (noteOnset onset offset leaving.1 counted, noteOffset onset offset leaving.2 counted))
    ∅ ∅ fun _ _ _ => rfl
  simp only [separateAlong, apart, separate, filter, Cleaning.mk.injEq, Rows.mk.injEq, true_and]
  refine ⟨?_, ?_, List.filter_congr fromOnset, List.filter_congr fromOffset⟩
  · exact List.filter_congr fun m here => by rw [fromOnset m here]
  · exact List.filter_congr fun m there => by rw [fromOffset m there]

/-! ## The law -/

/-- What a resolution comes to. -/
structure Resolution (onset offset : Rows) (c : Cleaning) : Prop where
  ofOnset : Split onset offset c.onset c.removedFromOnset
  ofOffset : Split offset onset c.offset c.removedFromOffset
  disjoint : checkDisjoint c.onset c.offset = .ok ()
  exchanged : resolveConflicts offset onset = .ok c.swap
  again : resolveConflicts c.onset c.offset = .ok ⟨c.onset, c.offset, [], []⟩
  anyOrder : ∀ order : List (Cube × Nat), order.Perm onset.multiplicities.toList →
    separateAlong order onset offset = c

/-- Rows over the same variables are resolved: a row leaves its side if its minterm has no smaller
share of the rows on the other side, the others stay, and no conflict is left. -/
theorem resolveConflicts_law (same : onset.arity = offset.arity) :
    ∃ c, resolveConflicts onset offset = .ok c ∧ Resolution onset offset c := by
  have disjoint := separate_disjoint onset offset
  have still_same : (separate onset offset).onset.arity = (separate onset offset).offset.arity :=
    same
  refine ⟨_, resolveConflicts_of_arity same, ?_⟩
  exact
    { ofOnset := split_separate onset offset
      ofOffset := split_separate offset onset
      disjoint := by
        have checked : checkInput {} (separate onset offset).onset
            (separate onset offset).offset = .ok () :=
          checkInput_eq_ok.2 ⟨still_same, fun _ => disjoint⟩
        exact checked
      exchanged := resolveConflicts_of_arity same.symm
      again := by rw [resolveConflicts_of_arity still_same, separate_of_disjoint disjoint]
      anyOrder := fun order complete => separateAlong_eq complete }

def doubledRows : Rows :=
  ⟨2, [.ofBits [true, true], .ofBits [true, false], .ofBits [true, true]], by decide⟩

def singleRows : Rows :=
  ⟨2, [.ofBits [true, false], .ofBits [true, true], .ofBits [false, false]], by decide⟩

/-- The doubled minterm leaves the side that has it once, and a minterm that both sides have once
leaves both. -/
theorem resolveConflicts_law_doubled :
    ∃ c, resolveConflicts doubledRows singleRows = .ok c ∧
      c.onset.minterms = [.ofBits [true, true], .ofBits [true, true]] ∧
      c.removedFromOffset = [.ofBits [true, false], .ofBits [true, true]] := by
  have same : doubledRows.arity = singleRows.arity := rfl
  obtain ⟨c, resolved, law⟩ := resolveConflicts_law same
  refine ⟨c, resolved, ?_, ?_⟩
  · rw [law.ofOnset.stay]
    decide +kernel
  · rw [law.ofOffset.leave]
    decide +kernel

end TwoLevel.Rows
