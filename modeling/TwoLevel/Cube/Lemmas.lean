import TwoLevel.Cube.Basic

/-!
What the operations on cubes do, said by membership among their literals.
-/

namespace TwoLevel.Cube

variable {c d : Cube} {l m : Literal}

theorem polarityIn_eq_some {var : Nat} {p : Polarity} {literals : List Literal}
    (ascending : literals.Pairwise (fun l m => l.var < m.var)) :
    polarityIn var literals = some p ↔ ⟨var, p⟩ ∈ literals := by
  induction literals with
  | nil => simp [polarityIn]
  | cons m rest ih =>
      have ⟨head, tail⟩ := List.pairwise_cons.1 ascending
      simp only [polarityIn, List.mem_cons]
      split
      · rename_i before
        rw [ih tail]
        exact ⟨.inr, fun member => member.resolve_left fun same => by simp [← same] at before⟩
      · split
        · rename_i same
          constructor
          · intro found
            cases found
            exact .inl (by cases m; simp_all)
          · rintro (rfl | member)
            · rfl
            · exact absurd (head _ member) (by simp [same])
        · rename_i after other
          constructor
          · simp
          · rintro (rfl | member)
            · simp at other
            · exact absurd (head _ member) (by simp; omega)

@[simp] theorem polarityOf?_eq_some {var : Nat} {p : Polarity} :
    c.polarityOf? var = some p ↔ ⟨var, p⟩ ∈ c.literals :=
  polarityIn_eq_some c.ascending

@[simp] theorem contains_iff : c.contains l = true ↔ l ∈ c.literals := by
  simp [contains]

theorem mem_skipTo {var : Nat} {literals : List Literal} (after : var ≤ l.var)
    (ascending : literals.Pairwise (fun l m => l.var < m.var)) :
    l ∈ skipTo var literals ↔ l ∈ literals := by
  induction literals with
  | nil => rfl
  | cons m rest ih =>
      simp only [skipTo]
      split
      · rw [ih (List.pairwise_cons.1 ascending).2, List.mem_cons]
        exact ⟨.inr, fun member => member.resolve_left (by rintro rfl; omega)⟩
      · rfl

theorem ascending_skipTo (var : Nat) {literals : List Literal}
    (ascending : literals.Pairwise (fun l m => l.var < m.var)) :
    (skipTo var literals).Pairwise (fun l m => l.var < m.var) := by
  induction literals with
  | nil => exact .nil
  | cons m rest ih =>
      simp only [skipTo]
      split
      · exact ih (List.pairwise_cons.1 ascending).2
      · exact ascending

theorem le_of_mem_skipTo {var : Nat} {literals : List Literal}
    (ascending : literals.Pairwise (fun l m => l.var < m.var)) (member : l ∈ skipTo var literals) :
    var ≤ l.var := by
  induction literals with
  | nil => simp [skipTo] at member
  | cons m rest ih =>
      have ⟨head, tail⟩ := List.pairwise_cons.1 ascending
      simp only [skipTo] at member
      split at member
      · exact ih tail member
      · rcases List.mem_cons.1 member with rfl | member
        · omega
        · have := head l member
          omega

theorem head?_skipTo {literals : List Literal}
    (ascending : literals.Pairwise (fun l m => l.var < m.var)) :
    (skipTo l.var literals).head? = some l ↔ l ∈ literals := by
  rw [← mem_skipTo (Nat.le_refl _) ascending]
  cases skipped : skipTo l.var literals with
  | nil => simp
  | cons m rest =>
      have order := ascending_skipTo l.var ascending
      rw [skipped] at order
      have reached : l.var ≤ m.var := le_of_mem_skipTo ascending (by simp [skipped])
      simp only [List.head?_cons, Option.some.injEq, List.mem_cons]
      refine ⟨fun same => .inl same.symm, ?_⟩
      rintro (same | member)
      · exact same.symm
      · have := (List.pairwise_cons.1 order).1 l member
        omega

theorem allAmong_iff {literals others : List Literal}
    (ascending : literals.Pairwise (fun l m => l.var < m.var))
    (order : others.Pairwise (fun l m => l.var < m.var)) :
    allAmong literals others = true ↔ ∀ l ∈ literals, l ∈ others := by
  induction literals generalizing others with
  | nil => simp [allAmong]
  | cons l rest ih =>
      have ⟨head, tail⟩ := List.pairwise_cons.1 ascending
      have found := head?_skipTo (l := l) order
      have later : ∀ k ∈ rest, (k ∈ skipTo l.var others ↔ k ∈ others) := fun k member =>
        mem_skipTo (Nat.le_of_lt (head k member)) order
      have skippedOrder := ascending_skipTo l.var order
      simp only [allAmong, List.forall_mem_cons]
      cases skipped : skipTo l.var others with
      | nil =>
          have absent : l ∉ others := by simpa [skipped] using found
          simp [absent]
      | cons m others =>
          rw [skipped] at found later skippedOrder
          simp only [List.head?_cons, Option.some.injEq] at found
          simp only [Bool.and_eq_true, beq_iff_eq, found]
          refine and_congr_right fun member => ?_
          have same := found.2 member
          subst same
          rw [ih tail (List.pairwise_cons.1 skippedOrder).2]
          refine forall₂_congr fun k inRest => ?_
          rw [← later k inRest, List.mem_cons]
          have := head k inRest
          exact ⟨.inr, fun member => member.resolve_left (by rintro rfl; omega)⟩

@[simp] theorem allAmong_literals :
    allAmong c.literals d.literals = true ↔ ∀ l ∈ c.literals, l ∈ d.literals :=
  allAmong_iff c.ascending d.ascending

theorem missingFrom_eq {literals others : List Literal}
    (ascending : literals.Pairwise (fun l m => l.var < m.var))
    (order : others.Pairwise (fun l m => l.var < m.var)) :
    missingFrom literals others = literals.filter (· ∉ others) := by
  induction literals generalizing others with
  | nil => rfl
  | cons l rest ih =>
      have ⟨head, tail⟩ := List.pairwise_cons.1 ascending
      have found := head?_skipTo (l := l) order
      have later : rest.filter (· ∉ skipTo l.var others) = rest.filter (· ∉ others) :=
        List.filter_congr fun k member => by
          simp [mem_skipTo (Nat.le_of_lt (head k member)) order]
      simp only [missingFrom, ih tail (ascending_skipTo l.var order), later, List.filter_cons,
        beq_iff_eq, found]
      by_cases inside : l ∈ others <;> simp [inside]

theorem missing_eq (c d : Cube) : c.missing d = c.literals.filter (· ∉ d.literals) :=
  missingFrom_eq c.ascending d.ascending

@[simp] theorem mem_missing : l ∈ c.missing d ↔ l ∈ c.literals ∧ l ∉ d.literals := by
  simp [missing_eq]

theorem countMissing_eq {literals others : List Literal}
    (ascending : literals.Pairwise (fun l m => l.var < m.var))
    (order : others.Pairwise (fun l m => l.var < m.var)) :
    countMissing literals others = literals.countP (· ∉ others) := by
  induction literals generalizing others with
  | nil => simp [countMissing]
  | cons l rest ih =>
      have ⟨head, tail⟩ := List.pairwise_cons.1 ascending
      have found := head?_skipTo (l := l) order
      have later : rest.countP (· ∉ skipTo l.var others) = rest.countP (· ∉ others) :=
        List.countP_congr fun k member => by
          simp [mem_skipTo (Nat.le_of_lt (head k member)) order]
      simp only [countMissing, ih tail (ascending_skipTo l.var order), later, List.countP_cons,
        beq_iff_eq, found]
      by_cases inside : l ∈ others <;> simp [inside]

theorem distance_eq (c d : Cube) : c.distance d = c.literals.countP (· ∉ d.literals) :=
  countMissing_eq c.ascending d.ascending

theorem distance_eq_length_missing (c d : Cube) : c.distance d = (c.missing d).length := by
  rw [distance_eq, missing_eq, List.countP_eq_length_filter]

theorem nodup_missing (c d : Cube) : (c.missing d).Nodup := by
  rw [missing_eq]
  exact .filter _ (c.ascending.imp fun before same => by simp [same] at before)

theorem distance_erase (c d : Cube) (l : Literal) :
    (c.erase l).distance d = if l ∈ c.missing d then c.distance d - 1 else c.distance d := by
  have rest : (c.erase l).missing d = (c.missing d).erase l := by
    rw [(nodup_missing c d).erase_eq_filter, missing_eq, missing_eq, erase, List.filter_filter,
      List.filter_filter]
    exact List.filter_congr fun k _ => by simp [Bool.and_comm, bne, Bool.beq_eq_decide_eq]
  rw [distance_eq_length_missing, rest, List.length_erase, distance_eq_length_missing]

theorem fixes_iff {var : Nat} : c.fixes var = true ↔ ∃ l ∈ c.literals, l.var = var := by
  simp only [fixes, Option.isSome_iff_exists, polarityOf?_eq_some]
  constructor
  · rintro ⟨p, member⟩
    exact ⟨_, member, rfl⟩
  · rintro ⟨l, member, rfl⟩
    exact ⟨l.polarity, member⟩

theorem admits_iff : c.admits d = true ↔ ∀ l ∈ c.literals, l ∈ d.literals := by
  simp only [admits, covers, isUniversal, Bool.or_eq_true, Bool.and_eq_true, allAmong_literals,
    List.isEmpty_iff, Bool.not_eq_true']
  constructor
  · rintro (none | ⟨-, all⟩)
    · simp [none]
    · exact all
  · intro all
    cases empty : c.literals with
    | nil => simp
    | cons l rest => exact .inr ⟨rfl, by simpa [empty] using all⟩

/-- Without a literal a cube admits what lacks no other one. -/
theorem admits_erase_iff : (c.erase l).admits d = true ↔ ∀ k ∈ c.missing d, k = l := by
  simp only [admits_iff, erase, List.mem_filter, decide_eq_true_eq, mem_missing]
  constructor
  · intro others k lacking
    exact Decidable.byContradiction fun different => lacking.2 (others k ⟨lacking.1, different⟩)
  · intro only k kept
    exact Decidable.byContradiction fun absent => kept.2 (only k ⟨kept.1, absent⟩)

theorem length_place_of_free {literals : List Literal} (free : ∀ m ∈ literals, m.var ≠ l.var) :
    (place l literals).length = literals.length + 1 := by
  induction literals with
  | nil => rfl
  | cons m rest ih =>
      simp only [place]
      split
      · rfl
      · split
        · rename_i same
          exact absurd same.symm (free m (by simp))
        · simp [ih fun k member => free k (by simp [member])]

theorem size_insert_of_free (c : Cube) {l : Literal} (free : c.fixes l.var = false) :
    (c.insert l).size = c.size + 1 :=
  length_place_of_free fun m member same => by
    have := fixes_iff.2 ⟨m, member, same⟩
    simp [free] at this

theorem size_erase_of_mem (c : Cube) {l : Literal} (member : l ∈ c.literals) :
    (c.erase l).size < c.size :=
  List.length_filter_lt_length_iff_exists.2 ⟨l, member, by simp⟩

theorem var_lt_of_mem {n : Nat} (minterm : d.IsMinterm n) (member : l ∈ d.literals) :
    l.var < n := by
  obtain ⟨index, place⟩ := List.mem_iff_getElem?.1 member
  have := minterm.2 (l, index) (List.mem_zipIdx_iff_getElem?.2 place)
  have := (List.getElem?_eq_some_iff.1 place).1
  have := minterm.1
  simp only [size] at *
  omega

end TwoLevel.Cube
