import TwoLevel.Proofs.Frequency

/-!
The counts of literals as a map from literals to numbers of rows. The cubes that grow from the
universal one by counted literals hold a row at each step, and they run out of literals exactly when
they have become a row.
-/

namespace TwoLevel

variable {rows : Rows} {c m : Cube} {l : Literal} {var n : Nat}

theorem Cube.IsMinterm.contains_normal (minterm : m.IsMinterm n) (below : var < n) :
    m.contains (.normal var) = !m.contains (.complement var) := by
  obtain ⟨l, inside, rfl⟩ := exists_literal_of_lt minterm below
  obtain ⟨var, polarity⟩ := l
  have alone (p : Polarity) : m.contains ⟨var, p⟩ = decide (polarity = p) := by
    rw [Bool.eq_iff_iff, contains_iff, decide_eq_true_eq]
    constructor
    · intro member
      exact congrArg Literal.polarity (eq_of_var_eq inside member rfl)
    · intro same
      exact same ▸ inside
  rw [Literal.normal, Literal.complement, alone, alone]
  cases polarity <;> rfl

namespace Scoring

theorem counts_ascending (c : Cube) (rows : Rows) :
    (counts c rows).Pairwise fun a b => a.1.rank < b.1.rank := by
  rw [counts_eq]
  apply List.Pairwise.filter
  rw [List.pairwise_flatMap]
  constructor
  · intro var _
    simp [Literal.rank, Literal.complement, Literal.normal, Polarity.value]
  · have ascending : ((List.range rows.arity).filter (!c.fixes ·)).Pairwise (· < ·) :=
      List.pairwise_lt_range.filter _
    refine ascending.imp fun less a first b second => ?_
    have near (var : Nat) (entry : Literal × Nat) (listed : entry ∈
        [(Literal.complement var, frequencyOf c rows (.complement var)),
          (Literal.normal var, frequencyOf c rows (.normal var))]) :
        2 * var ≤ entry.1.rank ∧ entry.1.rank ≤ 2 * var + 1 := by
      rcases List.mem_cons.1 listed with rfl | listed
      · simp [Literal.rank, Literal.complement, Polarity.value]
      · rw [List.mem_singleton.1 listed]
        simp [Literal.rank, Literal.normal, Polarity.value]
    have := near _ a first
    have := near _ b second
    omega

theorem lookup_counts {count : Nat} : (counts c rows).lookup l = some count ↔
    c.fixes l.var = false ∧ 0 < count ∧ count = frequencyOf c rows l := by
  rw [lookup_eq_some_iff_mem, mem_counts]
  refine (counts_ascending c rows).imp fun less same => ?_
  rw [same] at less
  exact Nat.lt_irrefl _ less

theorem getD_lookup_counts (free : c.fixes l.var = false) :
    ((counts c rows).lookup l).getD 0 = frequencyOf c rows l := by
  rcases Nat.eq_zero_or_pos (frequencyOf c rows l) with none | some
  · cases found : (counts c rows).lookup l with
    | none => exact none.symm
    | some count => exact (lookup_counts.1 found).2.2
  · rw [lookup_counts.2 ⟨free, some, rfl⟩, Option.getD_some]

/-- Each row within a cube takes one side of a variable. -/
theorem frequencyOf_sides (c : Cube) (below : var < rows.arity) :
    frequencyOf c rows (.complement var) + frequencyOf c rows (.normal var) =
      (rows.within c).length := by
  rw [List.length_eq_countP_add_countP (·.contains (.complement var)), frequencyOf, frequencyOf]
  congr 1
  apply List.countP_congr
  intro m member
  have row := rows.complete m (Rows.mem_within.1 member).1
  rw [row.contains_normal below, Bool.not_eq_true', decide_eq_true_eq, Bool.not_eq_true]

/-- The cubes that grow from the universal one by literals that are counted. -/
inductive Reaches (rows : Rows) : Cube → Prop
  | universal : Reaches rows .universal
  | insert {c l count} (earlier : Reaches rows c) (counted : (l, count) ∈ counts c rows) :
      Reaches rows (c.insert l)

theorem Reaches.admits (reaches : Reaches rows c) (remains : rows.minterms ≠ []) :
    ∃ m ∈ rows.minterms, c.admits m = true := by
  cases reaches with
  | universal =>
      obtain ⟨m, member⟩ := List.exists_mem_of_ne_nil _ remains
      exact ⟨m, member, m.universal_admits⟩
  | insert _ counted => exact insert_admits_of_mem_counts counted

theorem counts_of_minterm (minterm : c.IsMinterm rows.arity) : counts c rows = [] := by
  rw [List.eq_nil_iff_forall_not_mem]
  rintro ⟨l, count⟩ counted
  obtain ⟨free, positive, rfl⟩ := mem_counts.1 counted
  obtain ⟨m, row, -, inside⟩ := frequencyOf_pos.1 positive
  have below := Cube.var_lt_of_mem (rows.complete m row) inside
  have fixed : c.fixes l.var = true := Cube.fixes_iff.2 (Cube.exists_literal_of_lt minterm below)
  rw [free] at fixed
  cases fixed

/-- The counts for a cube, as a map. -/
structure Counted (rows : Rows) (c : Cube) : Prop where
  ascending : (counts c rows).Pairwise fun a b => a.1.rank < b.1.rank
  lookup : ∀ l count, (counts c rows).lookup l = some count ↔
    c.fixes l.var = false ∧ 0 < count ∧
      rows.minterms.countP (fun m => c.admits m && m.contains l) = count
  sides : ∀ var < rows.arity, c.fixes var = false →
    ((counts c rows).lookup (.complement var)).getD 0 +
      ((counts c rows).lookup (.normal var)).getD 0 = rows.minterms.countP c.admits
  grows : ∀ l count, (counts c rows).lookup l = some count →
    0 < rows.minterms.countP (c.insert l).admits

theorem counted (rows : Rows) (c : Cube) : Counted rows c where
  ascending := counts_ascending c rows
  lookup l count := by
    have within : frequencyOf c rows l =
        rows.minterms.countP (fun m => c.admits m && m.contains l) := by
      rw [frequencyOf, Rows.within, List.countP_filter]
      simp only [Bool.and_comm]
    rw [lookup_counts, within]
    tauto
  sides var below free := by
    rw [getD_lookup_counts free, getD_lookup_counts free, frequencyOf_sides c below, Rows.within,
      List.countP_eq_length_filter]
  grows l count found := by
    obtain ⟨m, row, holds⟩ := insert_admits_of_mem_counts (mem_counts.2 (lookup_counts.1 found))
    exact List.countP_pos_iff.2 ⟨m, row, holds⟩

/-- A literal is counted if its variable is free and some row within the cube has it, and its count
is the number of these rows. The two sides of a free variable share the rows within the cube. So a
cube that grows by counted literals always holds a row, and nothing is left to count exactly when
it is one of the rows. -/
theorem counts_law (rows : Rows) : (∀ c, Counted rows c) ∧
    (rows.minterms ≠ [] → ∀ c, Reaches rows c →
      (counts c rows = [] ↔ c.IsMinterm rows.arity ∧ c ∈ rows.minterms)) := by
  refine ⟨counted rows, fun remains c reaches => ⟨fun done => ?_, fun row => ?_⟩⟩
  · obtain ⟨m, row, holds⟩ := reaches.admits remains
    rcases eq_or_counts_ne_nil row holds with rfl | more
    · exact ⟨rows.complete c row, row⟩
    · exact absurd done more
  · exact counts_of_minterm row.1

/-- A row given twice and another one with the same first literal: after both literals of the
repeated row have been added, nothing is left to count. -/
theorem counts_law_repeated :
    let rows : Rows :=
      ⟨2, [.ofBits [true, true], .ofBits [true, false], .ofBits [true, true]], by decide⟩
    let c := (Cube.universal.insert (.normal 0)).insert (.normal 1)
    rows.minterms ≠ [] ∧ Reaches rows c ∧ counts c rows = [] ∧
      (counts .universal rows).lookup (.normal 0) = some 3 := by
  intro rows c
  have remains : rows.minterms ≠ [] := List.cons_ne_nil _ _
  have reaches : Reaches rows c :=
    @Reaches.insert rows _ _ 2 (@Reaches.insert rows _ _ 3 .universal (by decide)) (by decide)
  have ended := (counts_law rows).2 remains c reaches
  exact ⟨remains, reaches, ended.2 (by decide),
    (((counts_law rows).1 .universal).lookup _ _).2 (by decide)⟩

end Scoring

end TwoLevel
