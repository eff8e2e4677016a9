import TwoLevel.Cube.Lemmas
import TwoLevel.Cube.Set
import Mathlib.Data.List.Sort

/-!
Cubes as sets of literals and sums of products as sets of cubes. One cube admits another if its
literals are among those of the other; growing and shrinking a cube move it along this order, and a
cube that fixes all variables of a minterm that it admits is that minterm.
-/

namespace TwoLevel

namespace Cube

variable {a b c m : Cube} {k l : Literal} {n : Nat}

theorem not_lt_self (c : Cube) : ¬ compare c c = .lt := by
  simp [Std.ReflCmp.compare_self]

theorem nodup_literals (c : Cube) : c.literals.Nodup := by
  apply c.ascending.imp
  intro k l before same
  simp [same] at before

/-- Two cubes with the same literals are equal. -/
theorem eq_of_mem_iff (same : ∀ l, l ∈ a.literals ↔ l ∈ b.literals) : a = b :=
  eq_of_literals (a.ascending.eq_of_mem_iff b.ascending fun {l} => same l)

theorem admits_refl (c : Cube) : c.admits c = true :=
  admits_iff.2 fun _ member => member

theorem admits_trans (first : a.admits b = true) (second : b.admits c = true) :
    a.admits c = true :=
  admits_iff.2 fun l member => admits_iff.1 second l (admits_iff.1 first l member)

theorem universal_admits (c : Cube) : universal.admits c = true := rfl

theorem erase_admits (c : Cube) (l : Literal) : (c.erase l).admits c = true :=
  admits_iff.2 fun _ member => (List.mem_filter.1 member).1

theorem insert_admits (inside : c.admits m = true) (member : l ∈ m.literals) :
    (c.insert l).admits m = true := by
  apply admits_iff.2
  intro k inserted
  rcases mem_place_imp inserted with rfl | old
  · exact member
  · exact admits_iff.1 inside k old

theorem mem_place_of_free {literals : List Literal} (free : ∀ m ∈ literals, m.var ≠ l.var) :
    k ∈ place l literals ↔ k = l ∨ k ∈ literals := by
  induction literals with
  | nil => simp [place]
  | cons m rest ih =>
      have other : l.var ≠ m.var := (free m List.mem_cons_self).symm
      have later := ih fun k member => free k (List.mem_cons_of_mem m member)
      simp only [place, other, if_false]
      split
      · rw [List.mem_cons]
      · rw [List.mem_cons, later, List.mem_cons]
        tauto

theorem mem_insert_of_free (free : c.fixes l.var = false) :
    k ∈ (c.insert l).literals ↔ k = l ∨ k ∈ c.literals :=
  mem_place_of_free fun m member same => by
    have fixed := fixes_iff.2 ⟨m, member, same⟩
    simp [free] at fixed

theorem eq_of_var_eq (first : k ∈ c.literals) (second : l ∈ c.literals) (same : k.var = l.var) :
    k = l := by
  obtain ⟨var, p⟩ := k
  obtain ⟨_, q⟩ := l
  change var = _ at same
  subst same
  have polarity : some p = some q :=
    (polarityOf?_eq_some.2 first).symm.trans (polarityOf?_eq_some.2 second)
  rw [Option.some.inj polarity]

theorem exists_literal_of_lt (minterm : m.IsMinterm n) {var : Nat} (below : var < n) :
    ∃ l ∈ m.literals, l.var = var := by
  have inside : var < m.literals.length := by
    simpa [← minterm.1, size] using below
  refine ⟨m.literals[var], List.getElem_mem inside, ?_⟩
  exact minterm.2 (m.literals[var], var) (List.mem_zipIdx_iff_getElem?.2 (by simp [inside]))

theorem eq_of_admits_of_fixes (minterm : m.IsMinterm n) (inside : c.admits m = true)
    (fixed : ∀ var < n, c.fixes var = true) : c = m := by
  refine eq_of_mem_iff fun l => ⟨admits_iff.1 inside l, fun member => ?_⟩
  obtain ⟨k, own, same⟩ := fixes_iff.1 (fixed l.var (var_lt_of_mem minterm member))
  have shared : k = l := eq_of_var_eq (admits_iff.1 inside k own) member same
  exact shared ▸ own

theorem eq_of_admits (first : b.IsMinterm n) (second : m.IsMinterm n) (inside : b.admits m = true) :
    b = m :=
  eq_of_admits_of_fixes second inside fun _ below => fixes_iff.2 (exists_literal_of_lt first below)

end Cube

namespace CubeSet

variable {a b set : CubeSet} {c d m : Cube}

theorem mem_place {cubes : List Cube} : d ∈ place c cubes ↔ d = c ∨ d ∈ cubes := by
  refine ⟨mem_place_imp, fun member => ?_⟩
  induction cubes with
  | nil => simpa [place] using member
  | cons e rest ih =>
      simp only [place]
      cases order : compare c e with
      | lt => simpa using member
      | eq =>
          have same : c = e := Std.LawfulEqCmp.eq_of_compare order
          simpa [same] using member
      | gt =>
          rcases member with rfl | member
          · exact List.mem_cons_of_mem _ (ih (.inl rfl))
          · rcases List.mem_cons.1 member with rfl | later
            · exact List.mem_cons_self
            · exact List.mem_cons_of_mem _ (ih (.inr later))

theorem not_mem_empty (c : Cube) : c ∉ (∅ : CubeSet) := List.not_mem_nil

@[simp] theorem mem_insert : d ∈ set.insert c ↔ d = c ∨ d ∈ set := mem_place

@[simp] theorem mem_erase : d ∈ set.erase c ↔ d ∈ set ∧ d ≠ c := by
  change d ∈ set.cubes.filter (· ≠ c) ↔ _
  rw [List.mem_filter, decide_eq_true_eq]
  rfl

theorem mem_foldl_insert {cubes : List Cube} :
    c ∈ cubes.foldl insert set ↔ c ∈ cubes ∨ c ∈ set := by
  induction cubes generalizing set with
  | nil => simp
  | cons d rest ih =>
      rw [List.foldl_cons, ih, mem_insert, List.mem_cons]
      tauto

@[simp] theorem mem_ofList {cubes : List Cube} : c ∈ ofList cubes ↔ c ∈ cubes := by
  rw [ofList, mem_foldl_insert]
  exact or_iff_left (not_mem_empty c)

theorem mem_merge {cubes others : List Cube} : c ∈ merge cubes others ↔ c ∈ cubes ∨ c ∈ others := by
  refine ⟨mem_merge_imp, fun member => ?_⟩
  induction cubes generalizing others with
  | nil => exact member.resolve_left List.not_mem_nil
  | cons d rest ih =>
      simp only [merge, List.mem_append, List.mem_cons]
      rcases member with member | member
      · rcases List.mem_cons.1 member with rfl | later
        · exact .inr (.inl rfl)
        · exact .inr (.inr (ih (.inl later)))
      -- a cube of the second list is before `d`, or `d` itself, or among those still to be merged
      · rw [← List.takeWhile_append_dropWhile (p := fun e => compare e d == .lt) (l := others),
          List.mem_append] at member
        rcases member with before | after
        · exact .inl before
        · by_cases same : c = d
          · exact .inr (.inl same)
          · refine .inr (.inr (ih (.inr ?_)))
            rw [← List.takeWhile_append_dropWhile (p := (· == d))
              (l := others.dropWhile fun e => compare e d == .lt), List.mem_append] at after
            refine after.resolve_left fun equal => same ?_
            simpa using List.all_eq_true.1 List.all_takeWhile c equal

@[simp] theorem mem_union : c ∈ a ∪ b ↔ c ∈ a ∨ c ∈ b := mem_merge

/-- Two sets with the same members are equal. -/
theorem ext (same : ∀ c, c ∈ a ↔ c ∈ b) : a = b := by
  have : Std.Irrefl fun c d : Cube => compare c d = .lt := ⟨Cube.not_lt_self⟩
  have : Std.Asymm fun c d : Cube => compare c d = .lt :=
    ⟨fun c _ before after => c.not_lt_self (Std.TransCmp.lt_trans before after)⟩
  have cubes : a.cubes = b.cubes := a.ascending.eq_of_mem_iff b.ascending fun {c} => same c
  cases a
  cases b
  cases cubes
  rfl

theorem ofList_cubes (set : CubeSet) : ofList set.cubes = set := ext fun _ => mem_ofList

theorem nodup_cubes (set : CubeSet) : set.cubes.Nodup := by
  apply set.ascending.imp
  rintro c _ before rfl
  exact c.not_lt_self before

theorem size_le_of_subset (inside : a ⊆ b) : a.size ≤ b.size :=
  (List.subperm_of_subset a.nodup_cubes inside).length_le

theorem size_insert (absent : c ∉ set) : (set.insert c).size = set.size + 1 := by
  suffices grows : ∀ cubes : List Cube, c ∉ cubes → (place c cubes).length = cubes.length + 1 from
    grows set.cubes absent
  intro cubes absent
  induction cubes with
  | nil => rfl
  | cons d rest ih =>
      have different : c ≠ d := List.ne_of_not_mem_cons absent
      have later : c ∉ rest := List.not_mem_of_not_mem_cons absent
      simp only [place]
      cases order : compare c d with
      | lt => rfl
      | eq => exact absurd (Std.LawfulEqCmp.eq_of_compare order) different
      | gt => rw [List.length_cons, ih later, List.length_cons]

theorem size_insert_le (set : CubeSet) (c : Cube) : (set.insert c).size ≤ set.size + 1 := by
  by_cases member : c ∈ set
  · have same : set.insert c = set := ext fun d => by
      rw [mem_insert]
      exact or_iff_right_of_imp fun equal => equal ▸ member
    rw [same]
    exact Nat.le_succ _
  · exact Nat.le_of_eq (size_insert member)

theorem size_ofList_le (cubes : List Cube) : (ofList cubes).size ≤ cubes.length := by
  suffices grows : ∀ set : CubeSet, (cubes.foldl insert set).size ≤ set.size + cubes.length by
    have size := grows ∅
    rwa [show (∅ : CubeSet).size = 0 from rfl, Nat.zero_add] at size
  induction cubes with
  | nil => exact fun set => Nat.le_refl _
  | cons c rest ih =>
      intro set
      have one := set.size_insert_le c
      have others := ih (set.insert c)
      rw [List.foldl_cons, List.length_cons]
      omega

theorem size_ofList {cubes : List Cube} (distinct : cubes.Nodup) :
    (ofList cubes).size = cubes.length := by
  suffices grows : ∀ set : CubeSet, (∀ c ∈ cubes, c ∉ set) →
      (cubes.foldl insert set).size = set.size + cubes.length by
    have size := grows ∅ fun c _ => not_mem_empty c
    rwa [show (∅ : CubeSet).size = 0 from rfl, Nat.zero_add] at size
  induction cubes with
  | nil => exact fun set _ => rfl
  | cons c rest ih =>
      intro set absent
      obtain ⟨fresh, distinct⟩ := List.nodup_cons.1 distinct
      have left : ∀ d ∈ rest, d ∉ set.insert c := by
        intro d member inside
        rcases mem_insert.1 inside with rfl | old
        · exact fresh member
        · exact absent d (List.mem_cons_of_mem c member) old
      rw [List.foldl_cons, ih distinct (set.insert c) left, size_insert (absent c (by simp)),
        List.length_cons]
      omega

/-- The first cube of a set with a property is the least one that has it. -/
theorem find?_eq_some {p : Cube → Bool} : set.cubes.find? p = some c ↔
    c ∈ set ∧ p c = true ∧ ∀ d ∈ set, compare d c = .lt → p d = false := by
  constructor
  · intro first
    obtain ⟨holds, before, after, split, none_before⟩ := List.find?_eq_some_iff_append.1 first
    refine ⟨List.mem_of_find?_eq_some first, holds, fun d member smaller => ?_⟩
    have ascending := set.ascending
    rw [split] at ascending
    change d ∈ set.cubes at member
    rw [split, List.mem_append, List.mem_cons] at member
    rcases member with early | rfl | late
    · simpa using none_before d early
    · exact absurd smaller d.not_lt_self
    · have larger := List.rel_of_pairwise_cons (List.pairwise_append.1 ascending).2.1 late
      exact absurd (Std.TransCmp.lt_trans smaller larger) d.not_lt_self
  · intro least
    obtain ⟨member, holds, none_before⟩ := least
    obtain ⟨before, after, split⟩ := List.append_of_mem member
    refine List.find?_eq_some_iff_append.2 ⟨holds, before, after, split, fun d early => ?_⟩
    have ascending := set.ascending
    rw [split] at ascending
    have smaller := (List.pairwise_append.1 ascending).2.2 d early c List.mem_cons_self
    have among : d ∈ set.cubes := split ▸ List.mem_append_left _ early
    simpa using none_before d among smaller

theorem admits_iff : set.admits m = true ↔ ∃ c ∈ set, c.admits m = true := List.any_eq_true

theorem admits_mono (inside : a ⊆ b) (holds : a.admits m = true) : b.admits m = true := by
  obtain ⟨c, member, own⟩ := admits_iff.1 holds
  exact admits_iff.2 ⟨c, inside c member, own⟩

end CubeSet

end TwoLevel
