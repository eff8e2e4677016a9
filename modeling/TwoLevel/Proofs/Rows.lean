import TwoLevel.Rows.Lemmas
import TwoLevel.Proofs.Cubes

/-!
Rows as lists of minterms: which cubes meet them, which of them are different, and when two tables
have a row in common. What is left after an implicant is what it does not cover, but the universal
cube, which covers nothing, leaves nothing either.
-/

namespace TwoLevel

theorem lookup_eq_some_iff_mem {α β : Type} [BEq α] [LawfulBEq α] {entries : List (α × β)}
    (distinct : entries.Pairwise fun a b => a.1 ≠ b.1) {key : α} {value : β} :
    entries.lookup key = some value ↔ (key, value) ∈ entries := by
  rw [List.lookup_eq_some_iff]
  constructor
  · rintro ⟨before, after, rfl, -⟩
    simp
  · intro member
    obtain ⟨before, after, rfl⟩ := List.append_of_mem member
    refine ⟨before, after, rfl, fun entry earlier => ?_⟩
    have other := (List.pairwise_append.1 distinct).2.2 entry earlier (key, value) (by simp)
    simpa [bne_iff_ne] using other.symm

theorem find?_eraseDups {α : Type} [BEq α] [LawfulBEq α] (p : α → Bool) :
    ∀ l : List α, l.eraseDups.find? p = l.find? p
  | [] => rfl
  | a :: rest => by
      have shorter : (rest.filter fun b => !b == a).length < rest.length + 1 :=
        Nat.lt_succ_of_le (List.length_filter_le _ _)
      rw [List.eraseDups_cons, List.find?_cons, List.find?_cons,
        find?_eraseDups p (rest.filter fun b => !b == a), List.find?_filter]
      cases holds : p a with
      | true => rfl
      | false =>
          change rest.find? _ = rest.find? p
          congr 1
          funext b
          by_cases same : b = a
          · simp [same, holds]
          · simp [same]
termination_by l => l.length

theorem nodup_eraseDups {α : Type} [BEq α] [LawfulBEq α] : ∀ l : List α, l.eraseDups.Nodup
  | [] => .nil
  | a :: rest => by
      have shorter : (rest.filter fun b => !b == a).length < rest.length + 1 :=
        Nat.lt_succ_of_le (List.length_filter_le _ _)
      rw [List.eraseDups_cons, List.nodup_cons]
      refine ⟨fun member => ?_, nodup_eraseDups (rest.filter fun b => !b == a)⟩
      simp at member
termination_by l => l.length

namespace Rows

variable {rows other onset offset : Rows} {c d m : Cube}

theorem eq_of_minterms (arity : rows.arity = other.arity)
    (minterms : rows.minterms = other.minterms) : rows = other := by
  cases rows
  cases other
  simp_all

theorem meets_eq_false_iff : rows.meets c = false ↔ ∀ m ∈ rows.minterms, c.admits m = false := by
  simp [meets]

theorem filter_not_admits (rows : Rows) (c : Cube) :
    rows.filter (!c.admits ·) = if c.isUniversal then empty rows.arity else rows.uncoveredBy c := by
  cases proper : c.isUniversal with
  | true => simp [filter, empty, Cube.admits, proper]
  | false => simp [uncoveredBy, filter, Cube.admits, proper]

theorem distinctOnto_eq (seen : Std.HashSet Cube) (kept : Array Cube) (cubes : List Cube) :
    (distinctOnto seen kept cubes).toList =
      kept.toList ++ (cubes.filter fun c => !seen.contains c).eraseDups := by
  induction cubes generalizing seen kept with
  | nil => simp [distinctOnto]
  | cons m rest ih =>
      change (distinctOnto (seen.containsThenInsert m).2
        (if (seen.containsThenInsert m).1 then kept else kept.push m) rest).toList = _
      rw [Std.HashSet.containsThenInsert_fst, Std.HashSet.containsThenInsert_snd, ih]
      have known (c : Cube) : (!(seen.insert m).contains c) = (!c == m && !seen.contains c) := by
        rw [Std.HashSet.contains_insert, Bool.not_or, Bool.beq_comm]
      cases old : seen.contains m with
      | true =>
          have same : rest.filter (fun c => !(seen.insert m).contains c) =
              rest.filter fun c => !seen.contains c :=
            List.filter_congr fun c _ => by
              rw [known]
              by_cases equal : c = m <;> simp [equal, old]
          rw [same, List.filter_cons_of_neg (by simp [old]), if_pos rfl]
      | false =>
          have fresh : rest.filter (fun c => !(seen.insert m).contains c) =
              (rest.filter fun c => !seen.contains c).filter fun c => !c == m := by
            rw [List.filter_filter]
            exact List.filter_congr fun c _ => known c
          rw [fresh, List.filter_cons_of_pos (by simp [old]), List.eraseDups_cons]
          simp

theorem distinct_eq (rows : Rows) : rows.distinct = rows.minterms.eraseDups := by
  rw [distinct, distinctOnto_eq]
  simp

@[simp] theorem mem_distinct : m ∈ rows.distinct ↔ m ∈ rows.minterms := by
  rw [distinct_eq, List.mem_eraseDups]

theorem nodup_distinct (rows : Rows) : rows.distinct.Nodup := by
  rw [distinct_eq]
  exact nodup_eraseDups rows.minterms

theorem firstShared?_eq (rows other : Rows) :
    rows.firstShared? other = rows.minterms.find? (· ∈ other.minterms) := by
  simp only [firstShared?, Std.HashSet.contains_ofList]
  congr 1
  funext m
  simp

end Rows

end TwoLevel
