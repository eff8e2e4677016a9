import TwoLevel.Selection
import Mathlib.Order.Lattice

/-!
When a choice is made. Among some candidates a draw always names one of them, a list of scores has
leaders unless it is empty, and so a best candidate is missing exactly if no score is finite.
-/

namespace TwoLevel

variable {α σ : Type} {scored : List (α × σ)} {source next : Source}

namespace Source

theorem indexOf_lt {r : Nat} (positive : 0 < r) (word : UInt32) : indexOf r word < r := by
  unfold indexOf
  rw [Nat.div_lt_iff_lt_mul (by decide), Nat.mul_comm]
  exact Nat.mul_lt_mul_of_pos_left word.toNat_lt_size positive

theorem below_lt {r : Nat} (positive : 0 < r) (source : Source) (patience : Nat) :
    (below r source patience).1 < r := by
  induction patience generalizing source with
  | zero => exact indexOf_lt positive source.peek
  | succ patience ih =>
      simp only [below]
      split
      · exact indexOf_lt positive source.peek
      · exact ih (source.skip 1)

theorem choose?_eq_none {candidates : List α} :
    (source.choose? candidates).1 = none ↔ candidates = [] := by
  unfold choose?
  cases candidates with
  | nil => simp
  | cons a rest =>
      have inside := below_lt (Nat.succ_pos rest.length) source patience
      rw [if_neg (by simp)]
      simpa using inside

end Source

theorem topScore?_attained [LT σ] [DecidableLT σ] {top : σ} (found : topScore? scored = some top) :
    ∃ a, (a, top) ∈ scored := by
  cases scored with
  | nil => simp [topScore?] at found
  | cons first rest =>
      simp only [topScore?, Option.some.injEq] at found
      suffices attained : ∀ start, rest.foldl
          (fun top entry => if top < entry.2 then entry.2 else top) start = top →
          start = top ∨ ∃ a, (a, top) ∈ rest by
        rcases attained first.2 found with same | ⟨a, member⟩
        · exact ⟨first.1, by simp [← same]⟩
        · exact ⟨a, List.mem_cons_of_mem _ member⟩
      clear found
      induction rest with
      | nil => exact fun start same => .inl same
      | cons entry rest ih =>
          intro start same
          rcases ih _ same with reached | ⟨a, member⟩
          · dsimp only at reached
            split at reached
            · exact .inr ⟨entry.1, by simp [← reached]⟩
            · exact .inl reached
          · exact .inr ⟨a, List.mem_cons_of_mem _ member⟩

theorem leaders_eq_nil [LT σ] [DecidableLT σ] (irrefl : ∀ x : σ, ¬ x < x) :
    leaders scored = [] ↔ scored = [] := by
  refine ⟨fun none => ?_, fun none => by simp [none, leaders, topScore?]⟩
  cases found : topScore? scored with
  | none =>
      cases scored with
      | nil => rfl
      | cons first rest => simp [topScore?] at found
  | some top =>
      obtain ⟨a, member⟩ := topScore?_attained found
      have leads : a ∈ leaders scored := by
        simp only [leaders, found]
        exact List.mem_map.2 ⟨(a, top), List.mem_filter.2 ⟨member, by simp [irrefl]⟩, rfl⟩
      simp [none] at leads

section

variable {κ : Type} [LinearOrder κ]

theorem le_foldl_top (entries : List (α × κ)) (start : κ) :
    start ≤ entries.foldl (fun top entry => if top < entry.2 then entry.2 else top) start ∧
      ∀ entry ∈ entries,
        entry.2 ≤ entries.foldl (fun top entry => if top < entry.2 then entry.2 else top) start := by
  induction entries generalizing start with
  | nil => simp
  | cons first rest ih =>
      obtain ⟨above, all⟩ := ih (if start < first.2 then first.2 else start)
      rw [List.foldl_cons]
      have both : start ≤ (if start < first.2 then first.2 else start) ∧
          first.2 ≤ (if start < first.2 then first.2 else start) := by
        split
        · rename_i less
          exact ⟨less.le, le_rfl⟩
        · rename_i above
          exact ⟨le_rfl, not_lt.1 above⟩
      exact ⟨both.1.trans above, List.forall_mem_cons.2 ⟨both.2.trans above, all⟩⟩

theorem le_topScore? {scored : List (α × κ)} {top : κ} (found : topScore? scored = some top) :
    ∀ entry ∈ scored, entry.2 ≤ top := by
  cases scored with
  | nil => exact List.forall_mem_nil _
  | cons first rest =>
      obtain ⟨above, all⟩ := le_foldl_top rest first.2
      rw [← Option.some.inj found]
      exact List.forall_mem_cons.2 ⟨above, all⟩

theorem leaders_greatest {scored : List (α × κ)} {a : α} (leads : a ∈ leaders scored) :
    ∃ score, (a, score) ∈ scored ∧ ∀ entry ∈ scored, entry.2 ≤ score := by
  unfold leaders at leads
  split at leads
  · cases leads
  · rename_i top found
    obtain ⟨⟨b, score⟩, kept, rfl⟩ := List.mem_map.1 leads
    obtain ⟨listed, greatest⟩ := List.mem_filter.1 kept
    have greatest : top ≤ score := by simpa using greatest
    exact ⟨score, listed, fun entry member => (le_topScore? found entry member).trans greatest⟩

/-- The leaders in the order in which they were scored. -/
theorem leaders_eq (scored : List (α × κ)) : leaders scored =
    (scored.filter fun entry => ∀ other ∈ scored, ¬ entry.2 < other.2).map (·.1) := by
  cases found : topScore? scored with
  | none =>
      cases scored with
      | nil => rfl
      | cons first rest => cases found
  | some top =>
      obtain ⟨a, attained⟩ := topScore?_attained found
      simp only [leaders, found]
      refine congrArg (List.map _) (List.filter_congr fun entry _ => ?_)
      rw [← decide_not, decide_eq_decide]
      constructor
      · intro most other member
        exact not_lt.2 ((le_topScore? found other member).trans (not_lt.1 most))
      · exact fun unbeaten => unbeaten (a, top) attained

end

section

variable {τ : Type} [LT σ] [DecidableLT σ] [LT τ] [DecidableLT τ] {f : σ → τ} {P : σ → Prop}

theorem topScore?_map (increasing : ∀ x y, P x → P y → (f x < f y ↔ x < y))
    (all : ∀ entry ∈ scored, P entry.2) :
    topScore? (scored.map fun entry => (entry.1, f entry.2)) = (topScore? scored).map f := by
  cases scored with
  | nil => rfl
  | cons first rest =>
      obtain ⟨holds, others⟩ := List.forall_mem_cons.1 all
      simp only [topScore?, List.map_cons, Option.map_some, Option.some.injEq]
      suffices same : ∀ start, P start →
          (rest.map fun entry => (entry.1, f entry.2)).foldl
              (fun top entry => if top < entry.2 then entry.2 else top) (f start) =
            f (rest.foldl (fun top entry => if top < entry.2 then entry.2 else top) start) from
        same first.2 holds
      clear all holds
      induction rest with
      | nil => exact fun start _ => rfl
      | cons entry rest ih =>
          intro start holds
          obtain ⟨here, later⟩ := List.forall_mem_cons.1 others
          simp only [List.map_cons, List.foldl_cons, increasing start entry.2 holds here]
          split
          · exact ih later entry.2 here
          · exact ih later start holds

/-- The leaders do not change when the scores are replaced without a change of their order. -/
theorem leaders_map (increasing : ∀ x y, P x → P y → (f x < f y ↔ x < y))
    (all : ∀ entry ∈ scored, P entry.2) :
    leaders (scored.map fun entry => (entry.1, f entry.2)) = leaders scored := by
  simp only [leaders, topScore?_map increasing all]
  cases found : topScore? scored with
  | none => rfl
  | some top =>
      obtain ⟨a, member⟩ := topScore?_attained found
      have attained : P top := all (a, top) member
      simp only [Option.map_some, List.filter_map, List.map_map]
      refine congrArg (List.map _) (List.filter_congr fun entry listed => ?_)
      simp [increasing entry.2 top (all entry listed) attained]

end

theorem not_lt_self (x : Float) : ¬ x < x := by
  suffices never : x.toModel.unpack.lt x.toModel.unpack = false by
    intro before
    have holds : x.toModel.unpack.lt x.toModel.unpack = true := of_decide_eq_true before
    simp [never] at holds
  unfold Float.Model.UnpackedFloat.lt
  cases x.toModel.unpack with
  | notANumber => decide
  | infinity sign => cases sign <;> decide
  | zero sign => cases sign <;> decide
  | finite sign mantissa exponent positive =>
      have mantissas : compare mantissa mantissa = .eq := Std.ReflCmp.compare_self
      have exponents : compare exponent exponent = .eq := Std.ReflCmp.compare_self
      unfold Float.Model.UnpackedFloat.compare
      cases sign with
      | negative =>
          dsimp only
          rw [exponents, mantissas]
          rfl
      | positive =>
          dsimp only
          rw [exponents, mantissas]
          rfl

theorem selectBest_eq_none {scored : List (α × Float)} :
    (selectBest scored source).1 = none ↔ ∀ entry ∈ scored, entry.2.isFinite = false := by
  unfold selectBest
  rw [Source.choose?_eq_none, leaders_eq_nil not_lt_self, eligible, List.filter_eq_nil_iff]
  simp

theorem selectBest_of_finite {scored : List (α × Float)} (some_scored : scored ≠ [])
    (finite : ∀ entry ∈ scored, entry.2.isFinite = true) (source : Source) :
    ∃ a next, selectBest scored source = (some a, next) ∧ ∃ score, (a, score) ∈ scored := by
  cases chosen : selectBest scored source with
  | mk choice next =>
      cases choice with
      | some a => exact ⟨a, next, rfl, mem_of_selectBest chosen⟩
      | none =>
          obtain ⟨entry, member⟩ := List.exists_mem_of_ne_nil scored some_scored
          have infinite := selectBest_eq_none.1 (congrArg Prod.fst chosen) entry member
          simp [finite entry member] at infinite

end TwoLevel
