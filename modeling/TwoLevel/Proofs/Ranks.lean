import Mathlib.Algebra.Order.Floor.Semifield
import Mathlib.Data.List.Sort
import Mathlib.Data.Rat.Floor
import TwoLevel.Graph.CoOccurrence
import TwoLevel.Proofs.DoubleOrder
import TwoLevel.Proofs.Scaling

/-!
The value at the cut. Selection around pivots finds what stands at a place of the descending list,
and the place is a quarter of the last one as long as the number of values is a double.
-/

namespace TwoLevel

variable {W : Type} [LinearOrder W] {values : List W} {place : Nat}

/-- The greatest values first. -/
def descending (values : List W) : List W := values.mergeSort fun a b => b ≤ a

theorem descending_perm (values : List W) : (descending values).Perm values :=
  List.mergeSort_perm values _

theorem pairwise_descending (values : List W) : (descending values).Pairwise (· ≥ ·) := by
  have sorted : (descending values).Pairwise fun a b => decide (b ≤ a) = true := by
    refine List.pairwise_mergeSort (fun a b c first second => ?_) (fun a b => ?_) values
    · rw [decide_eq_true_eq] at *
      exact second.trans first
    · rw [Bool.or_eq_true, decide_eq_true_eq, decide_eq_true_eq]
      exact le_total b a
  exact sorted.imp fun less => of_decide_eq_true less

theorem length_descending (values : List W) : (descending values).length = values.length :=
  (descending_perm values).length_eq

/-- A list is in descending order in one way only. -/
theorem descending_eq {sorted : List W} (perm : sorted.Perm values)
    (pairwise : sorted.Pairwise (· ≥ ·)) : descending values = sorted :=
  ((descending_perm values).trans perm.symm).eq_of_pairwise
    (fun _ _ _ _ first second => le_antisymm second first) (pairwise_descending values) pairwise

theorem descending_congr {other : List W} (perm : values.Perm other) :
    descending values = descending other :=
  descending_eq ((descending_perm other).trans perm.symm) (pairwise_descending other)

/-- At most as many values as stand before a place exceed the one that stands there. -/
theorem countP_le_of_getElem? {threshold : W}
    (found : (descending values)[place]? = some threshold) :
    values.countP (threshold < ·) ≤ place := by
  obtain ⟨inside, same⟩ := List.getElem?_eq_some_iff.1 found
  have later : ((descending values).drop place).countP (threshold < ·) = 0 := by
    have ordered := (pairwise_descending values).drop (i := place)
    rw [List.drop_eq_getElem_cons inside, same] at ordered ⊢
    rw [List.countP_eq_zero]
    intro value member
    rcases List.mem_cons.1 member with rfl | member
    · simp
    · simpa using (List.pairwise_cons.1 ordered).1 value member
  have early : ((descending values).take place).countP (threshold < ·) ≤ place :=
    List.countP_le_length.trans (List.length_take_le _ _)
  calc values.countP (threshold < ·) = (descending values).countP (threshold < ·) :=
        ((descending_perm values).countP_eq _).symm
    _ = ((descending values).take place).countP (threshold < ·) +
          ((descending values).drop place).countP (threshold < ·) := by
        rw [← List.countP_append, List.take_append_drop]
    _ ≤ place := by rw [later]; exact early

/-- The values greater than a pivot, those equal to it and those less. -/
theorem split_perm (pivot : W) (values : List W) :
    (values.filter (pivot < ·) ++ (values.filter (· = pivot) ++ values.filter (· < pivot))).Perm
      values := by
  have rest : (values.filter (· = pivot) ++ values.filter (· < pivot)).Perm
      (values.filter fun a => !decide (pivot < a)) := by
    have halves := List.filter_append_perm (· = pivot) (values.filter fun a => !decide (pivot < a))
    rw [List.filter_filter, List.filter_filter] at halves
    refine (List.Perm.of_eq ?_).trans halves
    congr 1 <;> apply List.filter_congr <;> intro a _ <;> rw [Bool.eq_iff_iff] <;>
      simp only [Bool.and_eq_true, Bool.not_eq_true', decide_eq_true_eq, decide_eq_false_iff_not,
        not_lt]
    · exact ⟨fun same => ⟨same, same.le⟩, And.left⟩
    · exact ⟨fun less => ⟨less.ne, less.le⟩, fun low => lt_of_le_of_ne low.2 low.1⟩
  exact (rest.append_left _).trans (List.filter_append_perm _ _)

theorem descending_cons (pivot : W) (rest : List W) :
    descending (pivot :: rest) = descending (rest.filter (pivot < ·)) ++
      (List.replicate ((pivot :: rest).filter (· = pivot)).length pivot ++
        descending (rest.filter (· < pivot))) := by
  have equal : (pivot :: rest).filter (· = pivot) =
      List.replicate ((pivot :: rest).filter (· = pivot)).length pivot :=
    List.eq_replicate_of_mem fun a member => of_decide_eq_true (List.mem_filter.1 member).2
  have greater : (pivot :: rest).filter (pivot < ·) = rest.filter (pivot < ·) := by simp
  have lesser : (pivot :: rest).filter (· < pivot) = rest.filter (· < pivot) := by simp
  have above : ∀ a ∈ descending (rest.filter (pivot < ·)), pivot ≤ a := fun a member =>
    (of_decide_eq_true (List.mem_filter.1 ((descending_perm _).mem_iff.1 member)).2).le
  have below : ∀ a ∈ descending (rest.filter (· < pivot)), a ≤ pivot := fun a member =>
    (of_decide_eq_true (List.mem_filter.1 ((descending_perm _).mem_iff.1 member)).2).le
  apply descending_eq
  · refine .trans ?_ (split_perm pivot (pivot :: rest))
    rw [greater, lesser, ← equal]
    exact (descending_perm _).append (.append_left _ (descending_perm _))
  · refine List.pairwise_append.2 ⟨pairwise_descending _, List.pairwise_append.2
      ⟨List.pairwise_replicate.2 (.inr le_rfl), pairwise_descending _, ?_⟩, ?_⟩
    · intro a first b second
      rw [List.eq_of_mem_replicate first]
      exact below b second
    · intro a first b second
      rcases List.mem_append.1 second with second | second
      · rw [List.eq_of_mem_replicate second]
        exact above a first
      · exact (below b second).trans (above a first)

/-- Selection finds the value at a place of the descending list. -/
theorem Graph.ranked?_eq : ∀ (place : Nat) (values : List W),
    ranked? place values = (descending values)[place]?
  | place, [] => by simp [ranked?, descending]
  | place, pivot :: rest => by
      have total := congrArg List.length (descending_cons pivot rest)
      simp only [List.length_append, length_descending, List.length_cons,
        List.length_replicate] at total
      rw [ranked?, descending_cons]
      split
      · rename_i early
        rw [Graph.ranked?_eq, List.getElem?_append_left (by rwa [length_descending])]
      · rename_i late
        rw [List.getElem?_append_right (by rw [length_descending]; omega), length_descending]
        split
        · rename_i early
          rw [List.getElem?_append_left (by rw [List.length_replicate]; omega),
            List.getElem?_replicate_of_lt (by omega)]
        · rename_i later
          rw [List.getElem?_append_right (by rw [List.length_replicate]; omega),
            List.length_replicate, Graph.ranked?_eq]
          congr 1
          omega
termination_by _ values => values.length
decreasing_by
  all_goals exact Nat.lt_succ_of_le (List.length_filter_le _ _)

namespace Double

open Float.Model

theorem toNat_toUInt64 {x : Float} (finite : x.isFinite = true) (nonneg : 0 ≤ value x)
    (small : value x < 2 ^ 64) : x.toUInt64.toNat = ⌊value x⌋₊ := by
  have regular := regular_of_isFinite finite
  change (UInt64.ofNatClamp (x.toModel.unpack.toInt 0 (UInt64.size - 1)).toNat).toNat = _
  unfold value at nonneg small ⊢
  generalize x.toModel.unpack = u at *
  cases regular with
  | zero sign =>
      rw [worth_zero, Nat.floor_zero]
      rfl
  | @finite sign m e positive canonical =>
      cases sign with
      | positive =>
          have digits : worth (.finite .positive m e positive) =
              ((m * 2 ^ e.toNat : ℕ) : ℚ) / ((2 ^ (-e).toNat : ℕ) : ℚ) := by
            have places : e = (e.toNat : ℤ) - ((-e).toNat : ℤ) := by omega
            change (m : ℚ) * 2 ^ e = _
            nth_rewrite 1 [places]
            rw [zpow_sub₀ two_ne_zero, zpow_natCast, zpow_natCast]
            push_cast
            ring
          rw [digits] at small ⊢
          rw [Nat.floor_div_eq_div]
          have bounded : m * 2 ^ e.toNat / 2 ^ (-e).toNat < UInt64.size := by
            have := Nat.cast_div_le (α := ℚ) (m := m * 2 ^ e.toNat) (n := 2 ^ (-e).toNat)
            exact_mod_cast this.trans_lt small
          change (UInt64.ofNatClamp (UnpackedFloat.roundToInt .positive m e).toNat).toNat = _
          rw [roundToInt_eq, Int.toNat_natCast, UInt64.ofNatClamp, dif_pos bounded]
          rfl
      | negative =>
          have : (0 : ℚ) < m := by exact_mod_cast positive
          have : (0 : ℚ) < m * 2 ^ e := by positivity
          exact absurd nonneg (neg_lt_zero.2 this).not_ge

theorem value_quarter : value Graph.defaultDensity = 1 / 4 := by
  have unpacked : Graph.defaultDensity.toModel.unpack =
      .finite .positive (2 ^ 52) (-54) (by decide) := rfl
  rw [value, unpacked, worth_finite, signed]
  norm_num

end Double

open Double in
/-- A quarter of the greatest place, as long as it is a double. -/
theorem Graph.cutPlace_defaultDensity {count : Nat} (small : count ≤ 2 ^ 53) :
    cutPlace count defaultDensity = (count - 1) / 4 := by
  have clamped : clampUnit defaultDensity = defaultDensity := by decide
  have less : count - 1 < 2 ^ 53 := by omega
  have counted := approximates_ofNat (natCast_le_greatest (less.le.trans (by norm_num)))
  have quarter : value (.ofNat (count - 1)) * value defaultDensity = ((count - 1 : ℕ) : ℚ) / 4 := by
    rw [value_ofNat less, value_quarter]
    ring
  have scale : OnScale (((count - 1 : ℕ) : ℚ) / 4) :=
    ⟨(count - 1 : ℕ), -2, by rw [Nat.abs_cast]; exact_mod_cast less, by norm_num, by norm_num; ring⟩
  have bound : ((count - 1 : ℕ) : ℚ) / 4 < 2 ^ 53 := by
    have : ((count - 1 : ℕ) : ℚ) < 2 ^ 53 := by exact_mod_cast less
    linarith
  have product : Approximates (.ofNat (count - 1) * defaultDensity) (((count - 1 : ℕ) : ℚ) / 4) := by
    rw [← quarter]
    apply approximates_mul counted.finite (by decide)
    rw [quarter, abs_of_nonneg (by positivity)]
    exact bound.le.trans (by exact_mod_cast two_pow_le_greatest (e := 53) (by norm_num))
  rw [cutPlace, clamped, toNat_toUInt64 product.finite, product.rounds.eq scale]
  · exact_mod_cast Nat.floor_div_eq_div (K := ℚ) (count - 1) 4
  · rw [product.rounds.eq scale]
    positivity
  · rw [product.rounds.eq scale]
    exact bound.trans (by norm_num)

end TwoLevel
