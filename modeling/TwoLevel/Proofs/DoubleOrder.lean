import Mathlib.Data.Nat.Cast.Order.Field
import TwoLevel.Proofs.Doubles

/-!
The order of doubles, and how they are cut to whole numbers. Finite doubles compare as the numbers
that they stand for; what a double is cut to is not greater than the double.
-/

namespace TwoLevel.Double

open Float.Model (UnpackedFloat)
open Float.Model.UnpackedFloat (Sign decreaseExponent shiftToExponent)

variable {a b u : UnpackedFloat} {x y : Float} {m n : Nat} {e f : Int}

theorem Canonical.lt_of_exponent_lt (left : Canonical m e) (right : Canonical n f) (below : e < f) :
    (m : ℚ) * 2 ^ e < n * 2 ^ f := by
  have low := left.low
  have full : (2 : ℚ) ^ 52 ≤ n := by exact_mod_cast right.full.resolve_right (by omega)
  have small : (m : ℚ) < 2 ^ 53 := by exact_mod_cast left.small
  calc (m : ℚ) * 2 ^ e < 2 ^ 53 * 2 ^ e := mul_lt_mul_of_pos_right small (by positivity)
    _ = 2 ^ 52 * 2 ^ (e + 1) := carry_unit e
    _ ≤ n * 2 ^ f :=
        mul_le_mul full (zpow_le_zpow_right₀ (by norm_num) (by omega)) (by positivity) (by positivity)

/-- Mantissas with all their digits compare by the exponent first. -/
theorem compare_magnitudes (left : Canonical m e) (right : Canonical n f) :
    (compare e f).then (compare m n) = compare ((m : ℚ) * 2 ^ e) (n * 2 ^ f) := by
  rcases lt_trichotomy e f with below | rfl | above
  · rw [Int.compare_eq_lt.2 below, compare_lt_iff_lt.2 (left.lt_of_exponent_lt right below)]
    rfl
  · have unit : (0 : ℚ) < 2 ^ e := by positivity
    rw [Int.compare_eq_eq.2 rfl]
    rcases lt_trichotomy m n with less | rfl | greater
    · have : (m : ℚ) * 2 ^ e < n * 2 ^ e := mul_lt_mul_of_pos_right (by exact_mod_cast less) unit
      rw [Nat.compare_eq_lt.2 less, compare_lt_iff_lt.2 this]
      rfl
    · rw [Nat.compare_eq_eq.2 rfl, compare_eq_iff_eq.2 rfl]
      rfl
    · have : (n : ℚ) * 2 ^ e < m * 2 ^ e := mul_lt_mul_of_pos_right (by exact_mod_cast greater) unit
      rw [Nat.compare_eq_gt.2 greater, compare_gt_iff_gt.2 this]
      rfl
  · rw [Int.compare_eq_gt.2 above, compare_gt_iff_gt.2 (right.lt_of_exponent_lt left above)]
    rfl

theorem compare_neg_neg (q r : ℚ) : compare (-q) (-r) = (compare q r).swap := by
  rcases lt_trichotomy q r with less | rfl | greater
  · rw [compare_lt_iff_lt.2 less, compare_gt_iff_gt.2 (neg_lt_neg less)]
    rfl
  · rw [compare_eq_iff_eq.2 rfl, compare_eq_iff_eq.2 rfl]
    rfl
  · rw [compare_gt_iff_gt.2 greater, compare_lt_iff_lt.2 (neg_lt_neg greater)]
    rfl

theorem compare_regular (left : Regular a) (right : Regular b) :
    a.compare b = some (compare (worth a) (worth b)) := by
  have magnitude_pos {m : Nat} {e : Int} (positive : 0 < m) : (0 : ℚ) < m * 2 ^ e := by
    have : (0 : ℚ) < m := by exact_mod_cast positive
    positivity
  cases left with
  | zero sign =>
      cases right with
      | zero other => exact congrArg some (compare_eq_iff_eq.2 rfl).symm
      | @finite other n f some_digit canonical_right =>
          have := magnitude_pos (e := f) some_digit
          cases other with
          | positive => exact congrArg some (compare_lt_iff_lt.2 this).symm
          | negative => exact congrArg some (compare_gt_iff_gt.2 (neg_lt_zero.2 this)).symm
  | @finite sign m e positive canonical =>
      have left_pos := magnitude_pos (e := e) positive
      cases right with
      | zero other =>
          cases sign with
          | positive => exact congrArg some (compare_gt_iff_gt.2 left_pos).symm
          | negative => exact congrArg some (compare_lt_iff_lt.2 (neg_lt_zero.2 left_pos)).symm
      | @finite other n f some_digit canonical_right =>
          have right_pos := magnitude_pos (e := f) some_digit
          cases sign with
          | positive =>
              cases other with
              | positive => exact congrArg some (compare_magnitudes canonical canonical_right)
              | negative =>
                  have above := (neg_lt_zero.2 right_pos).trans left_pos
                  exact congrArg some (compare_gt_iff_gt.2 above).symm
          | negative =>
              cases other with
              | positive =>
                  have below := (neg_lt_zero.2 left_pos).trans right_pos
                  exact congrArg some (compare_lt_iff_lt.2 below).symm
              | negative =>
                  refine congrArg some ?_
                  rw [compare_magnitudes canonical canonical_right]
                  exact (compare_neg_neg _ _).symm

theorem lt_iff (left : x.isFinite = true) (right : y.isFinite = true) :
    x < y ↔ value x < value y := by
  have compared := compare_regular (regular_of_isFinite left) (regular_of_isFinite right)
  have unfolded : x < y ↔ x.toModel.unpack.lt y.toModel.unpack = true :=
    decide_eq_true_iff
  rw [unfolded, UnpackedFloat.lt, compared, beq_iff_eq, Option.some.injEq]
  exact compare_lt_iff_lt

theorem le_iff (left : x.isFinite = true) (right : y.isFinite = true) :
    x ≤ y ↔ value x ≤ value y := by
  have compared := compare_regular (regular_of_isFinite left) (regular_of_isFinite right)
  have unfolded : x ≤ y ↔ x.toModel.unpack.le y.toModel.unpack = true :=
    decide_eq_true_iff
  rw [unfolded, UnpackedFloat.le, compared, Option.any_some, Ordering.isLE_iff_ne_gt]
  exact compare_le_iff_le

theorem beq_iff (left : x.isFinite = true) (right : y.isFinite = true) :
    (x == y) = true ↔ value x = value y := by
  have compared := compare_regular (regular_of_isFinite left) (regular_of_isFinite right)
  change (x.toModel.unpack.compare y.toModel.unpack == some .eq) = true ↔ _
  rw [compared]
  simp [value]

/-- What is not below a finite double does not fall below it when it is packed, and may become
infinite. -/
theorem le_pack (finite : x.isFinite = true) (regular : Regular u) (below : value x ≤ worth u) :
    x ≤ .ofModel (.pack u) := by
  by_cases bound : |worth u| ≤ greatest
  · have unpacked : (Float.Model.pack u).unpack = u := unpack_pack regular bound
    have same : value (.ofModel (.pack u)) = worth u := congrArg worth unpacked
    refine (le_iff finite ?_).2 (same.symm ▸ below)
    change (Float.Model.pack u).unpack.isFinite = true
    rw [unpacked]
    exact regular.isFinite
  · cases regular with
    | zero sign => exact absurd (by simpa using greatest_pos.le) bound
    | @finite sign m e positive canonical =>
        have high : 971 < e := not_le.1 fun low => bound (worth_le_greatest canonical low)
        have infinite : (Float.Model.pack (.finite sign m e positive)).unpack = .infinity sign :=
          unpack_pack_of_large sign positive high
        change decide (x.toModel.unpack.le (Float.Model.pack _).unpack = true) = true
        rw [infinite, decide_eq_true_eq]
        cases sign with
        | positive =>
            have own := regular_of_isFinite finite
            generalize x.toModel.unpack = v at *
            cases own <;> rfl
        | negative =>
            have magnitude : (0 : ℚ) ≤ m * 2 ^ e := by positivity
            rw [worth_finite, signed, abs_neg, abs_of_nonneg magnitude] at bound
            rw [worth_finite, signed] at below
            linarith [(abs_le.1 (value_le_greatest finite)).1]

theorem isFinite_of_le_of_le {z : Float} (left : x.isFinite = true) (right : z.isFinite = true)
    (above : x ≤ y) (below : y ≤ z) : y.isFinite = true := by
  have low : x.toModel.unpack.le y.toModel.unpack = true := of_decide_eq_true above
  have high : y.toModel.unpack.le z.toModel.unpack = true := of_decide_eq_true below
  have regular_left := regular_of_isFinite left
  have regular_right := regular_of_isFinite right
  change y.toModel.unpack.isFinite = true
  generalize x.toModel.unpack = a, y.toModel.unpack = b, z.toModel.unpack = c at *
  cases b with
  | notANumber => cases regular_left <;> cases low
  | infinity sign =>
      cases sign with
      | positive => cases regular_right <;> cases high
      | negative => cases regular_left <;> cases low
  | zero sign => rfl
  | finite sign m e positive => rfl

/-! ## Signs -/

theorem worth_abs (u : UnpackedFloat) : worth u.abs = |worth u| := by
  cases u with
  | infinity sign => exact abs_zero.symm
  | notANumber => exact abs_zero.symm
  | zero sign => exact abs_zero.symm
  | finite sign m e positive =>
      have nonneg : (0 : ℚ) ≤ m * 2 ^ e := by positivity
      rw [worth_finite, abs_signed, abs_of_nonneg nonneg]
      rfl

theorem Regular.abs (regular : Regular u) : Regular u.abs := by
  cases regular with
  | zero sign => exact .zero _
  | finite positive canonical => exact .finite positive canonical

theorem approximates_abs (finite : x.isFinite = true) : Approximates x.abs |value x| := by
  refine approximates_pack ⟨(regular_of_isFinite finite).abs, .of_eq (worth_abs _).symm⟩ ?_
  rw [abs_abs]
  exact value_le_greatest finite

theorem Regular.onScale (regular : Regular u) : OnScale (worth u) := by
  cases regular with
  | zero sign => exact ⟨0, 0, by norm_num, by norm_num, by norm_num⟩
  | @finite sign m e positive canonical =>
      have small : |(m : ℤ)| < 2 ^ 53 := by
        rw [abs_of_nonneg (Int.natCast_nonneg m)]
        exact_mod_cast canonical.small
      have magnitude : OnScale (m * 2 ^ e : ℚ) := ⟨m, e, small, canonical.low, by norm_cast⟩
      cases sign with
      | positive => exact magnitude
      | negative => exact magnitude.neg

theorem onScale_value (finite : x.isFinite = true) : OnScale (value x) :=
  (regular_of_isFinite finite).onScale

/-! ## Whole numbers -/

/-- The digits before the point. -/
theorem roundToInt_eq (m : Nat) (e : Int) : UnpackedFloat.roundToInt .positive m e =
    (m * 2 ^ e.toNat / 2 ^ (-e).toNat : ℕ) := by
  have places : (0 - (e - (e.toNat : ℤ))).toNat = (-e).toNat := by omega
  simp only [UnpackedFloat.roundToInt, decreaseExponent, shiftToExponent, sub_zero,
    Nat.shiftLeft_eq, places, mantissa_shiftRight, mantissa_ofMantissaAndAccuracy]
  rfl

theorem roundToInt_le (m : Nat) (e : Int) :
    ((UnpackedFloat.roundToInt .positive m e : ℤ) : ℚ) ≤ m * 2 ^ e := by
  have split : e = (e.toNat : ℤ) - ((-e).toNat : ℤ) := by omega
  rw [roundToInt_eq, Int.cast_natCast]
  calc ((m * 2 ^ e.toNat / 2 ^ (-e).toNat : ℕ) : ℚ)
      ≤ (m * 2 ^ e.toNat : ℕ) / (2 ^ (-e).toNat : ℕ) := Nat.cast_div_le
    _ = m * 2 ^ e := by
        nth_rewrite 3 [split]
        rw [zpow_sub₀ two_ne_zero, zpow_natCast, zpow_natCast]
        push_cast
        ring

theorem toNat_ofNatClamp_le (n : Nat) : (UInt64.ofNatClamp n).toNat ≤ n := by
  unfold UInt64.ofNatClamp
  split
  · rfl
  · rename_i large
    exact (Nat.sub_le ..).trans (not_lt.1 large)

theorem toNat_toUInt64_le (finite : x.isFinite = true) (nonneg : 0 ≤ value x) :
    (x.toUInt64.toNat : ℚ) ≤ value x := by
  have clamped : (x.toUInt64.toNat : ℚ) ≤
      ((x.toModel.unpack.toInt 0 (UInt64.size - 1)).toNat : ℕ) := by
    exact_mod_cast toNat_ofNatClamp_le _
  refine clamped.trans ?_
  have regular := regular_of_isFinite finite
  unfold value at nonneg ⊢
  generalize x.toModel.unpack = u at *
  cases regular with
  | zero sign => exact nonneg
  | @finite sign m e positive canonical =>
      cases sign with
      | positive =>
          have whole : 0 ≤ UnpackedFloat.roundToInt .positive m e := by
            rw [roundToInt_eq]
            exact Int.natCast_nonneg _
          have same : ((UnpackedFloat.roundToInt .positive m e).toNat : ℚ) =
              ((UnpackedFloat.roundToInt .positive m e : ℤ) : ℚ) := by
            exact_mod_cast Int.toNat_of_nonneg whole
          exact same.trans_le (roundToInt_le m e)
      | negative =>
          have : (0 : ℚ) < m := by exact_mod_cast positive
          have : (0 : ℚ) < m * 2 ^ e := by positivity
          exact absurd nonneg (neg_lt_zero.2 this).not_ge

end TwoLevel.Double
