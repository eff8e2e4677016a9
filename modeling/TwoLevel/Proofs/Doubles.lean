import TwoLevel.Proofs.Rounding

/-!
Doubles as exact numbers. A sum, a difference, a product or a quotient of finite doubles is the
exact one rounded, if that is not too large; so is a natural number as a double.
-/

namespace TwoLevel.Double

open Float.Model (UnpackedFloat Format totalExponent)
open Float.Model.UnpackedFloat (Sign Accuracy ExtendedMantissa decreaseExponent
  roundWithAccuracy accuracyOfFraction divCore)

variable {a b u : UnpackedFloat} {x y : Float} {q r bound : ℚ} {m n : Nat} {e f : Int}

theorem Rounds.magnitude_le (rounds : Rounds q r) (scale : OnScale bound) (small : |q| ≤ bound) :
    |r| ≤ bound := by
  have ⟨low, high⟩ := abs_le.1 small
  exact abs_le.2 ⟨rounds.ge (-bound) scale.neg low, rounds.le bound scale high⟩

theorem onScale_greatest : OnScale greatest :=
  ⟨2 ^ 53 - 1, 971, by norm_num, by norm_num, by norm_num [greatest]⟩

theorem two_pow_le_greatest (high : e ≤ 1023) : (2 : ℚ) ^ e ≤ greatest := by
  calc (2 : ℚ) ^ e ≤ 2 ^ (52 + 971 : ℤ) := zpow_le_zpow_right₀ (by norm_num) (by omega)
    _ = 2 ^ (52 : ℤ) * 2 ^ (971 : ℤ) := zpow_add₀ two_ne_zero ..
    _ ≤ greatest := mul_le_mul_of_nonneg_right (by norm_num) (by positivity)

theorem onScale_natCast (small : n < 2 ^ 53) : OnScale n :=
  ⟨n, 0, by rw [abs_of_nonneg (Int.natCast_nonneg n)]; exact_mod_cast small, by norm_num, by simp⟩

theorem onScale_two_pow (low : -1074 ≤ e) : OnScale (2 ^ e) :=
  ⟨1, e, by norm_num, low, by simp⟩

theorem signed_mul (s t : Sign) (q r : ℚ) : signed (s * t) (q * r) = signed s q * signed t r := by
  cases s <;> cases t
  · exact (neg_mul_neg q r).symm
  · exact (neg_mul q r).symm
  · exact (mul_neg q r).symm
  · rfl

theorem signed_div (s t : Sign) (q r : ℚ) : signed (s / t) (q / r) = signed s q / signed t r := by
  cases s <;> cases t
  · exact (neg_div_neg_eq q r).symm
  · exact (neg_div r q).symm
  · exact (div_neg q).symm
  · rfl

theorem Regular.neg (regular : Regular u) : Regular u.neg := by
  cases regular with
  | zero sign => exact .zero _
  | finite positive canonical => exact .finite positive canonical

theorem worth_neg (u : UnpackedFloat) : worth u.neg = -worth u := by
  cases u with
  | infinity sign => exact neg_zero.symm
  | notANumber => exact neg_zero.symm
  | zero sign => exact neg_zero.symm
  | finite sign m e positive =>
      cases sign with
      | positive => rfl
      | negative => exact (neg_neg _).symm

/-- A mantissa moved to a smaller exponent. -/
theorem signed_decrease (sign : Sign) (m : Nat) {least : Int} (below : least ≤ e) :
    ((sign.apply (decreaseExponent m e least).1 : ℤ) : ℚ) * 2 ^ least =
      signed sign (m * 2 ^ e) := by
  have moved : (((decreaseExponent m e least).1 : ℕ) : ℚ) * 2 ^ least = m * 2 ^ e := by
    simp only [decreaseExponent, Nat.shiftLeft_eq]
    push_cast
    rw [two_zpow_eq below, mul_assoc]
  cases sign with
  | positive => exact_mod_cast moved
  | negative =>
      simp only [Sign.apply, signed, ← moved]
      push_cast
      ring

theorem rounds_add (left : Regular a) (right : Regular b) :
    Regular (a.add .binary64 b) ∧ Rounds (worth a + worth b) (worth (a.add .binary64 b)) := by
  cases left with
  | zero sign =>
      cases right with
      | zero other =>
          cases sign <;> cases other <;> exact ⟨.zero _, .of_eq (add_zero (0 : ℚ))⟩
      | finite positive canonical => exact ⟨.finite positive canonical, .of_eq (zero_add _)⟩
  | @finite sign m e positive canonical =>
      cases right with
      | zero other => exact ⟨.finite positive canonical, .of_eq (add_zero _)⟩
      | @finite other n f some_digit canonical_right =>
          have summed := rounds_normalize
            (sign.apply (decreaseExponent m e (min e f)).1 +
              other.apply (decreaseExponent n f (min e f)).1) (min e f) .positive
          push_cast at summed
          rw [add_mul, signed_decrease sign m (min_le_left e f),
            signed_decrease other n (min_le_right e f)] at summed
          exact summed

theorem apply_neg (sign : Sign) (n : ℤ) : (-sign).apply n = -sign.apply n := by
  cases sign with
  | positive => rfl
  | negative => exact (neg_neg n).symm

theorem sub_eq_add (left : Regular a) (right : Regular b) :
    a.sub .binary64 b = a.add .binary64 b.neg := by
  cases left with
  | zero sign => cases right <;> rfl
  | finite positive canonical =>
      cases right with
      | zero other => rfl
      | finite some_digit canonical_right =>
          refine congrArg (UnpackedFloat.normalize .binary64 · (min _ _) .positive) ?_
          rw [apply_neg, Int.sub_eq_add_neg]

theorem rounds_sub (left : Regular a) (right : Regular b) :
    Regular (a.sub .binary64 b) ∧ Rounds (worth a - worth b) (worth (a.sub .binary64 b)) := by
  rw [sub_eq_add left right, sub_eq_add_neg, ← worth_neg]
  exact rounds_add left right.neg

theorem mul_finite (sign other : Sign) (some_left : 0 < m) (some_right : 0 < n) :
    (UnpackedFloat.finite sign m e some_left).mul .binary64 (.finite other n f some_right) =
      roundWithAccuracy .binary64 (sign * other) (m * n) (e + f) .exact := rfl

theorem Canonical.mul_full (left : Canonical m e) (right : Canonical n f) (some_left : 0 < m)
    (some_right : 0 < n) : 2 ^ 52 ≤ m * n ∨ e + f ≤ -1074 := by
  rcases left.full with full | last
  · exact .inl (full.trans (Nat.le_mul_of_pos_right m some_right))
  · rcases right.full with full | other_last
    · exact .inl (full.trans (Nat.le_mul_of_pos_left n some_left))
    · exact .inr (by omega)

theorem rounds_mul (left : Regular a) (right : Regular b) :
    Regular (a.mul .binary64 b) ∧ Rounds (worth a * worth b) (worth (a.mul .binary64 b)) := by
  cases left with
  | zero sign =>
      cases right with
      | zero other => exact ⟨.zero _, .of_eq (zero_mul _)⟩
      | finite positive canonical => exact ⟨.zero _, .of_eq (zero_mul _)⟩
  | @finite sign m e positive canonical =>
      cases right with
      | zero other => exact ⟨.zero _, .of_eq (mul_zero _)⟩
      | @finite other n f some_digit canonical_right =>
          have multiplied := rounds_roundWithAccuracy (sign * other) (holds_exact (m * n))
            (canonical.mul_full canonical_right positive some_digit)
          have exact_product : ((m * n : ℕ) : ℚ) * 2 ^ (e + f) = m * 2 ^ e * (n * 2 ^ f) := by
            rw [zpow_add₀ two_ne_zero]
            push_cast
            ring
          rw [exact_product, signed_mul] at multiplied
          exact multiplied

/-- The digits of a quotient: those before the point, and how the remainder compares. -/
theorem holds_quotient (m : Nat) (positive : 0 < n) :
    Holds (.ofMantissaAndAccuracy (m / n) (accuracyOfFraction (m % n) n)) (m / n : ℚ) := by
  have divisor : (0 : ℚ) < n := by exact_mod_cast positive
  have split : (m : ℚ) = n * (m / n : ℕ) + (m % n : ℕ) := by
    exact_mod_cast (Nat.div_add_mod m n).symm
  have remainder : ((m % n : ℕ) : ℚ) < n := by exact_mod_cast Nat.mod_lt m positive
  have value : (m / n : ℚ) = (m / n : ℕ) + (m % n : ℕ) / n := by
    rw [split]
    field_simp
  have low : (0 : ℚ) ≤ (m % n : ℕ) / n := by positivity
  have high : ((m % n : ℕ) : ℚ) / n < 1 := (div_lt_one divisor).2 remainder
  refine ⟨?_, ?_, ?_⟩
  · rw [mantissa_ofMantissaAndAccuracy]
    linarith
  · rw [mantissa_ofMantissaAndAccuracy]
    linarith
  · rw [mantissa_ofMantissaAndAccuracy, value, add_eq_left, div_eq_zero_iff, Nat.cast_eq_zero,
      or_iff_left divisor.ne']
    unfold accuracyOfFraction
    split
    · rename_i none
      simp [none, ExtendedMantissa.ofMantissaAndAccuracy]
    · rename_i some_rest
      cases compare (2 * (m % n)) n <;> simp [some_rest, ExtendedMantissa.ofMantissaAndAccuracy]

/-- A quotient is taken with enough places for a full mantissa, or to the last place. -/
theorem exists_divCore (some_left : 0 < m) (some_right : 0 < n) (e f : Int) :
    ∃ (places : Nat) (target : Int), divCore .binary64 m e n f =
        (m * 2 ^ places / n, target, accuracyOfFraction (m * 2 ^ places % n) n) ∧
      target + places = e - f ∧ (2 ^ 52 ≤ m * 2 ^ places / n ∨ target ≤ -1074) := by
  let target := min (e - f) (max (m.log2 + e - (n.log2 + f) - 53) (-1074))
  have chosen : min (e - f) (Format.binary64.targetExponent (totalExponent m e - totalExponent n f)) =
      target := by
    simp only [target, Format.targetExponent, totalExponent, mantissaBits_binary64,
      Format.minExponent]
    norm_num
    omega
  refine ⟨(e - f - target).toNat, target, ?_, by omega, ?_⟩
  · simp only [divCore, chosen, Nat.shiftLeft_eq]
  · by_cases last : target ≤ -1074
    · exact .inr last
    · refine .inl ((Nat.le_div_iff_mul_le some_right).2 ?_)
      calc 2 ^ 52 * n ≤ 2 ^ 52 * 2 ^ (n.log2 + 1) := Nat.mul_le_mul_left _ Nat.lt_log2_self.le
        _ = 2 ^ (52 + (n.log2 + 1)) := (Nat.pow_add ..).symm
        _ ≤ 2 ^ (m.log2 + (e - f - target).toNat) := Nat.pow_le_pow_right (by decide) (by omega)
        _ = 2 ^ m.log2 * 2 ^ (e - f - target).toNat := Nat.pow_add ..
        _ ≤ m * 2 ^ (e - f - target).toNat :=
            Nat.mul_le_mul_right _ (Nat.log2_self_le some_left.ne')

theorem rounds_div (left : Regular a) (right : Regular b) (nonzero : worth b ≠ 0) :
    Regular (a.div .binary64 b) ∧ Rounds (worth a / worth b) (worth (a.div .binary64 b)) := by
  cases right with
  | zero other => exact absurd rfl nonzero
  | @finite other n f some_digit canonical_right =>
      cases left with
      | zero sign => exact ⟨.zero _, .of_eq (zero_div _)⟩
      | @finite sign m e positive canonical =>
          obtain ⟨places, target, steps, moved, full⟩ := exists_divCore positive some_digit e f
          have divided := rounds_roundWithAccuracy (sign / other)
            (holds_quotient (m * 2 ^ places) some_digit) full
          have exact_quotient : ((m * 2 ^ places : ℕ) : ℚ) / n * 2 ^ target =
              m * 2 ^ e / (n * 2 ^ f) := by
            have unit : (2 : ℚ) ^ e = 2 ^ target * 2 ^ places * 2 ^ f := by
              rw [← zpow_natCast, ← zpow_add₀ two_ne_zero, ← zpow_add₀ two_ne_zero]
              congr 1
              omega
            push_cast
            rw [unit]
            field_simp
          rw [exact_quotient, signed_div] at divided
          have quotient : (UnpackedFloat.finite sign m e positive).div .binary64
                (.finite other n f some_digit) =
              roundWithAccuracy .binary64 (sign / other) (divCore .binary64 m e n f).1
                (divCore .binary64 m e n f).2.1 (divCore .binary64 m e n f).2.2 := rfl
          rw [quotient, steps, worth_finite, worth_finite]
          exact divided

/-- The number that a finite double stands for. -/
def value (x : Float) : ℚ := worth x.toModel.unpack

/-- The double is finite, and what the number is rounded to. -/
structure Approximates (x : Float) (q : ℚ) : Prop where
  finite : x.isFinite = true
  rounds : Rounds q (value x)

theorem regular_of_isFinite (finite : x.isFinite = true) : Regular x.toModel.unpack :=
  (regular_unpack _ finite).1

theorem value_le_greatest (finite : x.isFinite = true) : |value x| ≤ greatest :=
  (regular_unpack _ finite).2

theorem Regular.isFinite (regular : Regular u) : u.isFinite = true := by
  cases regular <;> rfl

theorem approximates_pack (packed : Regular u ∧ Rounds q (worth u)) (small : |q| ≤ greatest) :
    Approximates (.ofModel (.pack u)) q := by
  obtain ⟨regular, rounds⟩ := packed
  have unpacked : (Float.Model.pack u).unpack = u :=
    unpack_pack regular (rounds.magnitude_le onScale_greatest small)
  constructor
  · change (Float.Model.pack u).unpack.isFinite = true
    rw [unpacked]
    exact regular.isFinite
  · change Rounds q (worth (Float.Model.pack u).unpack)
    rwa [unpacked]

theorem approximates_add (left : x.isFinite = true) (right : y.isFinite = true)
    (small : |value x + value y| ≤ greatest) : Approximates (x + y) (value x + value y) :=
  approximates_pack (rounds_add (regular_of_isFinite left) (regular_of_isFinite right)) small

theorem approximates_sub (left : x.isFinite = true) (right : y.isFinite = true)
    (small : |value x - value y| ≤ greatest) : Approximates (x - y) (value x - value y) :=
  approximates_pack (rounds_sub (regular_of_isFinite left) (regular_of_isFinite right)) small

theorem approximates_mul (left : x.isFinite = true) (right : y.isFinite = true)
    (small : |value x * value y| ≤ greatest) : Approximates (x * y) (value x * value y) :=
  approximates_pack (rounds_mul (regular_of_isFinite left) (regular_of_isFinite right)) small

theorem approximates_div (left : x.isFinite = true) (right : y.isFinite = true)
    (nonzero : value y ≠ 0) (small : |value x / value y| ≤ greatest) :
    Approximates (x / y) (value x / value y) :=
  approximates_pack (rounds_div (regular_of_isFinite left) (regular_of_isFinite right) nonzero) small

theorem natCast_le_greatest (small : n ≤ 2 ^ 64) : (n : ℚ) ≤ greatest := by
  have power : (n : ℚ) ≤ 2 ^ (64 : ℤ) := by exact_mod_cast small
  exact power.trans (two_pow_le_greatest (by norm_num))

theorem approximates_toFloat (n : UInt64) : Approximates n.toFloat n.toNat := by
  have rounded := rounds_normalize (n.toNat : ℤ) 0 .positive
  rw [zpow_zero, mul_one, Int.cast_natCast] at rounded
  refine approximates_pack rounded ?_
  rw [Nat.abs_cast]
  exact natCast_le_greatest n.toNat_lt_size.le

theorem value_toFloat {n : UInt64} (small : n.toNat < 2 ^ 53) : value n.toFloat = n.toNat :=
  (approximates_toFloat n).rounds.eq (onScale_natCast small)

theorem value_ofBits_one : value (.ofBits 0x3FF0000000000000) = 1 := by
  have unpacked : (Float.ofBits 0x3FF0000000000000).toModel.unpack =
      .finite .positive (2 ^ 52) (-52) (by decide) := rfl
  rw [value, unpacked, worth_finite, signed]
  norm_num

theorem ofScientific_zero (positive : n ≠ 0) :
    UnpackedFloat.ofScientific .binary64 n 0 =
      roundWithAccuracy .binary64 .positive (n * 2 ^ 53) (-53) .exact := by
  have not_above : ¬(0 : Int) > 2 ^ Format.binary64.exponentBits := by decide
  have not_below : ¬(0 : Int) < -((2 ^ Format.binary64.exponentBits : Int) + n.log2) := by
    have : (0 : Int) < 2 ^ Format.binary64.exponentBits := by decide
    omega
  unfold UnpackedFloat.ofScientific
  rw [dif_neg positive, if_neg not_above, if_neg not_below, if_pos le_rfl, mul_finite,
    Nat.shiftLeft_eq, Int.toNat_zero, Nat.pow_zero, Nat.mul_one]
  rfl

/-- A number of more than 53 digits is rounded at once. -/
theorem ofNat_eq_pack (digits : 2 ^ 53 ≤ n) :
    ∃ u, Float.ofNat n = .ofModel (.pack u) ∧ Regular u ∧ Rounds n (worth u) := by
  have steps : Float.ofNat n =
      .ofModel (.pack (roundWithAccuracy .binary64 .positive (n * 2 ^ 53) (-53) .exact)) := by
    have slow : ¬(n < 2 ^ 53 ∧ 0 ≤ 22) := fun fast => digits.not_gt fast.1
    have positive : n ≠ 0 := by omega
    calc Float.ofNat n = .ofModel (.pack (UnpackedFloat.ofScientific .binary64 n 0)) := dif_neg slow
      _ = _ := congrArg (fun u => Float.ofModel (.pack u)) (ofScientific_zero positive)
  have rounded := rounds_roundWithAccuracy .positive (holds_exact (n * 2 ^ 53)) (e := -53)
    (.inl (by omega))
  have exact_count : ((n * 2 ^ 53 : ℕ) : ℚ) * 2 ^ (-53 : ℤ) = n := by
    push_cast
    rw [mul_assoc]
    norm_num
  rw [exact_count] at rounded
  exact ⟨_, steps, rounded⟩

/-- A natural number as a double; up to the 53rd digit it is multiplied by one, and else rounded at
once. -/
theorem approximates_ofNat (small : (n : ℚ) ≤ greatest) : Approximates (.ofNat n) n := by
  by_cases digits : n < 2 ^ 53
  · have same : n.toUInt64.toNat = n := Nat.mod_eq_of_lt (digits.trans (by decide))
    have converted := approximates_toFloat n.toUInt64
    have worth_n : value n.toUInt64.toFloat = n := by
      rw [value_toFloat (same.symm ▸ digits), same]
    have steps : Float.ofNat n = n.toUInt64.toFloat * .ofBits 0x3FF0000000000000 := by
      have fast : n < 2 ^ 53 ∧ 0 ≤ 22 := ⟨digits, by decide⟩
      simp only [Float.ofNat, OfScientific.ofScientific, Float.ofScientific, dif_pos fast]
      rfl
    have product : value n.toUInt64.toFloat * value (.ofBits 0x3FF0000000000000) = n := by
      rw [worth_n, value_ofBits_one, mul_one]
    rw [steps, ← product]
    apply approximates_mul converted.finite rfl
    rwa [product, Nat.abs_cast]
  · obtain ⟨u, steps, rounded⟩ := ofNat_eq_pack (not_lt.1 digits)
    rw [steps]
    exact approximates_pack rounded (by rwa [Nat.abs_cast])

theorem value_ofNat (small : n < 2 ^ 53) : value (.ofNat n) = n :=
  (approximates_ofNat (natCast_le_greatest (small.le.trans (by decide)))).rounds.eq
    (onScale_natCast small)

end TwoLevel.Double
