import Mathlib.Algebra.Order.Field.Power
import Mathlib.Algebra.Order.Ring.Rat
import Mathlib.Data.Nat.Log
import Mathlib.Tactic.FieldSimp
import Mathlib.Tactic.Linarith
import Mathlib.Tactic.NormNum
import Mathlib.Tactic.Positivity
import Mathlib.Tactic.Ring

/-!
Rounding to doubles, over exact fractions. The numbers of at most 53 binary digits, none of them
after the 1074th place, are the scale. A number is never rounded past a number of the scale, so
bounds that lie on the scale are kept.
-/

namespace TwoLevel.Double

open Float.Model Float.Model.UnpackedFloat

variable {em : ExtendedMantissa} {x y : ℚ} {m : Nat} {e : Int} {sign : Sign}

def OnScale (x : ℚ) : Prop := ∃ m e : ℤ, |m| < 2 ^ 53 ∧ -1074 ≤ e ∧ x = m * 2 ^ e

/-- No number of the scale lies between a number and what it is rounded to. -/
structure Rounds (x y : ℚ) : Prop where
  le : ∀ bound, OnScale bound → x ≤ bound → y ≤ bound
  ge : ∀ bound, OnScale bound → bound ≤ x → bound ≤ y

theorem OnScale.neg (scale : OnScale x) : OnScale (-x) := by
  obtain ⟨m, e, small, low, rfl⟩ := scale
  exact ⟨-m, e, by rwa [abs_neg], low, by push_cast; ring⟩

theorem Rounds.neg (rounds : Rounds x y) : Rounds (-x) (-y) where
  le bound scale above := by
    have := rounds.ge (-bound) scale.neg (by linarith)
    linarith
  ge bound scale below := by
    have := rounds.le (-bound) scale.neg (by linarith)
    linarith

theorem Rounds.of_eq (same : x = y) : Rounds x y := by
  subst same
  exact ⟨fun _ _ => id, fun _ _ => id⟩

theorem Rounds.eq (rounds : Rounds x y) (scale : OnScale x) : y = x :=
  le_antisymm (rounds.le x scale le_rfl) (rounds.ge x scale le_rfl)

theorem two_zpow_eq {f : Int} (below : e ≤ f) : (2 : ℚ) ^ f = 2 ^ (f - e).toNat * 2 ^ e := by
  have places : (((f - e).toNat : ℕ) : ℤ) = f - e := Int.toNat_of_nonneg (by omega)
  rw [← zpow_natCast, places, ← zpow_add₀ two_ne_zero, sub_add_cancel]

theorem carry_unit (e : Int) : (2 : ℚ) ^ 53 * 2 ^ e = 2 ^ 52 * 2 ^ (e + 1) := by
  rw [zpow_add_one₀ two_ne_zero]
  ring

/-- A number of the scale is a multiple of the unit, or too small for a full mantissa of units. -/
theorem OnScale.multiple_or_small (scale : OnScale x) (e : Int) :
    (∃ n : ℤ, x = n * 2 ^ e) ∨ (-1074 < e ∧ |x| < 2 ^ 52 * 2 ^ e) := by
  obtain ⟨n, f, small, least, rfl⟩ := scale
  rcases le_or_gt e f with coarser | finer
  · refine .inl ⟨n * 2 ^ (f - e).toNat, ?_⟩
    rw [two_zpow_eq coarser]
    push_cast
    ring
  · refine .inr ⟨by omega, ?_⟩
    have finer_unit : (0 : ℚ) < 2 ^ f := by positivity
    have digits : |(n : ℚ)| < 2 ^ 53 := by exact_mod_cast small
    calc |(n : ℚ) * 2 ^ f| = |(n : ℚ)| * 2 ^ f := by rw [abs_mul, abs_of_pos finer_unit]
      _ < 2 ^ 53 * 2 ^ f := mul_lt_mul_of_pos_right digits finer_unit
      _ = 2 ^ 52 * 2 ^ (f + 1) := carry_unit f
      _ ≤ 2 ^ 52 * 2 ^ e := by
          gcongr
          · norm_num
          · omega

/-- The digits of a number before the point, and whether there are any after it. -/
structure Holds (em : ExtendedMantissa) (x : ℚ) : Prop where
  floor : (em.mantissa : ℚ) ≤ x
  ceil : x < em.mantissa + 1
  exact : x = em.mantissa ↔ em.roundBit = false ∧ em.stickyBit = false

theorem Holds.shiftRightOne (held : Holds em x) : Holds em.shiftRightOne (x / 2) := by
  obtain ⟨floor, ceil, exact⟩ := held
  have halves : ((em.mantissa % 2 : ℕ) : ℚ) + 2 * ((em.mantissa / 2 : ℕ) : ℚ) = em.mantissa := by
    exact_mod_cast Nat.mod_add_div em.mantissa 2
  rcases Nat.mod_two_eq_zero_or_one em.mantissa with even | odd
  · rw [even] at halves
    push_cast at halves
    refine ⟨?_, ?_, ?_⟩
    · simp only [ExtendedMantissa.shiftRightOne]
      linarith
    · simp only [ExtendedMantissa.shiftRightOne]
      linarith
    · have same : x / 2 = ((em.mantissa / 2 : ℕ) : ℚ) ↔ x = em.mantissa := by
        constructor <;> intro equal <;> linarith
      simp [ExtendedMantissa.shiftRightOne, even, same, exact]
  · rw [odd] at halves
    push_cast at halves
    refine ⟨?_, ?_, ?_⟩
    · simp only [ExtendedMantissa.shiftRightOne]
      linarith
    · simp only [ExtendedMantissa.shiftRightOne]
      linarith
    · have never : x / 2 ≠ ((em.mantissa / 2 : ℕ) : ℚ) := by
        intro equal
        linarith
      simp [ExtendedMantissa.shiftRightOne, odd, never]

theorem Holds.shiftRight (held : Holds em x) (places : Nat) :
    Holds (em >>> places) (x / 2 ^ places) := by
  induction places with
  | zero =>
      have same : em >>> 0 = em := rfl
      rwa [same, pow_zero, div_one]
  | succ places ih =>
      have shifted : Holds (em >>> places).shiftRightOne (x / 2 ^ places / 2) := ih.shiftRightOne
      rwa [div_div, ← pow_succ] at shifted

theorem mantissa_shiftRight (em : ExtendedMantissa) (places : Nat) :
    (em >>> places).mantissa = em.mantissa / 2 ^ places := by
  induction places with
  | zero => simp [HShiftRight.hShiftRight, Nat.repeat]
  | succ places ih =>
      have shifted : (em >>> (places + 1)).mantissa = (em >>> places).mantissa / 2 := rfl
      rw [shifted, ih, Nat.div_div_eq_div_mul, pow_succ]

theorem Holds.rounded_le (held : Holds em x) {n : ℤ} (above : x ≤ n) :
    (em.roundedMantissa : ℤ) ≤ n := by
  obtain ⟨floor, -, exact⟩ := held
  obtain ⟨mantissa, half, rest⟩ := em
  have least : (mantissa : ℤ) ≤ n := by exact_mod_cast floor.trans above
  have next : (half = true ∨ rest = true) → (mantissa : ℤ) + 1 ≤ n := by
    intro digits
    have differ : x ≠ mantissa := by
      intro equal
      obtain ⟨none_half, none_rest⟩ := exact.1 equal
      simp_all
    have strict : (mantissa : ℚ) < n := (lt_of_le_of_ne floor differ.symm).trans_le above
    exact_mod_cast strict
  cases half <;> cases rest <;>
    simp [ExtendedMantissa.roundedMantissa, ExtendedMantissa.accuracy,
      Accuracy.roundToNearestEven] at next ⊢ <;> omega

theorem mantissa_le_rounded (em : ExtendedMantissa) : em.mantissa ≤ em.roundedMantissa := by
  obtain ⟨mantissa, half, rest⟩ := em
  cases half <;> cases rest <;>
    simp [ExtendedMantissa.roundedMantissa, ExtendedMantissa.accuracy, Accuracy.roundToNearestEven]

theorem Holds.le_rounded (held : Holds em x) {n : ℤ} (below : n ≤ x) :
    n ≤ (em.roundedMantissa : ℤ) := by
  have digits : n < (em.mantissa : ℤ) + 1 := by exact_mod_cast below.trans_lt held.ceil
  have := mantissa_le_rounded em
  omega

/-- With a full mantissa, or at the last place, rounding keeps to the scale. -/
theorem Holds.rounds (held : Holds em x) (full : 2 ^ 52 ≤ em.mantissa ∨ e = -1074) :
    Rounds (x * 2 ^ e) (em.roundedMantissa * 2 ^ e) := by
  have unit : (0 : ℚ) < 2 ^ e := by positivity
  have reached : -1074 < e →
      2 ^ 52 * 2 ^ e ≤ x * 2 ^ e ∧ 2 ^ 52 * 2 ^ e ≤ em.roundedMantissa * (2 : ℚ) ^ e := by
    intro above
    have large := full.resolve_right above.ne'
    have floor : (2 : ℚ) ^ 52 ≤ em.mantissa := by exact_mod_cast large
    have rounded : (2 : ℚ) ^ 52 ≤ em.roundedMantissa := by
      exact_mod_cast large.trans (mantissa_le_rounded em)
    exact ⟨mul_le_mul_of_nonneg_right (floor.trans held.floor) unit.le,
      mul_le_mul_of_nonneg_right rounded unit.le⟩
  constructor
  · intro bound scale above
    rcases scale.multiple_or_small e with ⟨n, rfl⟩ | ⟨inner, small⟩
    · have ordered := held.rounded_le (le_of_mul_le_mul_right above unit)
      gcongr
      exact_mod_cast ordered
    · linarith [(reached inner).1, (abs_lt.1 small).2]
  · intro bound scale below
    rcases scale.multiple_or_small e with ⟨n, rfl⟩ | ⟨inner, small⟩
    · have ordered := held.le_rounded (le_of_mul_le_mul_right below unit)
      gcongr
      exact_mod_cast ordered
    · linarith [(reached inner).2, (abs_lt.1 small).2]

structure Canonical (m : Nat) (e : Int) : Prop where
  small : m < 2 ^ 53
  low : -1074 ≤ e
  full : 2 ^ 52 ≤ m ∨ e = -1074

/-- Neither infinite nor undefined, and with the digits that a double has. -/
inductive Regular : UnpackedFloat → Prop
  | zero (sign : Sign) : Regular (.zero sign)
  | finite {sign : Sign} {m : Nat} {e : Int} (positive : 0 < m) (canonical : Canonical m e) :
      Regular (.finite sign m e positive)

def signed : Sign → ℚ → ℚ
  | .positive, x => x
  | .negative, x => -x

/-- The number that is meant, zero if it is infinite or undefined. -/
def worth : UnpackedFloat → ℚ
  | .finite sign m e _ => signed sign (m * 2 ^ e)
  | _ => 0

@[simp] theorem worth_zero (sign : Sign) : worth (.zero sign) = 0 := rfl

theorem worth_finite (sign : Sign) (positive : 0 < m) :
    worth (.finite sign m e positive) = signed sign (m * 2 ^ e) := rfl

theorem Rounds.signed (rounds : Rounds x y) (sign : Sign) :
    Rounds (signed sign x) (signed sign y) := by
  cases sign with
  | positive => exact rounds
  | negative => exact rounds.neg

theorem mantissaBits_binary64 : Format.binary64.mantissaBits = 53 := rfl

theorem targetExponent_eq (m : Nat) (e : Int) :
    Format.binary64.targetExponent (totalExponent m e) = max (m.log2 + e - 52) (-1074) := by
  simp only [Format.targetExponent, totalExponent, mantissaBits_binary64, Format.minExponent]
  norm_num
  omega

theorem shift_of_small (small : m < 2 ^ 53) (low : -1074 ≤ e) :
    shiftToTargetExponent .binary64 m e .exact = (⟨m, false, false⟩, e) := by
  have digits : m.log2 ≤ 52 := by
    rcases Nat.eq_zero_or_pos m with rfl | positive
    · decide
    · exact Nat.lt_succ_iff.1 ((Nat.log2_lt positive.ne').2 small)
  have none : (Format.binary64.targetExponent (totalExponent m e) - e).toNat = 0 := by
    rw [targetExponent_eq]
    omega
  simp [shiftToTargetExponent, shiftToExponent, none, HShiftRight.hShiftRight, Nat.repeat,
    ExtendedMantissa.ofMantissaAndAccuracy]

theorem shift_of_carry (low : -1074 ≤ e) :
    shiftToTargetExponent .binary64 (2 ^ 53) e .exact = (⟨2 ^ 52, false, false⟩, e + 1) := by
  have one : (Format.binary64.targetExponent (totalExponent (2 ^ 53) e) - e).toNat = 1 := by
    rw [targetExponent_eq, Nat.log2_two_pow]
    omega
  have halved : ExtendedMantissa.ofMantissaAndAccuracy (2 ^ 53) .exact >>> 1 =
      ⟨2 ^ 52, false, false⟩ := rfl
  simp only [shiftToTargetExponent, shiftToExponent, one, halved]
  rfl

/-- What is left to do with a rounded mantissa. -/
def settled (sign : Sign) (m : Nat) (e : Int) : UnpackedFloat :=
  let (shifted, exponent) := shiftToTargetExponent .binary64 m e .exact
  if h : shifted.mantissa = 0 then .zero sign
  else .finite sign shifted.mantissa exponent (Nat.pos_of_ne_zero h)

theorem worth_settled (sign : Sign) (small : m ≤ 2 ^ 53) (low : -1074 ≤ e)
    (full : 2 ^ 52 ≤ m ∨ e = -1074) :
    Regular (settled sign m e) ∧ worth (settled sign m e) = signed sign (m * 2 ^ e) := by
  unfold settled
  rcases small.lt_or_eq with fits | rfl
  · rw [shift_of_small fits low]
    rcases Nat.eq_zero_or_pos m with rfl | positive
    · have nothing : signed sign ((0 : ℕ) * 2 ^ e) = 0 := by
        cases sign <;> simp [Double.signed]
      exact ⟨.zero sign, nothing.symm⟩
    · dsimp only
      rw [dif_neg positive.ne']
      exact ⟨.finite positive ⟨fits, low, full⟩, rfl⟩
  · rw [shift_of_carry low]
    have carried : ((2 ^ 52 : ℕ) : ℚ) * 2 ^ (e + 1) = ((2 ^ 53 : ℕ) : ℚ) * 2 ^ e := by
      push_cast
      exact (carry_unit e).symm
    exact ⟨.finite _ ⟨by decide, by omega, .inl le_rfl⟩, congrArg (Double.signed sign) carried⟩

theorem lt_of_log2_le {places : Nat} (bound : m.log2 ≤ 52 + places) : m / 2 ^ places < 2 ^ 53 := by
  rw [Nat.div_lt_iff_lt_mul (Nat.two_pow_pos places), ← Nat.pow_add]
  exact Nat.lt_log2_self.trans_le (Nat.pow_le_pow_right (by decide) (by omega))

theorem le_of_log2_eq {places : Nat} (positive : 0 < m) (bound : m.log2 = 52 + places) :
    2 ^ 52 ≤ m / 2 ^ places := by
  rw [Nat.le_div_iff_mul_le (Nat.two_pow_pos places), ← Nat.pow_add, ← bound]
  exact Nat.log2_self_le positive.ne'

theorem mantissa_ofMantissaAndAccuracy (m : Nat) (accuracy : Accuracy) :
    (ExtendedMantissa.ofMantissaAndAccuracy m accuracy).mantissa = m := by
  cases accuracy with
  | exact => rfl
  | inexact order => cases order <;> rfl

/-- How far a mantissa is shifted: to 53 digits, or to the last place. -/
theorem exists_shift (accuracy : Accuracy) (full : 2 ^ 52 ≤ m ∨ e ≤ -1074) :
    ∃ places : Nat, shiftToTargetExponent .binary64 m e accuracy =
        (ExtendedMantissa.ofMantissaAndAccuracy m accuracy >>> places, e + places) ∧
      -1074 ≤ e + (places : Int) ∧ m / 2 ^ places < 2 ^ 53 ∧
      (2 ^ 52 ≤ m / 2 ^ places ∨ e + (places : Int) = -1074) := by
  let target := max ((m.log2 : Int) + e - 52) (-1074)
  have digits : 2 ^ 52 ≤ m → 0 < m ∧ 52 ≤ m.log2 := by
    intro large
    have positive : 0 < m := by omega
    exact ⟨positive, (Nat.le_log2 positive.ne').2 large⟩
  have reached : e + ((target - e).toNat : Int) = target := by omega
  refine ⟨(target - e).toNat, ?_, by omega, lt_of_log2_le (by omega), ?_⟩
  · simp only [shiftToTargetExponent, shiftToExponent, targetExponent_eq, target]
  · rw [reached]
    rcases Nat.eq_zero_or_pos m with rfl | positive
    · have none : Nat.log2 0 = 0 := by decide
      omega
    · by_cases last : target = -1074
      · exact .inr last
      · exact .inl (le_of_log2_eq positive (by omega))

theorem rounds_roundWithAccuracy {accuracy : Accuracy} (sign : Sign)
    (held : Holds (.ofMantissaAndAccuracy m accuracy) x) (full : 2 ^ 52 ≤ m ∨ e ≤ -1074) :
    Regular (roundWithAccuracy .binary64 sign m e accuracy) ∧
      Rounds (signed sign (x * 2 ^ e)) (worth (roundWithAccuracy .binary64 sign m e accuracy)) := by
  obtain ⟨places, shift, low, small, normal⟩ := exists_shift accuracy full
  have mantissa := mantissa_shiftRight (.ofMantissaAndAccuracy m accuracy) places
  rw [mantissa_ofMantissaAndAccuracy] at mantissa
  rw [← mantissa] at small normal
  have holds := held.shiftRight places
  generalize ExtendedMantissa.ofMantissaAndAccuracy m accuracy >>> places = shifted at *
  have steps : roundWithAccuracy .binary64 sign m e accuracy =
      settled sign shifted.roundedMantissa (e + places) := by
    rw [roundWithAccuracy, shift]
    rfl
  have scaled : x / 2 ^ places * 2 ^ (e + (places : Int)) = x * 2 ^ e := by
    rw [zpow_add₀ two_ne_zero, zpow_natCast]
    field_simp
  have carried : shifted.roundedMantissa ≤ 2 ^ 53 := by
    have next : x / 2 ^ places ≤ ((shifted.mantissa + 1 : ℕ) : ℤ) := by
      push_cast
      exact holds.ceil.le
    have := holds.rounded_le next
    omega
  have grown : 2 ^ 52 ≤ shifted.roundedMantissa ∨ e + (places : Int) = -1074 :=
    normal.imp_left (·.trans (mantissa_le_rounded shifted))
  obtain ⟨regular, same⟩ := worth_settled sign carried low grown
  rw [steps, same, ← scaled]
  exact ⟨regular, (holds.rounds normal).signed sign⟩

theorem holds_exact (m : Nat) : Holds (.ofMantissaAndAccuracy m .exact) m where
  floor := le_rfl
  ceil := by simp [ExtendedMantissa.ofMantissaAndAccuracy]
  exact := by simp [ExtendedMantissa.ofMantissaAndAccuracy]

theorem rounds_round (sign : Sign) (positive : 0 < m) (e : Int) :
    Regular (UnpackedFloat.round .binary64 sign m e) ∧
      Rounds (signed sign (m * 2 ^ e)) (worth (UnpackedFloat.round .binary64 sign m e)) := by
  let places := (e - max ((m.log2 : Int) + e - 52) (-1074)).toNat
  have steps : UnpackedFloat.round .binary64 sign m e =
      roundWithAccuracy .binary64 sign (m * 2 ^ places) (e - places) .exact := by
    simp only [UnpackedFloat.round, decreaseExponent, targetExponent_eq, Nat.shiftLeft_eq, places]
  have full : 2 ^ 52 ≤ m * 2 ^ places ∨ e - (places : Int) ≤ -1074 := by
    by_cases last : e - (places : Int) ≤ -1074
    · exact .inr last
    · refine .inl ?_
      calc 2 ^ 52 ≤ 2 ^ (m.log2 + places) := Nat.pow_le_pow_right (by decide) (by omega)
        _ = 2 ^ m.log2 * 2 ^ places := Nat.pow_add ..
        _ ≤ m * 2 ^ places := Nat.mul_le_mul_right _ (Nat.log2_self_le positive.ne')
  have rounded := rounds_roundWithAccuracy sign (holds_exact (m * 2 ^ places)) full
  have scaled : ((m * 2 ^ places : ℕ) : ℚ) * 2 ^ (e - (places : Int)) = m * 2 ^ e := by
    rw [zpow_sub₀ two_ne_zero, zpow_natCast]
    push_cast
    field_simp
  rwa [steps, ← scaled]

theorem rounds_normalize (m e : Int) (sign : Sign) :
    Regular (UnpackedFloat.normalize .binary64 m e sign) ∧
      Rounds (m * 2 ^ e) (worth (UnpackedFloat.normalize .binary64 m e sign)) := by
  unfold UnpackedFloat.normalize
  rcases lt_trichotomy m 0 with negative | rfl | positive
  · have magnitude : (((-m).toNat : ℕ) : ℚ) = -m := by
      have : (((-m).toNat : ℕ) : ℤ) = -m := Int.toNat_of_nonneg (by omega)
      exact_mod_cast this
    have rounded := rounds_round .negative (m := (-m).toNat) (by omega) e
    rw [magnitude] at rounded
    simpa [signed, Int.compare_eq_lt.2 negative] using rounded
  · exact ⟨.zero sign, .of_eq (by rw [Int.cast_zero, zero_mul]; rfl)⟩
  · have magnitude : ((m.toNat : ℕ) : ℚ) = m := by
      have : ((m.toNat : ℕ) : ℤ) = m := Int.toNat_of_nonneg (by omega)
      exact_mod_cast this
    have rounded := rounds_round .positive (m := m.toNat) (by omega) e
    rw [magnitude] at rounded
    simpa [signed, Int.compare_eq_gt.2 positive] using rounded

/-- The greatest finite double. -/
def greatest : ℚ := (2 ^ 53 - 1) * 2 ^ (971 : ℤ)

theorem greatest_pos : 0 < greatest := by
  rw [greatest]
  positivity

theorem greatest_lt : greatest < 2 ^ 52 * 2 ^ (971 + 1 : ℤ) := by
  rw [← carry_unit, greatest]
  exact mul_lt_mul_of_pos_right (by norm_num) (by positivity)

theorem Canonical.le_of_worth (canonical : Canonical m e) (bound : m * 2 ^ e ≤ greatest) :
    e ≤ 971 := by
  by_contra above
  have full : (2 : ℚ) ^ 52 ≤ m := by exact_mod_cast canonical.full.resolve_right (by omega)
  have beyond : (2 : ℚ) ^ (971 + 1 : ℤ) ≤ 2 ^ e :=
    zpow_le_zpow_right₀ (by norm_num) (by omega)
  have overflow : greatest < m * 2 ^ e :=
    greatest_lt.trans_le (mul_le_mul full beyond (by positivity) (by positivity))
  exact absurd bound overflow.not_ge

theorem toNat_implicit (m : BitVec 52) : (1#1 ++ m).toNat = 2 ^ 52 + m.toNat := by
  rw [BitVec.toNat_append, ← Nat.shiftLeft_add_eq_or_of_lt m.isLt]
  rfl

theorem implicit_pos (m : BitVec 52) : 0 < (1#1 ++ m).toNat := by
  rw [toNat_implicit]
  omega

/-- What the parts of a double stand for. -/
def ofParts (sign : Sign) (exponent : BitVec 11) (mantissa : BitVec 52) : UnpackedFloat :=
  if exponent = -1#11 then
    if mantissa = 0#52 then .infinity sign else .notANumber
  else if exponent = 0#11 then
    if some_digit : mantissa = 0#52 then .zero sign
    else .finite sign mantissa.toNat (exponent.toNat - 1075 + 1)
      (Nat.pos_of_ne_zero fun none => some_digit (BitVec.eq_of_toNat_eq none))
  else .finite sign (1#1 ++ mantissa).toNat (exponent.toNat - 1075) (implicit_pos mantissa)

theorem unpack_eq_ofParts (bits : BitVec 64) :
    UnpackedFloat.unpack .binary64 bits =
      ofParts (Sign.ofBitVec (@unpackSign .binary64 bits)) (@unpackExponent .binary64 bits)
        (@unpackMantissa .binary64 bits) := rfl

theorem sign_packComponents {format : Format} (sign : Sign)
    (exponent : BitVec format.exponentBits) (mantissa : BitVec format.mantissaBitsWithoutImplicit) :
    Sign.ofBitVec (unpackSign (packComponents format sign exponent mantissa)) = sign := by
  have bits : unpackSign (packComponents format sign exponent mantissa) = sign.toBitVec := by
    apply BitVec.eq_of_getElem_eq
    intro i inside
    obtain rfl : i = 0 := by omega
    change ((sign.toBitVec ++ exponent ++ mantissa).extractLsb _ _).getLsbD 0 = _
    simp +arith [BitVec.getElem_append]
  rw [bits]
  cases sign <;> rfl

theorem unpack_packComponents (sign : Sign) (exponent : BitVec 11) (mantissa : BitVec 52) :
    UnpackedFloat.unpack .binary64 (packComponents .binary64 sign exponent mantissa) =
      ofParts sign exponent mantissa := by
  rw [unpack_eq_ofParts, sign_packComponents, unpackExponent_packComponents,
    unpackMantissa_packComponents]

theorem pack_finite (sign : Sign) (positive : 0 < m) :
    UnpackedFloat.pack .binary64 (.finite sign m e positive) =
      if 2 ^ 11 ≤ (e + 1023 + 52).toNat + 1 then packedInfinity .binary64 sign
      else if m.log2 + 1 = 53 then
        packComponents .binary64 sign (BitVec.ofNat 11 (e + 1023 + 52).toNat) (BitVec.ofNat 52 m)
      else packComponents .binary64 sign 0#11 (BitVec.ofNat 52 m) := rfl

theorem finite_congr {n : Nat} {f : Int} {positive : 0 < m} {other : 0 < n} (digits : m = n)
    (places : e = f) : UnpackedFloat.finite sign m e positive = .finite sign n f other := by
  subst digits places
  rfl

theorem unpack_pack_normal (sign : Sign) (positive : 0 < m) (small : m < 2 ^ 53)
    (full : 2 ^ 52 ≤ m) (low : -1074 ≤ e) (high : e ≤ 971) :
    UnpackedFloat.unpack .binary64 (UnpackedFloat.pack .binary64 (.finite sign m e positive)) =
      .finite sign m e positive := by
  have digits : m.log2 = 52 := (Nat.log2_eq_iff positive.ne').2 ⟨full, small⟩
  have exponent : (BitVec.ofNat 11 (e + 1023 + 52).toNat).toNat = (e + 1023 + 52).toNat := by
    rw [BitVec.toNat_ofNat]
    omega
  have finite : BitVec.ofNat 11 (e + 1023 + 52).toNat ≠ -1#11 := by
    intro equal
    have : (e + 1023 + 52).toNat = 2047 := exponent.symm.trans (congrArg BitVec.toNat equal)
    omega
  have normal : BitVec.ofNat 11 (e + 1023 + 52).toNat ≠ 0#11 := by
    intro equal
    have : (e + 1023 + 52).toNat = 0 := exponent.symm.trans (congrArg BitVec.toNat equal)
    omega
  rw [pack_finite, if_neg (by omega), if_pos (by rw [digits]), unpack_packComponents, ofParts,
    if_neg finite, if_neg normal]
  apply finite_congr
  · rw [toNat_implicit, BitVec.toNat_ofNat]
    omega
  · rw [exponent]
    omega

theorem unpack_pack_subnormal (sign : Sign) (positive : 0 < m) (small : m < 2 ^ 52) :
    UnpackedFloat.unpack .binary64 (UnpackedFloat.pack .binary64 (.finite sign m (-1074) positive)) =
      .finite sign m (-1074) positive := by
  have digits : m.log2 < 52 := (Nat.log2_lt positive.ne').2 small
  have mantissa : (BitVec.ofNat 52 m).toNat = m := by
    rw [BitVec.toNat_ofNat, Nat.mod_eq_of_lt small]
  have some_digit : BitVec.ofNat 52 m ≠ 0#52 := by
    intro equal
    have : m = 0 := mantissa.symm.trans (congrArg BitVec.toNat equal)
    omega
  rw [pack_finite, if_neg (by decide), if_neg (by omega), unpack_packComponents, ofParts,
    if_neg (by decide), if_pos rfl, dif_neg some_digit]
  exact finite_congr mantissa rfl

theorem abs_signed (sign : Sign) (x : ℚ) : |signed sign x| = |x| := by
  cases sign with
  | positive => rfl
  | negative => exact abs_neg x

theorem unpack_pack {u : UnpackedFloat} (regular : Regular u) (bound : |worth u| ≤ greatest) :
    UnpackedFloat.unpack .binary64 (UnpackedFloat.pack .binary64 u) = u := by
  cases regular with
  | zero sign => cases sign <;> rfl
  | @finite sign m e positive canonical =>
      have magnitude : m * 2 ^ e ≤ greatest := by
        have nonneg : (0 : ℚ) ≤ m * 2 ^ e := by positivity
        rwa [worth_finite, abs_signed, abs_of_nonneg nonneg] at bound
      by_cases full : 2 ^ 52 ≤ m
      · exact unpack_pack_normal sign positive canonical.small full canonical.low
          (canonical.le_of_worth magnitude)
      · obtain rfl := canonical.full.resolve_left full
        exact unpack_pack_subnormal sign positive (by omega)

theorem unpack_pack_of_large (sign : Sign) (positive : 0 < m) (high : 971 < e) :
    UnpackedFloat.unpack .binary64 (UnpackedFloat.pack .binary64 (.finite sign m e positive)) =
      .infinity sign := by
  rw [pack_finite, if_pos (by omega)]
  cases sign <;> rfl

theorem worth_le_greatest {positive : 0 < m} (canonical : Canonical m e) (high : e ≤ 971) :
    |worth (.finite sign m e positive)| ≤ greatest := by
  have digits : (m : ℚ) + 1 ≤ 2 ^ 53 := by exact_mod_cast canonical.small
  have nonneg : (0 : ℚ) ≤ m * 2 ^ e := by positivity
  rw [worth_finite, abs_signed, abs_of_nonneg nonneg]
  exact mul_le_mul (by linarith) (zpow_le_zpow_right₀ (by norm_num) high) (by positivity)
    (by norm_num)

theorem regular_ofParts {exponent : BitVec 11} {mantissa : BitVec 52}
    (finite : (ofParts sign exponent mantissa).isFinite = true) :
    Regular (ofParts sign exponent mantissa) ∧
      |worth (ofParts sign exponent mantissa)| ≤ greatest := by
  have digits := mantissa.isLt
  have places := exponent.isLt
  by_cases extreme : exponent = -1#11
  · rw [ofParts, if_pos extreme] at finite
    split at finite <;> cases finite
  by_cases least : exponent = 0#11
  · by_cases none : mantissa = 0#52
    · rw [ofParts, if_neg extreme, if_pos least, dif_pos none, worth_zero, abs_zero]
      exact ⟨.zero sign, greatest_pos.le⟩
    · have lowest : (exponent.toNat : ℤ) - 1075 + 1 = -1074 := by
        rw [least]
        rfl
      have canonical : Canonical mantissa.toNat (exponent.toNat - 1075 + 1) :=
        ⟨by omega, lowest.ge, .inr lowest⟩
      rw [ofParts, if_neg extreme, if_pos least, dif_neg none]
      exact ⟨.finite _ canonical, worth_le_greatest canonical (by omega)⟩
  · have whole := toNat_implicit mantissa
    have positive : exponent.toNat ≠ 0 := fun zero => least (BitVec.eq_of_toNat_eq zero)
    have below : exponent.toNat ≠ 2047 := fun full => extreme (BitVec.eq_of_toNat_eq full)
    have canonical : Canonical (1#1 ++ mantissa).toNat (exponent.toNat - 1075) :=
      ⟨by omega, by omega, .inl (by omega)⟩
    rw [ofParts, if_neg extreme, if_neg least]
    exact ⟨.finite _ canonical, worth_le_greatest canonical (by omega)⟩

/-- What a finite double is unpacked to has the digits of a double and is not too large. -/
theorem regular_unpack (bits : BitVec 64)
    (finite : (UnpackedFloat.unpack .binary64 bits).isFinite = true) :
    Regular (UnpackedFloat.unpack .binary64 bits) ∧
      |worth (UnpackedFloat.unpack .binary64 bits)| ≤ greatest := by
  rw [unpack_eq_ofParts] at finite ⊢
  exact regular_ofParts finite

end TwoLevel.Double
