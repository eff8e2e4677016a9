import TwoLevel.Number.Scale
import TwoLevel.Proofs.DoubleOrder

/-!
Rescaled and rounded scores. Values stretched over the unit interval are finite and at most twice
the unit, and a score is rounded to a finite one if the resolution is a normal number.
-/

namespace TwoLevel.Double

open Float.Model (UnpackedFloat)

variable {x y : Float} {values : List Float}

theorem lt_infinity (finite : x.isFinite = true) : x < 1.0 / 0.0 := by
  have unpacked : (1.0 / 0.0 : Float).toModel.unpack = .infinity .positive := rfl
  have unfolded : x < 1.0 / 0.0 ↔ x.toModel.unpack.lt (1.0 / 0.0 : Float).toModel.unpack = true :=
    decide_eq_true_iff
  rw [unfolded, unpacked]
  have regular := regular_of_isFinite finite
  generalize x.toModel.unpack = u at *
  cases regular <;> rfl

theorem neg_infinity_lt (finite : x.isFinite = true) : -1.0 / 0.0 < x := by
  have unpacked : (-1.0 / 0.0 : Float).toModel.unpack = .infinity .negative := rfl
  have unfolded : -1.0 / 0.0 < x ↔ (-1.0 / 0.0 : Float).toModel.unpack.lt x.toModel.unpack = true :=
    decide_eq_true_iff
  rw [unfolded, unpacked]
  have regular := regular_of_isFinite finite
  generalize x.toModel.unpack = u at *
  cases regular <;> rfl

section Extremes

variable {better : Float → Float → Prop} [DecidableRel better] {key : Float → ℚ} {start : Float}

/-- Keeping the better one of two finite doubles in turn leaves one that is best. -/
theorem foldl_best (ordered : ∀ x y : Float, x.isFinite = true → y.isFinite = true →
      (better x y ↔ key x < key y))
    (finite : ∀ v ∈ values, v.isFinite = true) (started : start.isFinite = true) :
    let best := values.foldl (fun best v => if better v best then v else best) start
    best ∈ start :: values ∧ ∀ v ∈ start :: values, key best ≤ key v := by
  induction values generalizing start with
  | nil => simp
  | cons v rest ih =>
      have ⟨here, later⟩ := List.forall_mem_cons.1 finite
      have compared := ordered v start here started
      rw [List.foldl_cons]
      split
      · rename_i improved
        obtain ⟨member, least⟩ := ih later here
        refine ⟨List.mem_cons_of_mem start member, List.forall_mem_cons.2 ⟨?_, least⟩⟩
        exact (least v List.mem_cons_self).trans (compared.1 improved).le
      · rename_i kept
        obtain ⟨member, least⟩ := ih later started
        have ⟨below, others⟩ := List.forall_mem_cons.1 least
        refine ⟨?_, List.forall_mem_cons.2 ⟨below, List.forall_mem_cons.2 ⟨?_, others⟩⟩⟩
        · rcases List.mem_cons.1 member with same | inner
          · exact List.mem_cons.2 (.inl same)
          · exact List.mem_cons_of_mem start (List.mem_cons_of_mem v inner)
        · exact below.trans (not_lt.1 fun less => kept (compared.2 less))

variable (better key) in
theorem foldl_best_of_ne_nil (ordered : ∀ x y : Float, x.isFinite = true → y.isFinite = true →
      (better x y ↔ key x < key y))
    (finite : ∀ v ∈ values, v.isFinite = true) (worst : ∀ v ∈ values, better v start)
    (more : values ≠ []) :
    let best := values.foldl (fun best v => if better v best then v else best) start
    best ∈ values ∧ ∀ v ∈ values, key best ≤ key v := by
  cases values with
  | nil => exact absurd rfl more
  | cons v rest =>
      have ⟨here, later⟩ := List.forall_mem_cons.1 finite
      rw [List.foldl_cons, if_pos (worst v List.mem_cons_self)]
      exact foldl_best ordered later here

end Extremes

/-! ## The unit interval -/

theorem OnScale.double {q : ℚ} (scale : OnScale q) : OnScale (2 * q) := by
  obtain ⟨m, e, small, low, rfl⟩ := scale
  refine ⟨m, e + 1, small, by omega, ?_⟩
  rw [zpow_add_one₀ two_ne_zero]
  ring

theorem OnScale.abs {q : ℚ} (scale : OnScale q) : OnScale |q| := by
  rcases abs_choice q with same | opposite
  · rwa [same]
  · rw [opposite]
    exact scale.neg

theorem OnScale.exists_units {q : ℚ} (scale : OnScale q) : ∃ k : ℤ, q = k * 2 ^ (-1074 : ℤ) := by
  obtain ⟨m, e, -, low, rfl⟩ := scale
  refine ⟨m * 2 ^ (e - -1074).toNat, ?_⟩
  rw [two_zpow_eq low, Int.cast_mul, Int.cast_pow, Int.cast_ofNat, mul_assoc]

/-- Numbers of the scale that differ are at least one unit of the last place apart. -/
theorem OnScale.gap {q r : ℚ} (low : OnScale q) (high : OnScale r) (less : q < r) :
    2 ^ (-1074 : ℤ) ≤ r - q := by
  obtain ⟨j, rfl⟩ := low.exists_units
  obtain ⟨k, rfl⟩ := high.exists_units
  have unit : (0 : ℚ) < 2 ^ (-1074 : ℤ) := by positivity
  have ordered : j < k := by exact_mod_cast lt_of_mul_lt_mul_right less unit.le
  have apart : (1 : ℚ) ≤ k - j := by exact_mod_cast Int.sub_pos.2 ordered
  rw [← sub_mul]
  exact le_mul_of_one_le_left unit.le apart

theorem Rounds.le_double {q r : ℚ} (rounds : Rounds q r) (scale : OnScale r)
    (positive : 2 ^ (-1074 : ℤ) ≤ q) : 0 < r ∧ q ≤ 2 * r := by
  have unit : (0 : ℚ) < 2 ^ (-1074 : ℤ) := by positivity
  have reached : 0 < r := unit.trans_le (rounds.ge _ (onScale_two_pow le_rfl) positive)
  refine ⟨reached, ?_⟩
  by_contra beyond
  have := rounds.ge (2 * r) scale.double (not_le.1 beyond).le
  linarith

/-- A finite double that is not negative and does not exceed a bound. -/
structure UpTo (bound : ℚ) (x : Float) : Prop where
  finite : x.isFinite = true
  nonneg : 0 ≤ value x
  le : value x ≤ bound

theorem four_le_greatest : (4 : ℚ) ≤ greatest :=
  le_of_eq_of_le (by norm_num) (two_pow_le_greatest (e := 2) (by norm_num))

theorem onScale_zero : OnScale 0 := by exact_mod_cast onScale_natCast (n := 0) (by norm_num)

theorem onScale_one : OnScale 1 := by exact_mod_cast onScale_natCast (n := 1) (by norm_num)

theorem onScale_three : OnScale 3 := by exact_mod_cast onScale_natCast (n := 3) (by norm_num)

theorem value_zero : value (.ofNat 0) = 0 := by exact_mod_cast value_ofNat (n := 0) (by norm_num)

theorem value_one : value (.ofNat 1) = 1 := by exact_mod_cast value_ofNat (n := 1) (by norm_num)

theorem one_le_ofNat_iff {n : Nat} : 1 ≤ Float.ofNat n ↔ 1 ≤ n := by
  refine ⟨fun reached => Nat.one_le_iff_ne_zero.2 ?_, fun positive => ?_⟩
  · rintro rfl
    have ordered := (le_iff rfl rfl).1 reached
    rw [value_zero] at ordered
    exact absurd (value_one.symm.trans_le ordered) (by norm_num)
  · have counted : (1 : ℚ) ≤ n := by exact_mod_cast positive
    by_cases small : (n : ℚ) ≤ greatest
    · have near := approximates_ofNat small
      exact (le_iff rfl near.finite).2 (value_one.trans_le (near.rounds.ge 1 onScale_one counted))
    · have digits : 2 ^ 53 ≤ n := by
        by_contra few
        exact small (natCast_le_greatest (by omega))
      obtain ⟨u, steps, regular, rounds⟩ := ofNat_eq_pack digits
      rw [steps]
      exact le_pack rfl regular (value_one.trans_le (rounds.ge 1 onScale_one counted))

theorem upTo_zero {bound : ℚ} (nonneg : 0 ≤ bound) : UpTo bound (.ofNat 0) :=
  ⟨rfl, value_zero.ge, value_zero.trans_le nonneg⟩

theorem Approximates.upTo {q bound : ℚ} (approximates : Approximates x q) (scale : OnScale bound)
    (nonneg : 0 ≤ q) (le : q ≤ bound) : UpTo bound x where
  finite := approximates.finite
  nonneg := approximates.rounds.ge 0 onScale_zero nonneg
  le := approximates.rounds.le bound scale le

theorem upTo_ofNat {k : Nat} {e : ℤ} (low : 0 ≤ e) (high : e ≤ 1023) (le : (k : ℚ) ≤ 2 ^ e) :
    UpTo (2 ^ e) (.ofNat k) :=
  (approximates_ofNat (le.trans (two_pow_le_greatest high))).upTo (onScale_two_pow (by omega))
    (Nat.cast_nonneg k) le

/-- A difference within a greater one: however both are rounded, their quotient is at most two. -/
theorem upTo_quotient {v least most : Float} (finite : v.isFinite = true)
    (finite_least : least.isFinite = true) (finite_most : most.isFinite = true)
    (above : value least ≤ value v) (below : value v ≤ value most)
    (spread : value least < value most) (range : value most - value least ≤ greatest) :
    UpTo 2 ((v - least) / (most - least)) := by
  have whole := approximates_sub finite_most finite_least (by
    rwa [abs_of_pos (sub_pos.2 spread)])
  have part := approximates_sub finite finite_least (by
    rw [abs_of_nonneg (sub_nonneg.2 above)]
    linarith)
  have apart : 2 ^ (-1074 : ℤ) ≤ value most - value least :=
    (onScale_value finite_least).gap (onScale_value finite_most) spread
  obtain ⟨positive, reached⟩ := whole.rounds.le_double (onScale_value whole.finite) apart
  have numerator : UpTo (2 * value (most - least)) (v - least) :=
    part.upTo (onScale_value whole.finite).double (sub_nonneg.2 above) (by linarith)
  have low : 0 ≤ value (v - least) / value (most - least) :=
    div_nonneg numerator.nonneg positive.le
  have high : value (v - least) / value (most - least) ≤ 2 :=
    (div_le_iff₀ positive).2 numerator.le
  have quotient := approximates_div part.finite whole.finite positive.ne' (by
    rw [abs_of_nonneg low]
    linarith [four_le_greatest])
  exact quotient.upTo (onScale_natCast (n := 2) (by norm_num)) low high

theorem least_spec (finite : ∀ v ∈ values, v.isFinite = true) (more : values ≠ []) :
    let least := values.foldl (fun least v => if v < least then v else least) (1.0 / 0.0)
    least ∈ values ∧ ∀ v ∈ values, value least ≤ value v :=
  foldl_best_of_ne_nil (· < ·) value (fun _ _ => lt_iff) finite
    (fun v member => lt_infinity (finite v member)) more

theorem most_spec (finite : ∀ v ∈ values, v.isFinite = true) (more : values ≠ []) :
    let most := values.foldl (fun most v => if most < v then v else most) (-1.0 / 0.0)
    most ∈ values ∧ ∀ v ∈ values, value v ≤ value most := by
  have ⟨member, best⟩ := foldl_best_of_ne_nil (fun v best => best < v) (-value ·)
    (fun _ _ left right => (lt_iff right left).trans neg_lt_neg_iff.symm) finite
    (fun v member => neg_infinity_lt (finite v member)) more
  exact ⟨member, fun v inside => neg_le_neg_iff.1 (best v inside)⟩

theorem rescale_upTo (finite : ∀ v ∈ values, v.isFinite = true)
    (small : ∀ v ∈ values, |value v| ≤ greatest / 2) :
    ∀ r ∈ Number.rescale values, UpTo 2 r := by
  intro r member
  unfold Number.rescale at member
  dsimp only at member
  split at member
  · obtain ⟨v, -, rfl⟩ := List.mem_map.1 member
    exact upTo_zero zero_le_two
  · rename_i spread
    obtain ⟨v, inside, rfl⟩ := List.mem_map.1 member
    have more := List.ne_nil_of_mem inside
    have ⟨in_least, least⟩ := least_spec finite more
    have ⟨in_most, most⟩ := most_spec finite more
    generalize values.foldl (fun least v => if v < least then v else least) (1.0 / 0.0) = low at *
    generalize values.foldl (fun most v => if most < v then v else most) (-1.0 / 0.0) = high at *
    have below := most v inside
    have differ : value low ≠ value high := by
      intro same
      simp [(beq_iff (finite low in_least) (finite high in_most)).2 same] at spread
    have ⟨bottom, _⟩ := abs_le.1 (small low in_least)
    have ⟨_, top⟩ := abs_le.1 (small high in_most)
    exact upTo_quotient (finite v inside) (finite low in_least) (finite high in_most)
      (least v inside) below (lt_of_le_of_ne ((least v inside).trans below) differ) (by linarith)

/-! ## Whole multiples -/

theorem value_abs (finite : x.isFinite = true) : value x.abs = |value x| :=
  (approximates_abs finite).rounds.eq (onScale_value finite).abs

theorem abs_lt_iff (finite : x.isFinite = true) :
    x.abs < 4503599627370496 ↔ |value x| < 2 ^ 52 := by
  have bound : value (.ofNat 4503599627370496) = 2 ^ 52 := by
    rw [value_ofNat (by norm_num)]
    norm_num
  have compared : x.abs < .ofNat 4503599627370496 ↔ _ := lt_iff (approximates_abs finite).finite rfl
  rwa [bound, value_abs finite] at compared

theorem value_succ {n : UInt64} (small : n.toNat + 1 < 2 ^ 53) :
    (n.toFloat + 1).isFinite = true ∧ value (n.toFloat + 1) = n.toNat + 1 := by
  have sum : value n.toFloat + value (.ofNat 1) = (n.toNat + 1 : ℕ) := by
    rw [value_toFloat (by omega), value_one, Nat.cast_succ]
  have next := approximates_add (approximates_toFloat n).finite (y := .ofNat 1) rfl (by
    rw [sum, Nat.abs_cast]
    exact natCast_le_greatest (by omega))
  rw [sum] at next
  exact ⟨next.finite, by rw [← Nat.cast_succ]; exact next.rounds.eq (onScale_natCast small)⟩

theorem roundHalfAway_of_large (finite : x.isFinite = true) (large : 2 ^ 52 ≤ value x) :
    Number.roundHalfAway x = x := by
  have above : ¬ x.abs < 4503599627370496 := by
    rw [abs_lt_iff finite, not_lt]
    exact large.trans (le_abs_self _)
  rw [Number.roundHalfAway, if_neg above]

/-- A number that is not too large is rounded to the whole number below it or to the next one. -/
theorem roundHalfAway_of_small (finite : x.isFinite = true) (nonneg : 0 ≤ value x)
    (small : value x < 2 ^ 52) :
    (Number.roundHalfAway x).isFinite = true ∧ ∃ n : ℕ, (n : ℚ) ≤ value x ∧
      (value (Number.roundHalfAway x) = n ∨ value (Number.roundHalfAway x) = n + 1) := by
  have magnitude : value x.abs = value x := by rw [value_abs finite, abs_of_nonneg nonneg]
  have whole := toNat_toUInt64_le (approximates_abs finite).finite (magnitude.symm ▸ nonneg)
  rw [magnitude] at whole
  have digits : x.abs.toUInt64.toNat < 2 ^ 52 := by exact_mod_cast whole.trans_lt small
  have in_range : x.abs < 4503599627370496 := by
    rwa [abs_lt_iff finite, abs_of_nonneg nonneg]
  have not_negative : ¬ x < 0 := by
    intro negative
    have less := (lt_iff (y := .ofNat 0) finite rfl).1 negative
    exact absurd (value_zero ▸ less) nonneg.not_gt
  rw [Number.roundHalfAway, if_pos in_range, if_neg not_negative]
  split
  · exact ⟨(approximates_toFloat _).finite, _, whole, .inl (value_toFloat (by omega))⟩
  · have ⟨next, successor⟩ := value_succ (n := x.abs.toUInt64) (by omega)
    exact ⟨next, _, whole, .inr successor⟩

theorem UpTo.div {resolution : Float} {start bound : ℚ} (bounded : UpTo start x)
    (finite : resolution.isFinite = true) (positive : 0 < value resolution) (scale : OnScale bound)
    (small : bound ≤ greatest) (le : value x ≤ bound * value resolution) :
    UpTo bound (x / resolution) := by
  have nonneg : 0 ≤ value x / value resolution := div_nonneg bounded.nonneg positive.le
  have below : value x / value resolution ≤ bound := (div_le_iff₀ positive).2 le
  refine (approximates_div bounded.finite finite positive.ne' ?_).upTo scale nonneg below
  rw [abs_of_nonneg nonneg]
  exact below.trans small

theorem UpTo.mul {start next bound : ℚ} (left : UpTo start x) (right : UpTo next y)
    (scale : OnScale bound) (small : bound ≤ greatest) (le : value x * value y ≤ bound) :
    UpTo bound (x * y) := by
  have nonneg : 0 ≤ value x * value y := mul_nonneg left.nonneg right.nonneg
  refine (approximates_mul left.finite right.finite ?_).upTo scale nonneg le
  rw [abs_of_nonneg nonneg]
  exact le.trans small

/-- The greatest quotient of a score by a normal number. -/
def widest : ℚ := 3 * 2 ^ (1022 : ℤ)

theorem onScale_widest : OnScale widest := ⟨3, 1022, by norm_num, by norm_num, rfl⟩

theorem widest_le_greatest : widest ≤ greatest := by
  have unit : (2 : ℚ) ^ (1022 : ℤ) = 2 ^ (51 : ℤ) * 2 ^ (971 : ℤ) := by
    rw [← zpow_add₀ two_ne_zero]
    rfl
  rw [widest, greatest, unit, ← mul_assoc]
  exact mul_le_mul_of_nonneg_right (by norm_num) (by positivity)

/-- By a fine resolution a score becomes a large multiple, by a coarse one it becomes none or one:
the product with the resolution is finite either way. -/
theorem roundTo_isFinite {resolution : Float} (bounded : UpTo 3 x)
    (finite : resolution.isFinite = true) (normal : 2 ^ (-1022 : ℤ) ≤ value resolution) :
    (Number.roundTo resolution x).isFinite = true := by
  have positive : 0 < value resolution := lt_of_lt_of_le (by positivity) normal
  have divisor : UpTo greatest resolution :=
    ⟨finite, positive.le, (le_abs_self _).trans (value_le_greatest finite)⟩
  have score := bounded.le
  have wide : UpTo widest (x / resolution) := by
    have units : (3 : ℚ) = widest * 2 ^ (-1022 : ℤ) := by
      rw [widest, mul_assoc, ← zpow_add₀ two_ne_zero]
      norm_num
    have scaled := mul_le_mul_of_nonneg_left normal (by rw [widest]; positivity : 0 ≤ widest)
    exact bounded.div finite positive onScale_widest widest_le_greatest (by linarith)
  rcases lt_or_ge (value (x / resolution)) (2 ^ 52) with small | large
  · have ⟨rounded, n, below, near⟩ := roundHalfAway_of_small wide.finite wide.nonneg small
    have multiple : UpTo (n + 1) (Number.roundHalfAway (x / resolution)) := by
      have : (0 : ℚ) ≤ n := Nat.cast_nonneg n
      rcases near with same | next
      · exact ⟨rounded, same.symm ▸ this, by linarith⟩
      · exact ⟨rounded, by linarith, next.le⟩
    rcases lt_or_ge (value resolution) 4 with fine | coarse
    · refine (multiple.mul divisor (onScale_two_pow (e := 55) (by norm_num))
        (two_pow_le_greatest (by norm_num)) ?_).finite
      calc value (Number.roundHalfAway (x / resolution)) * value resolution
          ≤ (n + 1) * 4 := mul_le_mul multiple.le fine.le positive.le (by positivity)
        _ ≤ 2 ^ (55 : ℤ) := by
            norm_num at small ⊢
            linarith
    · have three_quarters : OnScale (3 / 4) := ⟨3, -2, by norm_num, by norm_num, by norm_num⟩
      have low := (bounded.div finite positive three_quarters (by linarith [four_le_greatest])
        (by linarith)).le
      have none : n = 0 := by
        have : (n : ℚ) < 1 := by linarith
        exact Nat.lt_one_iff.1 (by exact_mod_cast this)
      have unit : value (Number.roundHalfAway (x / resolution)) ≤ 1 := by
        simpa [none] using multiple.le
      exact (multiple.mul divisor (onScale_value finite) divisor.le
        (mul_le_of_le_one_left positive.le unit)).finite
  · rw [Number.roundTo, roundHalfAway_of_large wide.finite large]
    have fine : value resolution < 1 := by
      by_contra coarse
      have := (bounded.div finite positive onScale_three (by linarith [four_le_greatest])
        (by linarith)).le
      linarith
    exact (wide.mul divisor onScale_widest widest_le_greatest
      ((mul_le_of_le_one_right wide.nonneg fine.le).trans wide.le)).finite

end TwoLevel.Double
