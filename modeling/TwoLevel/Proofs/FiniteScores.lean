import TwoLevel.Scoring.Social
import TwoLevel.Proofs.Outcome
import TwoLevel.Proofs.Degrees

/-!
When scores are finite. Counts and distances always are; blended scores are if the resolution is a
normal number and the centralities can be subtracted without overflow.
-/

namespace TwoLevel

open Double

variable {onset offset rows : Rows} {s : Social} {interactivity resolution : Float}
  {centrality : Centrality} {c : Cube} {l : Literal}

theorem exists_of_mem_zipWith {α β γ : Type} {f : α → β → γ} {left : List α} {right : List β}
    {z : γ} (member : z ∈ left.zipWith f right) : ∃ a ∈ left, ∃ b ∈ right, f a b = z := by
  rw [← List.map_uncurry_zip_eq_zipWith] at member
  obtain ⟨⟨a, b⟩, both, rfl⟩ := List.mem_map.1 member
  have ⟨first, second⟩ := List.of_mem_zip both
  exact ⟨a, first, b, second, rfl⟩

theorem map_zipWith_left {α β γ δ : Type} {f : α → β → γ} {g : γ → δ} {h : α → δ} {left : List α}
    {right : List β} (first : ∀ a b, g (f a b) = h a) (long : left.length ≤ right.length) :
    (left.zipWith f right).map g = left.map h := by
  calc (left.zipWith f right).map g = (left.zip right).map (h ∘ Prod.fst) := by
        rw [← List.map_uncurry_zip_eq_zipWith, List.map_map]
        exact List.map_congr_left fun pair _ => first pair.1 pair.2
    _ = left.map h := by rw [← List.map_map, List.map_fst_zip long]

theorem isFinite_ofNat {count : Nat} (small : count ≤ UInt64.size) :
    (Float.ofNat count).isFinite = true :=
  (approximates_ofNat (natCast_le_greatest small)).finite

theorem Scoring.frequency_offers (size : onset.size < UInt64.size)
    (arity : onset.arity < UInt64.size) : Scoring.frequency.Offers onset :=
  Scoring.offers_of_default (.inl rfl) fun _ bounded =>
    isFinite_ofNat (bounded.trans (max_le size.le arity.le))

/-- A double far enough from the greatest that two of them can be subtracted. -/
structure Moderate (x : Float) : Prop where
  finite : x.isFinite = true
  small : |value x| ≤ greatest / 4

theorem onScale_half_greatest : OnScale (greatest / 2) := by
  have double : (2 : ℚ) ^ (971 : ℤ) = 2 ^ (970 : ℤ) * 2 := zpow_add_one₀ two_ne_zero 970
  refine ⟨2 ^ 53 - 1, 970, by norm_num, by norm_num, ?_⟩
  rw [greatest, double, ← mul_assoc, mul_div_cancel_right₀ _ two_ne_zero]
  congr 1
  norm_num

theorem Moderate.sub {x y : Float} (left : Moderate x) (right : Moderate y) :
    (x - y).isFinite = true ∧ |value (x - y)| ≤ greatest / 2 := by
  have small : |value x - value y| ≤ greatest / 2 := by
    linarith [abs_sub (value x) (value y), left.small, right.small]
  have difference := approximates_sub left.finite right.finite (by linarith [greatest_pos])
  exact ⟨difference.finite, difference.rounds.magnitude_le onScale_half_greatest small⟩

theorem moderate_of_upTo {x : Float} {e : ℤ} (bounded : UpTo (2 ^ e) x) (small : e ≤ 1021) :
    Moderate x := by
  refine ⟨bounded.finite, ?_⟩
  have quarter : (2 : ℚ) ^ (e + 2) = 2 ^ e * 4 := by
    rw [zpow_add₀ two_ne_zero]
    norm_num
  have := two_pow_le_greatest (e := e + 2) (by omega)
  rw [abs_of_nonneg bounded.nonneg]
  linarith [bounded.le]

theorem Rows.arity_eq_of_checkVariables (checked : Rows.checkVariables onset offset = .ok ()) :
    onset.arity = offset.arity := by
  unfold Rows.checkVariables at checked
  split at checked
  · assumption
  · cases checked

namespace Social

/-! ## Blends -/

/-- The settings and the scores of a strategy whose blends cannot overflow. -/
structure Normal (s : Social) : Prop where
  interactivity : UpTo 1 s.interactivity
  finite : s.resolution.isFinite = true
  normal : 2 ^ (-1022 : ℤ) ≤ value s.resolution
  scores : ∀ x ∈ s.scores, UpTo 2 x

theorem upTo_complement {i : Float} {bound : ℚ} (unit : UpTo 1 i) (scale : OnScale bound)
    (le : 1 - value i ≤ bound) : UpTo bound (1 - i) := by
  have nonneg : 0 ≤ value (.ofNat 1) - value i := by
    rw [value_one]
    linarith [unit.le]
  have small : |value (.ofNat 1) - value i| ≤ greatest := by
    rw [abs_of_nonneg nonneg, value_one]
    linarith [unit.nonneg, four_le_greatest]
  refine (approximates_sub (x := .ofNat 1) rfl unit.finite small).upTo scale nonneg ?_
  rwa [value_one]

/-- However its parts are rounded, a blend of two rescaled scores is at most three. -/
theorem upTo_blend {i score frequency : Float} (unit : UpTo 1 i) (first : UpTo 2 score)
    (second : UpTo 2 frequency) : UpTo 3 (i * score + (1 - i) * frequency) := by
  have complement : UpTo 1 (1 - i) := upTo_complement unit onScale_one (by linarith [unit.nonneg])
  have weights : value i + value (1 - i) ≤ 3 / 2 := by
    rcases le_total (value i) (1 / 2) with low | high
    · linarith [complement.le]
    · have half : OnScale (1 / 2) := ⟨1, -1, by norm_num, by norm_num, by norm_num⟩
      linarith [unit.le, (upTo_complement unit half (by linarith)).le]
  have left : UpTo (2 * value i) (i * score) := by
    refine unit.mul first (onScale_value unit.finite).double ?_ ?_
    · linarith [unit.le, four_le_greatest]
    · linarith [mul_le_mul_of_nonneg_left first.le unit.nonneg]
  have right : UpTo (2 * value (1 - i)) ((1 - i) * frequency) := by
    refine complement.mul second (onScale_value complement.finite).double ?_ ?_
    · linarith [complement.le, four_le_greatest]
    · linarith [mul_le_mul_of_nonneg_left second.le complement.nonneg]
  have nonneg := add_nonneg left.nonneg right.nonneg
  have sum : value (i * score) + value ((1 - i) * frequency) ≤ 3 := by
    linarith [left.le, right.le]
  refine (approximates_add left.finite right.finite ?_).upTo onScale_three nonneg sum
  rw [abs_of_nonneg nonneg]
  linarith [four_le_greatest]

theorem Normal.score (normal : s.Normal) (var : Nat) : UpTo 2 (s.score var) := by
  unfold Social.score
  cases found : s.scores[var]? with
  | none => exact upTo_zero zero_le_two
  | some x => exact normal.scores x (Array.mem_of_getElem? found)

theorem Normal.blended_isFinite (normal : s.Normal) (l : Literal) {frequency : Float}
    (rescaled : UpTo 2 frequency) : (s.blended l frequency).isFinite = true :=
  roundTo_isFinite (upTo_blend normal.interactivity (normal.score l.var) rescaled) normal.finite
    normal.normal

/-! ## Growth and removal -/

theorem length_rescale (values : List Float) : (Number.rescale values).length = values.length := by
  unfold Number.rescale
  dsimp only
  split <;> rw [List.length_map]

theorem map_fst_growth (s : Social) (c : Cube) (rows : Rows) :
    (s.growth c rows).map (·.1) = (Scoring.counts c rows).map (·.1) := by
  unfold growth
  apply map_zipWith_left
  · exact fun _ _ => rfl
  · rw [length_rescale, List.length_map]

theorem rescaled_counts (size : rows.size < UInt64.size) (c : Cube) :
    ∀ frequency ∈ Number.rescale ((Scoring.counts c rows).map fun entry => .ofNat entry.2),
      UpTo 2 frequency := by
  have counted : ∀ v ∈ (Scoring.counts c rows).map (fun entry => Float.ofNat entry.2),
      v.isFinite = true ∧ |value v| ≤ greatest / 2 := by
    intro v member
    obtain ⟨⟨l, count⟩, inside, rfl⟩ := List.mem_map.1 member
    obtain ⟨-, -, rfl⟩ := Scoring.mem_counts.1 inside
    have few : ((Scoring.frequencyOf c rows l : ℕ) : ℚ) ≤ 2 ^ (64 : ℤ) := by
      exact_mod_cast (Scoring.frequencyOf_le c rows l).trans size.le
    have := moderate_of_upTo (upTo_ofNat (by norm_num) (by norm_num) few) (by norm_num)
    exact ⟨this.finite, this.small.trans (by linarith [greatest_pos])⟩
  exact rescale_upTo (fun v member => (counted v member).1) fun v member => (counted v member).2

theorem Normal.offers (normal : s.Normal) (size : onset.size < UInt64.size)
    (arity : onset.arity < UInt64.size) : s.scoring.Offers onset := by
  have removes := Scoring.frequency_offers size arity
  constructor
  · exact fun c remainder _ => s.map_fst_growth c remainder
  · intro c remainder smaller entry member
    obtain ⟨counted, -, frequency, rescaled, rfl⟩ := exists_of_mem_zipWith member
    have small := smaller.trans_lt size
    exact normal.blended_isFinite counted.1 (rescaled_counts small c frequency rescaled)
  · exact removes.removal
  · exact removes.removalFinite

/-! ## Settings -/

theorem checkSettings_eq_ok : checkSettings interactivity resolution = .ok () ↔
    inUnit interactivity = true ∧ resolution.isFinite = true ∧ 0 < resolution := by
  unfold checkSettings
  cases inUnit interactivity <;> cases resolution.isFinite <;>
    by_cases positive : 0 < resolution <;>
      simp [positive, bind, Except.bind, pure, Except.pure]

theorem ofRows_eq_ok (built : ofRows onset offset interactivity centrality resolution = .ok s) :
    inUnit interactivity = true ∧ resolution.isFinite = true ∧ onset.arity = offset.arity ∧
      s = ⟨interactivity, resolution, (contrast onset offset centrality).toArray⟩ := by
  unfold ofRows at built
  obtain ⟨_, settings, built⟩ := bind_eq_ok.1 built
  obtain ⟨_, -, built⟩ := bind_eq_ok.1 built
  obtain ⟨_, checked, built⟩ := bind_eq_ok.1 built
  cases built
  obtain ⟨unit, finite, -⟩ := checkSettings_eq_ok.1 settings
  exact ⟨unit, finite, Rows.arity_eq_of_checkVariables checked, rfl⟩

theorem ofRows_of_checked (settings : checkSettings interactivity resolution = .ok ())
    (blend : checkBlend centrality = .ok ()) (same : onset.arity = offset.arity) :
    ofRows onset offset interactivity centrality resolution =
      .ok ⟨interactivity, resolution, (contrast onset offset centrality).toArray⟩ := by
  have checked : Rows.checkVariables onset offset = .ok () := if_pos same
  simp only [ofRows, settings, blend, checked, bind, Except.bind]
  rfl

theorem upTo_of_inUnit (unit : inUnit interactivity = true) : UpTo 1 interactivity := by
  simp only [inUnit, Bool.and_eq_true, decide_eq_true_eq] at unit
  have finite : interactivity.isFinite = true :=
    isFinite_of_le_of_le (x := .ofNat 0) (z := .ofNat 1) rfl rfl unit.1 unit.2
  have nonneg := (le_iff (x := .ofNat 0) rfl finite).1 unit.1
  have le := (le_iff (y := .ofNat 1) finite rfl).1 unit.2
  exact ⟨finite, value_zero.symm.trans_le nonneg, le.trans_eq value_one⟩

end Social

/-! ## Centralities -/

/-- The centralities of the variables in a table can be subtracted. Degrees can; this is not
shown for betweenness, which need not be finite where a number of shortest paths overflows. -/
def Centrality.Tame (centrality : Centrality) (rows : Rows) : Prop :=
  ∀ ids, ∀ x ∈ centrality.scores (Graph.ofRows rows (some Graph.defaultDensity) ids).1, Moderate x

theorem Centrality.tame_degree (size : rows.size < UInt64.size)
    (arity : rows.arity * rows.arity < UInt64.size) : Centrality.degree.Tame rows :=
  fun ids x member => moderate_of_upTo (Graph.degrees_upTo size arity _ ids x member) (by norm_num)

namespace Social

theorem contrast_upTo (on : centrality.Tame onset) (off : centrality.Tame offset) :
    ∀ x ∈ contrast onset offset centrality, UpTo 2 x := by
  have moderate : ∀ difference ∈
      (centrality.scores (Graph.ofRows onset (some Graph.defaultDensity) {}).1).zipWith (· - ·)
        (centrality.scores (Graph.ofRows offset (some Graph.defaultDensity)
          (Graph.ofRows onset (some Graph.defaultDensity) {}).2).1),
      difference.isFinite = true ∧ |value difference| ≤ greatest / 2 := by
    intro difference member
    obtain ⟨x, first, y, second, rfl⟩ := exists_of_mem_zipWith member
    exact (on _ x first).sub (off _ y second)
  exact rescale_upTo (fun x member => (moderate x member).1) fun x member => (moderate x member).2

/-- The least positive number with all its digits. -/
def leastNormal : Float := .ofBits 0x0010000000000000

theorem value_leastNormal : value leastNormal = 2 ^ (-1022 : ℤ) := by
  have unpacked : leastNormal.toModel.unpack =
      .finite .positive (2 ^ 52) (-1074) (by decide) := rfl
  have digits : ((2 ^ 52 : ℕ) : ℚ) = 2 ^ (52 : ℤ) := by norm_num
  rw [value, unpacked, worth_finite, signed, digits, ← zpow_add₀ two_ne_zero]
  rfl

theorem normal_of_ofRows
    (built : ofRows onset offset interactivity centrality resolution = .ok s)
    (normal : leastNormal ≤ resolution) (on : centrality.Tame onset)
    (off : centrality.Tame offset) : s.Normal := by
  obtain ⟨unit, finite, -, rfl⟩ := ofRows_eq_ok built
  refine ⟨upTo_of_inUnit unit, finite, ?_, ?_⟩
  · rw [← value_leastNormal]
    exact (le_iff rfl finite).1 normal
  · intro x member
    exact contrast_upTo on off x (List.mem_toArray.1 member)

end Social

end TwoLevel
