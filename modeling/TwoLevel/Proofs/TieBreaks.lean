import Mathlib.Algebra.Order.Floor.Div
import Mathlib.Data.Set.Card
import Mathlib.Order.Interval.Finset.Nat
import TwoLevel.Proofs.Selection
import TwoLevel.Proofs.DoubleOrder

/-!
The law of tie-breaks. A best candidate is one of those whose finite score no finite score exceeds,
and a fair draw decides among them. A draw multiplies a word with the number of candidates: the high
half of the product is an index, and the word is refused unless the low half lies in a zone, which
as many words reach for one index as for any other. How many words a draw takes depends on the words
and on the number of candidates only.
-/

namespace TwoLevel

variable {α : Type} {source next : Source} {r i : Nat} {word : UInt32}

namespace Source

/-! ## One word -/

/-- The leading zeros of a number in 32 bits. -/
def leadingZeros (r : Nat) : Nat := (BitVec.ofNat 32 r).clz.toNat

/-- What a word says if there are `r` candidates. -/
structure Fair (r : Nat) : Prop where
  accepted : ∀ word, accepts r word = true ↔
    word.toNat * r % UInt32.size ≤ (r <<< leadingZeros r) - 1
  index : ∀ word, indexOf r word = word.toNat * r / UInt32.size
  uniform : ∀ i < r,
    {word | accepts r word = true ∧ indexOf r word = i}.ncard = 2 ^ leadingZeros r
  /-- A word that stands for no candidate is refused. -/
  other : ∀ word, accepts r word = true → indexOf r word < r

theorem leadingZeros_spec (positive : 0 < r) (small : r < UInt32.size) :
    leadingZeros r < 32 ∧ 2 ^ (31 - leadingZeros r) ≤ r ∧ r < 2 ^ (32 - leadingZeros r) := by
  have same : (BitVec.ofNat 32 r).toNat = r := by rw [BitVec.toNat_ofNat, Nat.mod_eq_of_lt small]
  have nonzero : BitVec.ofNat 32 r ≠ 0#32 := by
    intro zero
    rw [zero] at same
    exact positive.ne same
  refine ⟨BitVec.lt_def.1 (BitVec.clz_lt_iff_ne_zero.2 nonzero), ?_, ?_⟩
  · have low := BitVec.two_pow_sub_clz_le_toNat_of_ne_zero (by decide) nonzero
    rwa [same] at low
  · have high := (BitVec.ofNat 32 r).toNat_lt_two_pow_sub_clz
    rwa [same] at high

theorem share_eq (positive : 0 < r) (small : r < UInt32.size) : share r = 2 ^ leadingZeros r := by
  obtain ⟨below, low, high⟩ := leadingZeros_spec positive small
  have log : r.log2 = 31 - leadingZeros r := by
    rw [Nat.log2_eq_iff positive.ne', show 31 - leadingZeros r + 1 = 32 - leadingZeros r by omega]
    exact ⟨low, high⟩
  rw [share, Nat.one_shiftLeft, log, Nat.sub_sub_self (by omega)]

/-- The shares of all candidates are no more than there are words. -/
theorem mul_share_le (positive : 0 < r) (small : r < UInt32.size) : r * share r ≤ UInt32.size := by
  obtain ⟨below, -, high⟩ := leadingZeros_spec positive small
  rw [share_eq positive small]
  calc r * 2 ^ leadingZeros r ≤ 2 ^ (32 - leadingZeros r) * 2 ^ leadingZeros r :=
        Nat.mul_le_mul_right _ high.le
    _ = UInt32.size := by
        rw [← pow_add, Nat.sub_add_cancel below.le]
        rfl

theorem accepts_iff (positive : 0 < r) (small : r < UInt32.size) : accepts r word = true ↔
    word.toNat * r % UInt32.size ≤ (r <<< leadingZeros r) - 1 := by
  have zone : 0 < r * share r := by
    rw [share_eq positive small]
    positivity
  rw [accepts, decide_eq_true_eq, Nat.shiftLeft_eq, ← share_eq positive small]
  exact Nat.lt_iff_le_pred zone

/-- The products that stand for an index, in an interval as long as the zone, are the multiples from
the first one in it on. -/
theorem quotient_iff {size share v : Nat} (positive : 0 < r) (fits : r * share ≤ size) :
    v * r % size < r * share ∧ v * r / size = i ↔
      (i * size) ⌈/⌉ r ≤ v ∧ v < (i * size) ⌈/⌉ r + share := by
  have above (w : Nat) : (i * size) ⌈/⌉ r ≤ w ↔ i * size ≤ r * w := ceilDiv_le_iff_le_mul positive
  have parts : v * r % size < r * share ∧ v * r / size = i ↔
      i * size ≤ r * v ∧ r * v < i * size + r * share := by
    rw [mul_comm v r]
    have whole := Nat.div_add_mod (r * v) size
    constructor
    · rintro ⟨low, rfl⟩
      rw [mul_comm] at whole
      omega
    · rintro ⟨least, most⟩
      have quotient : r * v / size = i :=
        Nat.div_eq_of_lt_le least (by rw [Nat.succ_mul]; omega)
      rw [quotient, mul_comm] at whole
      exact ⟨by omega, quotient⟩
  rw [parts, above]
  refine and_congr_right fun _ => ?_
  rw [← not_le, ← not_le, not_iff_not]
  rcases lt_or_ge v share with few | enough
  · have short : r * v < r * share := Nat.mul_lt_mul_of_pos_left few positive
    omega
  · obtain ⟨w, rfl⟩ := Nat.exists_eq_add_of_le' enough
    rw [Nat.add_le_add_iff_right, above, mul_add]
    omega

theorem uniform (positive : 0 < r) (small : r < UInt32.size) (inside : i < r) :
    {word | accepts r word = true ∧ indexOf r word = i}.ncard = 2 ^ leadingZeros r := by
  have fits := mul_share_le positive small
  have words : UInt32.toNat '' {word | accepts r word = true ∧ indexOf r word = i} =
      Finset.Ico ((i * UInt32.size) ⌈/⌉ r) ((i * UInt32.size) ⌈/⌉ r + share r) := by
    ext v
    rw [Finset.coe_Ico, Set.mem_Ico, ← quotient_iff positive fits]
    constructor
    · rintro ⟨word, ⟨accepted, index⟩, rfl⟩
      exact ⟨of_decide_eq_true accepted, index⟩
    · rintro ⟨low, high⟩
      -- an index below the number of candidates is the high half of no greater number
      have bounded : v < UInt32.size := by
        have := (Nat.div_lt_iff_lt_mul (by decide)).1 (high.trans_lt inside)
        rw [mul_comm] at this
        exact lt_of_mul_lt_mul_left this (Nat.zero_le r)
      have same : (UInt32.ofNat v).toNat = v := UInt32.toNat_ofNat_of_lt' bounded
      refine ⟨UInt32.ofNat v, ⟨?_, ?_⟩, same⟩
      · rw [accepts, same]
        exact decide_eq_true low
      · rw [indexOf, same]
        exact high
  have injective : Function.Injective UInt32.toNat := fun _ _ => UInt32.toNat_inj.1
  rw [← Set.ncard_image_of_injective _ injective, words, Set.ncard_coe_finset,
    Nat.card_Ico, Nat.add_sub_cancel_left, share_eq positive small]

theorem fair (positive : 0 < r) (small : r < UInt32.size) : Fair r :=
  ⟨fun _ => accepts_iff positive small, fun _ => rfl, fun _ => uniform positive small,
    fun word _ => indexOf_lt positive word⟩

/-! ## Many words -/

/-- A draw with no bound: it takes the index of the first word that is accepted. -/
inductive Draws (r : Nat) : Source → Nat → Source → Prop
  | accepted {source : Source} (accepted : accepts r source.peek = true) :
      Draws r source (indexOf r source.peek) (source.skip 1)
  | refused {source next : Source} {i : Nat} (refused : accepts r source.peek = false)
      (later : Draws r (source.skip 1) i next) : Draws r source i next

theorem Draws.position_lt (draws : Draws r source i next) : source.position < next.position := by
  induction draws with
  | accepted => exact Nat.lt_succ_self _
  | refused _ _ ih => exact (Nat.lt_succ_self _).trans ih

theorem Draws.lt (draws : Draws r source i next) : i < r := by
  induction draws with
  | accepted accepted =>
      refine indexOf_lt (Nat.pos_of_ne_zero ?_) _
      rintro rfl
      simp [accepts] at accepted
  | refused _ _ ih => exact ih

theorem position_lt_below (r : Nat) (source : Source) (patience : Nat) :
    source.position < (below r source patience).2.position := by
  induction patience generalizing source with
  | zero => exact Nat.lt_succ_self _
  | succ patience ih =>
      rw [below]
      split
      · exact Nat.lt_succ_self _
      · exact (Nat.lt_succ_self _).trans (ih (source.skip 1))

/-- A draw is not broken off before it has refused as many words as it has patience for. -/
theorem below_of_draws {patience : Nat} (draws : Draws r source i next)
    (soon : next.position ≤ source.position + patience + 1) :
    below r source patience = (i, next) := by
  induction draws generalizing patience with
  | accepted accepted =>
      cases patience with
      | zero => rfl
      | succ patience => rw [below, if_pos accepted]
  | @refused source next i refused later ih =>
      have further : source.position + 1 < next.position := later.position_lt
      cases patience with
      | zero => omega
      | succ patience =>
          rw [below, if_neg (by rw [refused]; exact Bool.false_ne_true)]
          have rest : next.position ≤ source.position + 1 + patience + 1 := by omega
          exact ih rest

theorem choose?_of_ne_nil {candidates : List α} (more : candidates ≠ []) :
    source.choose? candidates = (candidates[(below candidates.length source patience).1]?,
      (below candidates.length source patience).2) := by
  rw [choose?, if_neg (by simpa using more)]

theorem choose?_of_draws {candidates : List α} (draws : Draws candidates.length source i next)
    (soon : next.position ≤ source.position + patience + 1) :
    source.choose? candidates = (candidates[i]?, next) := by
  have more : candidates ≠ [] := List.ne_nil_of_length_pos (Nat.zero_lt_of_lt draws.lt)
  rw [choose?_of_ne_nil more, below_of_draws draws soon]

/-- How many words a choice takes does not depend on what there is to choose from. -/
theorem choose?_snd_eq {β : Type} {candidates : List α} {others : List β}
    (same : candidates.length = others.length) :
    (source.choose? candidates).2 = (source.choose? others).2 := by
  by_cases none : candidates = []
  · obtain rfl := none
    rw [List.eq_nil_of_length_eq_zero same.symm, choose?, choose?, List.isEmpty_nil,
      List.isEmpty_nil, if_pos rfl, if_pos rfl]
  · have more : others ≠ [] := by
      rintro rfl
      exact none (List.eq_nil_of_length_eq_zero same)
    rw [choose?_of_ne_nil none, choose?_of_ne_nil more, same]

theorem position_lt_choose? {candidates : List α} (more : candidates ≠ []) :
    source.position < (source.choose? candidates).2.position := by
  rw [choose?_of_ne_nil more]
  exact position_lt_below ..

end Source

/-! ## The candidates of a draw -/

section

variable {scored : List (α × Float)}

/-- A finite score that no finite score exceeds. -/
def Unbeaten (scored : List (α × Float)) (score : Float) : Prop :=
  score.isFinite = true ∧ ∀ other ∈ scored, other.2.isFinite = true → ¬ score < other.2

instance (scored : List (α × Float)) (score : Float) : Decidable (Unbeaten scored score) :=
  inferInstanceAs (Decidable (_ ∧ _))

/-- The candidates with the best scores, in order and with repetition. -/
def tied (scored : List (α × Float)) : List α :=
  (scored.filter fun entry => Unbeaten scored entry.2).map (·.1)

theorem leaders_eligible (scored : List (α × Float)) : leaders (eligible scored) = tied scored := by
  have finite : ∀ entry ∈ eligible scored, entry.2.isFinite = true :=
    fun entry member => (List.mem_filter.1 member).2
  have ordered : ∀ x y : Float, x.isFinite = true → y.isFinite = true →
      (Double.value x < Double.value y ↔ x < y) :=
    fun x y left right => (Double.lt_iff left right).symm
  have best (entry : α × Float) (counts : entry.2.isFinite = true) :
      (∀ other ∈ (eligible scored).map fun entry => (entry.1, Double.value entry.2),
        ¬ Double.value entry.2 < other.2) ↔
          ∀ other ∈ scored, other.2.isFinite = true → ¬ entry.2 < other.2 := by
    rw [List.forall_mem_map, eligible]
    simp only [List.mem_filter, and_imp]
    refine forall_congr' fun other => forall_congr' fun _ => forall_congr' fun counts' => ?_
    rw [Double.lt_iff counts counts']
  rw [← leaders_map ordered finite, leaders_eq, List.filter_map, List.map_map, tied]
  refine congrArg (List.map _) ?_
  change (scored.filter (·.2.isFinite)).filter _ = _
  rw [List.filter_filter]
  refine List.filter_congr fun entry _ => ?_
  rw [Function.comp_apply]
  cases counts : entry.2.isFinite with
  | false => simp [Unbeaten, counts]
  | true =>
      rw [Bool.and_true, decide_eq_decide, best entry counts, Unbeaten, counts]
      exact (and_iff_right rfl).symm

theorem selectBest_eq (scored : List (α × Float)) (source : Source) :
    selectBest scored source = source.choose? (tied scored) := by
  rw [selectBest, leaders_eligible]

theorem mem_tied {a : α} :
    a ∈ tied scored ↔ ∃ score, (a, score) ∈ scored ∧ Unbeaten scored score := by
  simp [tied]

theorem tied_eq_nil : tied scored = [] ↔ ∀ entry ∈ scored, entry.2.isFinite = false := by
  rw [← leaders_eligible, leaders_eq_nil not_lt_self, eligible, List.filter_eq_nil_iff]
  simp

end

/-- A choice of a best candidate fails, and draws nothing, exactly if no score is finite; otherwise
it takes one of the candidates with the best finite score. Which one is said by the first word that
is accepted; all candidates with the best score have the same share of the words, and the number of
words that are drawn is the same for any other candidates as many of which are best. -/
theorem selectBest_law (scored : List (α × Float)) (source : Source) :
    (selectBest scored source = (none, source) ↔ ∀ entry ∈ scored, entry.2.isFinite = false) ∧
    ((∃ entry ∈ scored, entry.2.isFinite = true) → ∃ a score next,
      selectBest scored source = (some a, next) ∧ (a, score) ∈ scored ∧ Unbeaten scored score ∧
        source.position < next.position) ∧
    (∀ i next, Source.Draws (tied scored).length source i next →
      next.position ≤ source.position + Source.patience + 1 →
      i < (tied scored).length ∧ selectBest scored source = ((tied scored)[i]?, next)) ∧
    (∀ {β : Type} (others : List (β × Float)), (tied others).length = (tied scored).length →
      (selectBest others source).2 = (selectBest scored source).2) ∧
    ∀ r, 0 < r → r < UInt32.size → Source.Fair r := by
  simp only [selectBest_eq]
  refine ⟨?_, ?_, ?_, ?_, ?_⟩
  · rw [← tied_eq_nil]
    constructor
    · exact fun nothing => Source.choose?_eq_none.1 (congrArg Prod.fst nothing)
    · intro none
      rw [none, Source.choose?, List.isEmpty_nil, if_pos rfl]
  · rintro ⟨entry, listed, finite⟩
    have more : tied scored ≠ [] := by
      intro none
      rw [tied_eq_nil.1 none entry listed] at finite
      cases finite
    cases chosen : source.choose? (tied scored) with
    | mk choice next =>
        have further : source.position < (source.choose? (tied scored)).2.position :=
          Source.position_lt_choose? more
        rw [chosen] at further
        cases choice with
        | none => exact absurd (Source.choose?_eq_none.1 (congrArg Prod.fst chosen)) more
        | some a =>
            obtain ⟨score, member, best⟩ := mem_tied.1 (Source.mem_of_choose? chosen)
            exact ⟨a, score, next, rfl, member, best, further⟩
  · exact fun i next draws soon => ⟨draws.lt, Source.choose?_of_draws draws soon⟩
  · exact fun others same => Source.choose?_snd_eq same
  · exact fun r positive small => Source.fair positive small

/-- Of two best candidates the first word names none, the second word the second one. -/
theorem selectBest_law_refused :
    selectBest [('a', 0 / 0), ('b', 2), ('c', 1), ('d', 2), ('e', 1 / 0)]
        (.ofWords #[0x60000000, 0x80000000]) =
      (some 'd', (Source.ofWords #[0x60000000, 0x80000000]).skip 2) ∧
    {word | Source.accepts 2 word = true ∧ Source.indexOf 2 word = 1}.ncard = 2 ^ 30 := by
  have best : tied [('a', 0 / 0), ('b', 2), ('c', 1), ('d', 2), ('e', 1 / 0)] = ['b', 'd'] := by
    decide +kernel
  have draws : Source.Draws 2 (.ofWords #[0x60000000, 0x80000000]) 1
      ((Source.ofWords #[0x60000000, 0x80000000]).skip 2) :=
    .refused (by decide) (.accepted (by decide))
  obtain ⟨-, -, chosen, -, fair⟩ := selectBest_law
    [('a', 0 / 0), ('b', 2), ('c', 1), ('d', 2), ('e', 1 / 0)]
    (.ofWords #[0x60000000, 0x80000000])
  rw [best] at chosen
  exact ⟨(chosen 1 _ draws (by decide)).2, (fair 2 (by decide) (by decide)).uniform 1 (by decide)⟩

end TwoLevel
