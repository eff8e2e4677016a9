import TwoLevel.Proofs.FiniteScores

/-!
The lineages of an expansion, for any scoring. They are interleaved in one queue, and two of them
may end in the same prime; still each implicant has an heir of its own, a prime that is left of it
when literals are taken away one at a time, and there are no other primes.
-/

namespace TwoLevel

variable {scoring : Scoring} {offset : Rows} {budget : Option Nat} {implicants primes set : CubeSet}
  {queue rest heirs : List Cube} {nodes : Nat} {c : Cube} {l : Literal} {source : Source}

/-! ## Heirs -/

/-- What can be left of a cube that loses removable literals, one at a time, until it has none. -/
inductive Rows.Heir (offset : Rows) (c : Cube) : Cube → Prop
  | fixed (fixed : offset.removable c = []) : Heir offset c c
  | shed {d : Cube} {l : Literal} (removable : l ∈ offset.removable d)
      (rest : Heir offset c (d.erase l)) : Heir offset c d

theorem Rows.Heir.rotate (removable : l ∈ offset.removable c)
    (inherit : List.Forall₂ offset.Heir heirs (rest ++ [c.erase l])) :
    ∃ first others, heirs = others ++ [first] ∧
      List.Forall₂ offset.Heir (first :: others) (c :: rest) := by
  -- What is left of the cube at the end of the queue is left of it at the front too.
  have others := List.forall₂_take_append heirs rest [c.erase l] inherit
  have last := List.forall₂_drop_append heirs rest [c.erase l] inherit
  obtain ⟨first, beyond, heir, done, split⟩ := List.forall₂_cons_right_iff.1 last
  rw [List.forall₂_nil_right_iff.1 done] at split
  refine ⟨first, heirs.take rest.length, ?_, .cons (.shed removable heir) others⟩
  rw [← split, List.take_append_drop]

theorem expandFrom_heirs
    (run : (expandFrom scoring offset budget queue primes nodes source).result = .ok set) :
    ∃ heirs, List.Forall₂ offset.Heir heirs queue ∧ ∀ c, c ∈ set ↔ c ∈ heirs ∨ c ∈ primes := by
  fun_induction expandFrom scoring offset budget queue primes nodes source with
  | case1 primes nodes source =>
      cases run
      exact ⟨[], .nil, by simp⟩
  | case2 => cases run
  | case3 primes nodes source c rest allowed candidates none_left ih =>
      obtain ⟨heirs, inherit, collected⟩ := ih run
      refine ⟨c :: heirs, .cons (.fixed (List.isEmpty_iff.1 none_left)) inherit, fun d => ?_⟩
      rw [collected, CubeSet.mem_insert, List.mem_cons]
      tauto
  | case4 => cases run
  | case5 primes nodes source c rest allowed candidates more l after chosen ih =>
      obtain ⟨heirs, inherit, collected⟩ := ih run
      have removable := Scoring.mem_of_selectBest_safeRemoval chosen
      obtain ⟨first, others, rfl, rotated⟩ := Rows.Heir.rotate removable inherit
      refine ⟨first :: others, rotated, fun d => ?_⟩
      rw [collected, List.mem_append, List.mem_singleton, List.mem_cons]
      tauto

theorem expand_heirs (run : (expand scoring offset implicants budget source).result = .ok primes) :
    ∃ heirs, List.Forall₂ offset.Heir heirs implicants.cubes ∧ primes = .ofList heirs := by
  cases first : implicants.cubes.find? offset.meets with
  | some c =>
      rw [expand_of_meets first] at run
      cases run
  | none =>
      rw [expand_of_avoids first] at run
      obtain ⟨heirs, inherit, collected⟩ := expandFrom_heirs run
      refine ⟨heirs, inherit, CubeSet.ext fun c => ?_⟩
      rw [collected, CubeSet.mem_ofList]
      exact or_iff_left (CubeSet.not_mem_empty c)

/-! ## What an expansion comes to -/

/-- The primes of an expansion and the implicants that they come from. -/
structure Expanded (offset : Rows) (implicants primes : CubeSet) : Prop where
  prime : ∀ c ∈ primes, offset.isPrime c = true
  lineages : ∃ heirs, List.Forall₂ offset.Heir heirs implicants.cubes ∧ primes = .ofList heirs
  heir : ∀ d ∈ implicants, ∃ c ∈ primes, c.literals ⊆ d.literals
  origin : ∀ c ∈ primes, ∃ d ∈ implicants, c.literals ⊆ d.literals
  kept : ∀ m, implicants.admits m = true → primes.admits m = true
  size_le : primes.size ≤ implicants.size

theorem expanded_of_expand
    (run : (expand scoring offset implicants budget source).result = .ok primes) :
    Expanded offset implicants primes := by
  have descent := expand_ok run
  obtain ⟨heirs, inherit, same⟩ := expand_heirs run
  exact
    { prime := descent.prime
      lineages := ⟨heirs, inherit, same⟩
      heir := by
        intro d member
        obtain ⟨c, place, wider⟩ := descent.heir d member
        exact ⟨c, place.resolve_left List.not_mem_nil, Cube.admits_iff.1 wider⟩
      origin := by
        intro c member
        obtain ⟨d, among, wider⟩ := descent.origin c (.inr member)
        exact ⟨d, among, Cube.admits_iff.1 wider⟩
      kept := fun m inside => descent.admits inside
      size_le := by
        rw [same]
        exact (CubeSet.size_ofList_le heirs).trans_eq inherit.length_eq }

/-- The first cube of the set, in its order, that meets the table. -/
structure Rows.MeetsFirst (offset : Rows) (set : CubeSet) (c : Cube) : Prop where
  member : c ∈ set
  meets : offset.meets c = true
  before : ∀ d ∈ set, compare d c = .lt → offset.meets d = false

theorem Rows.meetsFirst_iff : offset.MeetsFirst set c ↔ set.cubes.find? offset.meets = some c := by
  rw [CubeSet.find?_eq_some]
  exact ⟨fun first => ⟨first.member, first.meets, first.before⟩,
    fun ⟨member, meets, before⟩ => ⟨member, meets, before⟩⟩

theorem meetsFirst_of_expand (run : (expand scoring offset implicants budget source).result =
    .error (.unsafeImplicant c)) : offset.MeetsFirst implicants c := by
  rcases expand_failure run with ⟨d, first, same⟩ | within
  · cases same
    exact Rows.meetsFirst_iff.2 first
  · cases within

theorem expand_unsafe_iff :
    (∃ c, (expand scoring offset implicants budget source).result =
      .error (.unsafeImplicant c)) ↔ ∃ c ∈ implicants, offset.meets c = true := by
  constructor
  · rintro ⟨c, run⟩
    have first := meetsFirst_of_expand run
    exact ⟨c, first.member, first.meets⟩
  · rintro ⟨c, member, meets⟩
    obtain ⟨d, first⟩ := Option.isSome_iff_exists.1 (List.find?_isSome.2 ⟨c, member, meets⟩)
    exact ⟨d, by rw [expand_of_meets first]⟩

/-- An expansion is refused exactly if some implicant meets the offset, for the first one that does
and before any word is drawn. If it succeeds, it has found the heirs of the implicants; and with the
default rule for removal, which all three scorings share, and no budget it does succeed if no
implicant meets the offset. The bound on the cubes is that of a machine word. -/
theorem expand_outcome (scoring : Scoring) (offset : Rows) (implicants : CubeSet)
    (budget : Option Nat) (source : Source) :
    ((∃ c, (expand scoring offset implicants budget source).result =
        .error (.unsafeImplicant c)) ↔ ∃ c ∈ implicants, offset.meets c = true) ∧
    (∀ c, (expand scoring offset implicants budget source).result = .error (.unsafeImplicant c) →
      offset.MeetsFirst implicants c ∧
      expand scoring offset implicants budget source = ⟨.error (.unsafeImplicant c), 0, source⟩) ∧
    (∀ primes, (expand scoring offset implicants budget source).result = .ok primes →
      Expanded offset implicants primes) ∧
    (scoring.removal = Scoring.distanceRemoval → (∀ c ∈ implicants, c.size < UInt64.size) →
      (∀ c ∈ implicants, offset.meets c = false) →
      ∃ primes, (expand scoring offset implicants none source).result = .ok primes) := by
  refine ⟨expand_unsafe_iff, fun c run => ?_, fun primes run => expanded_of_expand run, ?_⟩
  · have first := meetsFirst_of_expand run
    exact ⟨first, expand_of_meets (Rows.meetsFirst_iff.1 first) budget source⟩
  · intro default small safe
    have offers : scoring.OffersRemovals UInt64.size :=
      Scoring.offersRemovals_of_default default fun _ bounded => isFinite_ofNat bounded
    exact expand_of_safe offers (fun c member => (small c member).le) safe source

/-- The odd rows expand beside the even ones, and are refused beside themselves. -/
theorem expand_outcome_parity :
    (∃ primes, (expand (Social.scoring ⟨0.5, 1e-5, #[]⟩) evenParity
        (.ofList oddParity.minterms) none (.ofSeed 0)).result = .ok primes ∧
      Expanded evenParity (.ofList oddParity.minterms) primes) ∧
    ∃ c, expand .frequency oddParity (.ofList oddParity.minterms) none (.ofSeed 0) =
      ⟨.error (.unsafeImplicant c), 0, .ofSeed 0⟩ := by
  constructor
  · obtain ⟨-, -, expanded, safe⟩ := expand_outcome (Social.scoring ⟨0.5, 1e-5, #[]⟩) evenParity
      (.ofList oddParity.minterms) none (.ofSeed 0)
    obtain ⟨primes, run⟩ := safe rfl (by decide) (by decide)
    exact ⟨primes, run, expanded primes run⟩
  · obtain ⟨meeting, first, -⟩ := expand_outcome .frequency oddParity (.ofList oddParity.minterms)
      none (.ofSeed 0)
    obtain ⟨c, run⟩ := meeting.2 ⟨.ofBits [true, false], by decide⟩
    exact ⟨c, (first c run).2⟩

end TwoLevel
