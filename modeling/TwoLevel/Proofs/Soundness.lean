import TwoLevel.Proofs.Outcome

/-!
Soundness of minimization, for any scoring and any random words. Implicants avoid the offset and
hold rows of the onset, primes are implicants made wider, a cover is chosen among the primes: so
whatever is returned is an irredundant cover of the onset by primes, and nothing is returned for an
onset and an offset that share a row.
-/

namespace TwoLevel

variable {config : Config} {scoring : Scoring} {onset offset : Rows} {budget : Option Nat}
  {seeds : List UInt64} {workers : Nat} {source next : Source} {s : Solution} {set : CubeSet}

/-- What a solution stands for: the cover is right for the rows, it consists of primes,
each cube is there for some row of the onset, and no cube of the cover can be left out. -/
structure Solution.Sound (onset offset : Rows) (s : Solution) : Prop where
  verified : s.verify onset offset = true
  complete : ∀ m ∈ onset.minterms, s.cover.admits m = true
  safe : ∀ c ∈ s.cover, ∀ m ∈ offset.minterms, c.admits m = false
  chosen : s.cover ⊆ s.primes
  prime : ∀ c ∈ s.primes, offset.isPrime c = true
  useful : ∀ c, c ∈ s.implicants ∨ c ∈ s.primes ∨ c ∈ s.cover →
    (∃ m ∈ onset.minterms, c.admits m = true) ∧ ∀ l ∈ c.literals, l.var < onset.arity
  needed : ∀ c ∈ s.cover, ∃ m ∈ onset.minterms, (s.cover.erase c).admits m = false

theorem Rows.var_lt_of_admits {rows : Rows} {c : Cube}
    (holds : ∃ m ∈ rows.minterms, c.admits m = true) : ∀ l ∈ c.literals, l.var < rows.arity := by
  intro l member
  obtain ⟨m, row, inside⟩ := holds
  exact Cube.var_lt_of_mem (rows.complete m row) (Cube.admits_iff.1 inside l member)

theorem Solution.sound_of_stages (implicants : Implicants onset offset s.implicants)
    (descent : Descent offset s.implicants [] s.primes)
    (covering : Covering onset s.primes s.cover) : s.Sound onset offset := by
  have safe : ∀ c ∈ s.cover, offset.meets c = false := fun c member =>
    (Rows.isPrime_iff.1 (descent.prime c (covering.chosen c member))).1
  have primeUseful : ∀ c ∈ s.primes, ∃ m ∈ onset.minterms, c.admits m = true := by
    intro c member
    obtain ⟨d, origin, wider⟩ := descent.origin c (.inr member)
    obtain ⟨m, row, inside⟩ := implicants.useful d origin
    exact ⟨m, row, Cube.admits_trans wider inside⟩
  exact
    { verified := by
        unfold Solution.verify
        rw [Bool.and_eq_true, List.all_eq_true, List.all_eq_true]
        exact ⟨covering.complete, fun c member => by rw [safe c member]; rfl⟩
      complete := covering.complete
      safe := fun c member => Rows.meets_eq_false_iff.1 (safe c member)
      chosen := covering.chosen
      prime := descent.prime
      useful := by
        intro c place
        have holds : ∃ m ∈ onset.minterms, c.admits m = true := by
          rcases place with found | prime | chosen
          · exact implicants.useful c found
          · exact primeUseful c prime
          · exact primeUseful c (covering.chosen c chosen)
        exact ⟨holds, Rows.var_lt_of_admits holds⟩
      needed := covering.needed }

theorem sound_of_minimizeFrom
    (run : minimizeFrom config scoring onset offset source = (.ok s, next)) :
    s.Sound onset offset := by
  obtain ⟨-, searched, expansion, rfl, expanded, covered, -⟩ := minimizeFrom_eq_ok.1 run
  have implicants := (searchSeeds_sound searched).1
  exact Solution.sound_of_stages implicants (expand_ok expanded) (cover_ok covered)

/-- Whatever the scoring, the configuration and the random words: a solution that is returned is
sound, and none is returned if the onset and the offset share a row. -/
theorem minimizeFrom_sound (config : Config) (scoring : Scoring) (onset offset : Rows)
    (source : Source) :
    (∀ s next, minimizeFrom config scoring onset offset source = (.ok s, next) →
      s.Sound onset offset) ∧
    ∀ m ∈ onset.minterms, m ∈ offset.minterms →
      ∃ failure, (minimizeFrom config scoring onset offset source).1 = .error failure := by
  refine ⟨fun s next run => sound_of_minimizeFrom run, fun m on off => ?_⟩
  cases run : minimizeFrom config scoring onset offset source with
  | mk result next =>
      cases result with
      | error failure => exact ⟨failure, rfl⟩
      | ok s =>
          have sound := sound_of_minimizeFrom run
          obtain ⟨c, member, inside⟩ := CubeSet.admits_iff.1 (sound.complete m on)
          have outside := sound.safe c member m off
          simp [inside] at outside

/-- Parity has a sound solution; a table that is its own offset has none. -/
theorem minimizeFrom_sound_parity :
    (∃ s next, minimizeFrom {} .frequency oddParity evenParity (.ofSeed 0) = (.ok s, next) ∧
      s.Sound oddParity evenParity) ∧
    ∃ failure, (minimizeFrom {} .frequency oddParity oddParity (.ofSeed 0)).1 = .error failure := by
  constructor
  · obtain ⟨s, next, run⟩ := minimizeFrom_parity (.ofSeed 0)
    have sound := (minimizeFrom_sound {} .frequency oddParity evenParity (.ofSeed 0)).1 s next run
    exact ⟨s, next, run, sound⟩
  · exact (minimizeFrom_sound {} .frequency oddParity oddParity (.ofSeed 0)).2
      (.ofBits [true, false]) (by decide) (by decide)

end TwoLevel
