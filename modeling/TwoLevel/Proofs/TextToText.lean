import TwoLevel.Command.Run
import TwoLevel.Proofs.Cleaning
import TwoLevel.Proofs.FiniteScores
import TwoLevel.Proofs.RoundTrip
import TwoLevel.Proofs.Soundness

/-!
From the text of a table to the text of its cover. A table that is read and cleaned has disjoint
sides, so its minimization succeeds; the cover is written, and read again it is a table that has
every row of the cleaned onset and no row of the cleaned offset.
-/

namespace TwoLevel

open Text

variable {config : Config} {onset offset : Rows} {s : Solution}

theorem minimize_of_disjoint (rows : onset.size < UInt64.size) (counted : onset.arity < UInt64.size)
    (same : onset.arity = offset.arity) (disjoint : onset.minterms.Disjoint offset.minterms)
    (unlimited : config.budget = none) (shareable : config.Shareable)
    (busy : 1 ≤ config.iterations) (entropy : UInt64) :
    ∃ s, minimize config .frequency onset offset entropy = .ok s ∧ s.Sound onset offset := by
  have solves : ∃ s, minimize config .frequency onset offset entropy = .ok s :=
    minimizeFrom_of_disjoint (Scoring.frequency_offers rows counted) same unlimited shareable
      disjoint (.inl busy)
  obtain ⟨s, solved⟩ := solves
  exact ⟨s, solved, sound_of_minimizeFrom (Prod.ext solved rfl)⟩

namespace Table

variable {t u : Table}

/-- The table has the names of the other one, every row of the onset, no row of the offset, and no
offset of its own. -/
structure Realizes (u t : Table) : Prop where
  arity : u.arity = t.arity
  names : u.names = t.names
  output : u.output = t.output
  onset : ∀ m ∈ t.onset.minterms, m ∈ u.onset.minterms
  offset : ∀ m ∈ t.offset.minterms, m ∉ u.onset.minterms
  bare : u.offset.minterms = []

theorem exists_realizes (readable : Readable t.arity t.names t.output)
    (sound : s.Sound t.onset t.offset) (few : ∀ c ∈ s.cover, c.freeIn t.arity ≤ maxFree) :
    ∃ u, ofString (t.withCubes s.cover).text = .ok u ∧ u.Realizes t := by
  obtain ⟨u, read, arity, names, output, onset, offset⟩ := ofString_written
    (by decide : IsWord "f") isEnd_e readable s.cover.size few
    (fun c (none : c ∈ ([] : List Cube)) => absurd none List.not_mem_nil)
  have below : ∀ c ∈ s.cover.cubes, ∀ l ∈ c.literals, l.var < t.arity :=
    fun c member => (sound.useful c (.inr (.inr member))).2
  have counts {m : Cube} (minterm : m.IsMinterm t.arity) :
      u.onset.minterms.count m = s.cover.cubes.countP (·.admits m) := by
    rw [onset]
    exact count_flatMap_fill below minterm
  refine ⟨u, (congrArg ofString (text_withCubes t s.cover)).trans read, arity, names, output, ?_, ?_,
    offset⟩
  · intro m row
    obtain ⟨c, member, inside⟩ := CubeSet.admits_iff.1 (sound.complete m row)
    rw [← List.count_pos_iff, counts (t.onset.complete m row), List.countP_pos_iff]
    exact ⟨c, member, inside⟩
  · intro m row
    have minterm : m.IsMinterm t.arity := by
      rw [Table.arity, t.sameVariables]
      exact t.offset.complete m row
    rw [← List.count_eq_zero, counts minterm, List.countP_eq_zero]
    intro c member
    rw [sound.safe c member m row]
    exact Bool.false_ne_true

/-- Any table that is read, cleaned and minimized by the frequency of its literals gives a cover, if
the searches can be shared out among the workers, and the text of the cover reads as a table that
realizes the cleaned one. This is what the command puts out when it is told to clean. -/
theorem cleaned_text_minimizes (text : String) (t : Table) (read : ofString text = .ok t)
    (rows : t.onset.size < UInt64.size) (counted : t.arity < UInt64.size) (config : Config)
    (unlimited : config.budget = none) (shareable : config.Shareable)
    (busy : 1 ≤ config.iterations) (entropy : UInt64) :
    Rows.resolveConflicts t.onset t.offset = .ok t.clean.2 ∧
    ∃ s, minimize config .frequency t.clean.1.onset t.clean.1.offset entropy = .ok s ∧
      ((∀ c ∈ s.cover, c.freeIn t.arity ≤ 16) →
        ∃ u, ofString (t.clean.1.withCubes s.cover).text = .ok u ∧ u.Realizes t.clean.1) ∧
      ∀ o : Command.Options, o.clean = true → o.job.getD .minimize = .minimize →
        o.strategy.getD .frequency = .frequency → o.config = config →
        o.perform (ofString text) entropy = o.emit (t.clean.1.withCubes s.cover).text := by
  refine ⟨resolveConflicts_clean t, ?_⟩
  have fewer : t.clean.1.onset.size < UInt64.size :=
    (Rows.size_separate_onset_le t.onset t.offset).trans_lt rows
  obtain ⟨s, solved, sound⟩ := minimize_of_disjoint fewer counted t.clean.1.sameVariables
    t.clean_disjoint unlimited shareable busy entropy
  have readable : Readable t.arity t.names t.output := readable_of_ofString read counted
  refine ⟨s, solved, exists_realizes (t := t.clean.1) readable sound, ?_⟩
  intro o clean job strategy same
  simp only [Command.Options.perform, read, clean, ↓reduceIte, job, Command.Options.minimizeTable,
    Command.Options.scoring, strategy, same, solved]

/-- One row is said to be on and off, the other rows are kept. -/
theorem cleaned_text_minimizes_conflict :
    ∃ t s u, ofString ".i 2\n11 1\n11 0\n10 1\n00 0\n" = .ok t ∧
      minimize {} .frequency t.clean.1.onset t.clean.1.offset 7 = .ok s ∧
      ofString (t.clean.1.withCubes s.cover).text = .ok u ∧ u.Realizes t.clean.1 ∧
      ({ clean := true } : Command.Options).perform
        (ofString ".i 2\n11 1\n11 0\n10 1\n00 0\n") 7 =
          .print (t.clean.1.withCubes s.cover).text := by
  have accepted : ((ofString ".i 2\n11 1\n11 0\n10 1\n00 0\n").toOption.map fun t =>
      (t.onset.size, t.arity)) = some (2, 2) := by decide +kernel
  cases read : ofString ".i 2\n11 1\n11 0\n10 1\n00 0\n" with
  | error fault =>
      rw [read] at accepted
      cases accepted
  | ok t =>
      rw [read] at accepted
      have sizes : (t.onset.size, t.arity) = (2, 2) := Option.some.inj accepted
      have rows : t.onset.size = 2 := congrArg Prod.fst sizes
      have arity : t.arity = 2 := congrArg Prod.snd sizes
      obtain ⟨-, s, solved, back, command⟩ := cleaned_text_minimizes _ t read (rows ▸ by decide)
        (arity ▸ by decide) {} rfl (by decide) (by decide) 7
      have few : ∀ c ∈ s.cover, c.freeIn t.arity ≤ 16 := fun c _ =>
        (c.freeIn_le t.arity).trans (arity ▸ by decide)
      obtain ⟨u, again, realizes⟩ := back few
      refine ⟨t, s, u, rfl, solved, again, realizes, ?_⟩
      rw [← read]
      exact command { clean := true } rfl rfl rfl rfl

/-- The same rows, cleaned for the greatest number of workers: the command breaks off. -/
theorem cleaned_text_crowded :
    ∃ t, ofString ".i 2\n11 1\n11 0\n10 1\n00 0\n" = .ok t ∧
      minimize .crowded .frequency t.clean.1.onset t.clean.1.offset 7 = .error .overflow ∧
      ({ clean := true, threads := some (UInt64.size - 1) } : Command.Options).perform
        (ofString ".i 2\n11 1\n11 0\n10 1\n00 0\n") 7 = .abort Failure.overflow.message := by
  have accepted : (ofString ".i 2\n11 1\n11 0\n10 1\n00 0\n").toOption.isSome = true := by
    decide +kernel
  cases read : ofString ".i 2\n11 1\n11 0\n10 1\n00 0\n" with
  | error fault =>
      rw [read] at accepted
      cases accepted
  | ok t =>
      have checked : checkInput .crowded t.clean.1.onset t.clean.1.offset = .ok () :=
        checkInput_eq_ok.2 ⟨t.clean.1.sameVariables, fun _ => t.clean_disjoint⟩
      have breaks : minimize .crowded .frequency t.clean.1.onset t.clean.1.offset 7 =
          .error .overflow := minimizeFrom_of_overload checked (by decide)
      refine ⟨t, rfl, breaks, ?_⟩
      have config : ({ clean := true, threads := some (UInt64.size - 1) } : Command.Options).config =
          .crowded := rfl
      simp only [Command.Options.perform, ↓reduceIte, Option.getD_none,
        Command.Options.minimizeTable, Command.Options.scoring, config, breaks]

end Table

end TwoLevel
