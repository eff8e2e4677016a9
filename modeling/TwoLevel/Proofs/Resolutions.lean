import TwoLevel.Proofs.FiniteScores
import TwoLevel.Proofs.Soundness

/-!
Social scoring and the resolution. By a resolution that is a normal number disjoint rows have a
solution. A resolution may be smaller, and then a score can be rounded to an infinite one: when this
happens to all literals, the search stops for want of candidates although the rows are disjoint.
-/

namespace TwoLevel

open Double

variable {config : Config} {scoring : Scoring} {onset offset remainder : Rows} {found : CubeSet}
  {nodes : Nat} {c : Cube} {source : Source} {s : Social}

/-- Strategies with a normal resolution solve disjoint rows, whatever else they are set to, if their
centralities can be subtracted. That is so for the degree. For the betweenness, and what is blended
with it, it is a condition: the numbers of shortest paths are doubles, which can grow exponentially
with the number of variables, and where one of them overflows the condition fails. -/
theorem Social.minimizeFrom_of_normal (config : Config) (onset offset : Rows)
    (interactivity resolution : Float) (centrality : Centrality) (s : Social) (source : Source)
    (built : Social.ofRows onset offset interactivity centrality resolution = .ok s)
    (normal : leastNormal ≤ resolution) (on : centrality.Tame onset) (off : centrality.Tame offset)
    (size : onset.size < UInt64.size) (arity : onset.arity < UInt64.size)
    (disjoint : onset.minterms.Disjoint offset.minterms) (unlimited : config.budget = none)
    (shareable : config.Shareable) (busy : 1 ≤ config.iterations) :
    ∃ solution, (minimizeFrom config s.scoring onset offset source).1 = .ok solution ∧
      solution.Sound onset offset := by
  have offers := (normal_of_ofRows built normal on off).offers size arity
  obtain ⟨-, -, same, -⟩ := ofRows_eq_ok built
  have solves : ∃ solution, (minimizeFrom config s.scoring onset offset source).1 = .ok solution :=
    minimizeFrom_of_disjoint offers same unlimited shareable disjoint (.inl busy)
  obtain ⟨solution, solved⟩ := solves
  exact ⟨solution, solved, sound_of_minimizeFrom (Prod.ext solved rfl)⟩

theorem Social.minimizeFrom_of_normal_parity :
    ∃ s, Social.ofRows oddParity evenParity 0.5 .degree 1e-5 = .ok s ∧
      ∃ solution, (minimizeFrom {} s.scoring oddParity evenParity (.ofSeed 0)).1 = .ok solution ∧
        solution.Sound oddParity evenParity := by
  have settings : checkSettings 0.5 1e-5 = .ok () :=
    checkSettings_eq_ok.2 ⟨by decide +kernel, by decide +kernel, by decide +kernel⟩
  have built : Social.ofRows oddParity evenParity 0.5 .degree 1e-5 = .ok _ :=
    ofRows_of_checked settings rfl rfl
  have disjoint : ∀ m ∈ oddParity.minterms, m ∉ evenParity.minterms := by decide
  refine ⟨_, built, ?_⟩
  have on : Centrality.degree.Tame oddParity := Centrality.tame_degree (by decide) (by decide)
  have off : Centrality.degree.Tame evenParity := Centrality.tame_degree (by decide) (by decide)
  exact Social.minimizeFrom_of_normal {} oddParity evenParity 0.5 1e-5 .degree _ (.ofSeed 0) built
    (by decide +kernel) on off (by decide) (by decide) disjoint rfl (by decide) (by decide)

/-! ## Without a finite score -/

theorem growFrom_of_infinite (meets : offset.meets c = true)
    (infinite : ∀ entry ∈ scoring.growth c remainder, entry.2.isFinite = false) (source : Source) :
    ∃ next, growFrom scoring remainder offset c source =
      (.error (.noCandidates .search c), next) := by
  have none_chosen : (selectBest (scoring.freeGrowth c remainder) source).1 = none :=
    selectBest_eq_none.2 fun entry member => infinite entry (List.mem_filter.1 member).1
  exact ⟨_, growFrom_of_none meets (Prod.ext none_chosen rfl)⟩

theorem searchSeed_of_infinite (row : onset.minterms ≠ []) (meets : offset.meets .universal = true)
    (infinite : ∀ entry ∈ scoring.growth .universal onset, entry.2.isFinite = false)
    (seed : UInt64) :
    searchSeed scoring onset offset none seed = .error (.noCandidates .search .universal) := by
  obtain ⟨next, stuck⟩ := growFrom_of_infinite meets infinite (.ofSeed seed)
  have more : onset.isEmpty = false := by simpa [Rows.isEmpty] using row
  exact congrArg Pass.result (searchFrom_of_error rfl more stuck)

/-- Without a finite score for the first literal, every search stops at the universal cube. -/
theorem minimizeFrom_of_infinite (checked : checkInput config onset offset = .ok ())
    (unlimited : config.budget = none) (shareable : config.Shareable)
    (busy : 1 ≤ config.iterations) (row : onset.minterms ≠ [])
    (meets : offset.meets .universal = true)
    (infinite : ∀ entry ∈ scoring.growth .universal onset, entry.2.isFinite = false)
    (source : Source) :
    (minimizeFrom config scoring onset offset source).1 =
      .error (.noCandidates .search .universal) := by
  obtain ⟨seed, rest, split⟩ := List.exists_cons_of_ne_nil (source.seeds_ne_nil busy)
  have fails : searchSeeds scoring onset offset none (source.seeds config.iterations).1
      config.workers = .error (.noCandidates .search .universal) := by
    rw [searchSeeds_eq ((config.shareable_seeds source).2 shareable), split, List.map_cons,
      searchSeed_of_infinite row meets infinite]
    exact foldlM_absorb_error ∅ [] _ _
  rw [minimizeFrom_result, checked, unlimited, fails]
  rfl

/-- Two rows with the last variable, the second of them with the one before it. -/
def lastSet : Rows :=
  ⟨3, [.ofBits [false, false, true], .ofBits [false, true, true]], by decide⟩

def noneSet : Rows := ⟨3, [.ofBits [false, false, false]], by decide⟩

/-- The least positive resolution is accepted, but by it no search finds anything. -/
theorem least_resolution_fails :
    ∃ s, Social.ofRows lastSet noneSet 0.5 .degree 5e-324 = .ok s ∧
      lastSet.minterms.Disjoint noneSet.minterms ∧
      ∀ (config : Config) (source : Source), config.budget = none → config.Shareable →
        1 ≤ config.iterations →
        (minimizeFrom config s.scoring lastSet noneSet source).1 =
          .error (.noCandidates .search .universal) := by
  have settings : Social.checkSettings 0.5 5e-324 = .ok () :=
    Social.checkSettings_eq_ok.2 ⟨by decide +kernel, by decide +kernel, by decide +kernel⟩
  have built : Social.ofRows lastSet noneSet 0.5 .degree 5e-324 = .ok _ :=
    Social.ofRows_of_checked settings rfl rfl
  have disjoint : ∀ m ∈ lastSet.minterms, m ∉ noneSet.minterms := by decide
  refine ⟨_, built, disjoint, fun config source unlimited shareable busy => ?_⟩
  have checked : checkInput config lastSet noneSet = .ok () :=
    checkInput_eq_ok.2 ⟨rfl, fun _ => disjoint⟩
  have infinite : ∀ entry ∈ (Social.scoring ⟨0.5, 5e-324,
      (Social.contrast lastSet noneSet .degree).toArray⟩).growth .universal lastSet,
      entry.2.isFinite = false := by decide +kernel
  exact minimizeFrom_of_infinite checked unlimited shareable busy (by decide) (by decide) infinite
    source

end TwoLevel
