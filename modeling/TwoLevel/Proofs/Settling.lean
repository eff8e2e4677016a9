import TwoLevel.Proofs.Relaxing

/-!
The search out of one source. Between two nodes all edges out of the settled ones have been looked
at, and the next one is the nearest that waits. When none waits any more every node that was reached
is settled.
-/

namespace TwoLevel.Paths

variable {g : Graph ℚ} {p q : Paths ℚ} {n source node target : Nat} {latest distance weight : ℚ}
  {seen : Nat → Nat → ℚ → Prop}

/-! ## One node -/

/-- The edges out of a settled node are looked at one by one. -/
theorem labelled_foldl_relax (positive : g.Positive) (undirected : g.Undirected)
    {edges : List (Nat × ℚ)} (labelled : Labelled g source seen p) (queued : Queued g latest p)
    (member : node ∈ p.settled) (known : p.best? node = some latest)
    (listed : ∀ edge ∈ edges, g.weight? node edge.1 = some edge.2)
    (distinct : edges.Pairwise fun a b => a.1 ≠ b.1)
    (fresh : ∀ edge ∈ edges, ∀ w, ¬seen node edge.1 w) :
    Labelled g source (fun u v w => seen u v w ∨ u = node ∧ (v, w) ∈ edges)
        (edges.foldl (relax node latest) p) ∧
      Queued g latest (edges.foldl (relax node latest) p) ∧
      (edges.foldl (relax node latest) p).settled = p.settled := by
  induction edges generalizing p seen with
  | nil => simpa using ⟨labelled, queued⟩
  | cons edge rest ih =>
      obtain ⟨target, weight⟩ := edge
      have ⟨apart, distinct⟩ := List.pairwise_cons.1 distinct
      have joined := listed _ List.mem_cons_self
      have inside : target < g.size := undirected.lt_size (Option.isSome_of_eq_some joined)
      have following : Next g seen latest p node target weight :=
        ⟨member, known, joined, fresh _ List.mem_cons_self⟩
      have settled := settled_relax p node latest (target, weight)
      have freshRest : ∀ edge ∈ rest, ∀ w, ¬andEdge seen node target weight node edge.1 w := by
        rintro other later w (earlier | ⟨-, same, -⟩)
        · exact fresh other (List.mem_cons_of_mem _ later) w earlier
        · exact apart other later same.symm
      obtain ⟨labelledAll, queuedAll, settledAll⟩ := ih
        (labelled_relax positive labelled queued following inside)
        (queued_relax positive labelled queued following inside) (settled ▸ member)
        ((best?_relax labelled.sized queued inside member).trans known)
        (fun other later => listed other (List.mem_cons_of_mem _ later)) distinct freshRest
      have same : (fun u v w => seen u v w ∨ u = node ∧ (v, w) ∈ (target, weight) :: rest) =
          fun u v w => andEdge seen node target weight u v w ∨ u = node ∧ (v, w) ∈ rest := by
        funext u v w
        simp only [andEdge, List.mem_cons, Prod.mk.injEq, and_or_left, or_assoc]
      exact ⟨same ▸ labelledAll, queuedAll, settledAll.trans settled⟩

theorem lt_of_best? (sized : p.Sized n) (reached : p.best? node = some distance) : node < n := by
  by_contra beyond
  rw [best?, Array.getD_eq_getD_getElem?,
    Array.getElem?_eq_none (by rw [sized.best]; exact not_lt.1 beyond)] at reached
  cases reached

/-- What is known of the nodes does not depend on which are settled and which wait. -/
theorem Labelled.carry (labelled : Labelled g source seen p) (best : q.best = p.best)
    (count : q.count = p.count) (before : q.before = p.before)
    (final : q.final.size = p.final.size) (settled : ∀ v ∈ p.settled, v ∈ q.settled) :
    Labelled g source seen q := by
  obtain ⟨_, _, _, _, _, _⟩ := q
  subst best count before
  exact ⟨⟨labelled.sized.best, labelled.sized.count, labelled.sized.before,
    final.trans labelled.sized.final⟩, labelled.origin, labelled.walked,
    fun u v w old => (labelled.edges u v w old).imp_left (settled u), labelled.bounded,
    labelled.before, labelled.distinct, labelled.counted⟩

section Pop

variable {rest : Queue (Pending ℚ)}
  (popped : p.queue.pop? Pending.sooner = some (⟨distance, node⟩, rest))

include popped in
theorem Queued.passed (sized : p.Sized g.size) (queued : Queued g latest p)
    (final : p.isFinal node = true) : Queued g latest { p with queue := rest } where
  settled := queued.settled
  nodup := queued.nodup
  nearer := queued.nearer
  farther := queued.farther
  ascending := queued.ascending
  ordered := Queue.ordered_of_pop? Pending.ranks queued.ordered popped
  waits v d waiting reached := by
    rcases (Queue.mem_of_pop? popped).1 (queued.waits v d waiting reached) with top | left
    · cases top
      exact absurd ((queued.settled node).2 ⟨lt_of_best? sized reached, final⟩) waiting
    · exact left
  held v d member := queued.held v d ((Queue.mem_of_pop? popped).2 (.inr member))

include popped in
theorem Queued.distance_le (queued : Queued g latest p) {v : Nat} {d : ℚ} (waiting : v ∉ p.settled)
    (reached : p.best? v = some d) : distance ≤ d := by
  rcases (Queue.mem_of_pop? popped).1 (queued.waits v d waiting reached) with top | left
  · cases top
    exact le_rfl
  · exact Pending.le_of_not_sooner (Queue.not_sooner_of_pop? queued.ordered popped left)

include popped in
/-- A node that is taken out for the first time is at its distance. -/
theorem Queued.best?_taken (queued : Queued g latest p) (waiting : node ∉ p.settled) :
    p.best? node = some distance := by
  obtain ⟨e, reached, bound⟩ := queued.held node distance ((Queue.mem_of_pop? popped).2 (.inl rfl))
  rw [reached, le_antisymm bound (queued.distance_le popped waiting reached)]

include popped in
theorem Queued.taken (sized : p.Sized g.size) (queued : Queued g latest p)
    (waiting : node ∉ p.settled) :
    Queued g distance { p with
      settled := node :: p.settled
      final := p.final.setIfInBounds node true
      queue := rest } := by
  have known := queued.best?_taken popped waiting
  have inside : node < p.final.size := sized.final ▸ lt_of_best? sized known
  have reached (v : Nat) (member : v ∈ p.settled) : ∃ d, p.best? v = some d ∧ d ≤ distance := by
    obtain ⟨d, earlier, bound⟩ := queued.nearer v member
    exact ⟨d, earlier, bound.trans (queued.farther node distance waiting known)⟩
  constructor
  case settled =>
    intro v
    have final : (p.final.setIfInBounds node true).getD v true =
        Function.update p.isFinal node true v := congrFun (getD_setIfInBounds inside true true) v
    change v ∈ node :: p.settled ↔ v < g.size ∧ (p.final.setIfInBounds node true).getD v true = true
    rw [final, List.mem_cons, queued.settled]
    rcases eq_or_ne v node with rfl | other
    · simp [lt_of_best? sized known]
    · simp [other]
  case nodup => exact List.nodup_cons.2 ⟨waiting, queued.nodup⟩
  case nearer =>
    intro v member
    rcases List.mem_cons.1 member with rfl | earlier
    · exact ⟨distance, known, le_rfl⟩
    · exact reached v earlier
  case farther =>
    intro v d later
    exact queued.distance_le popped fun member => later (List.mem_cons_of_mem _ member)
  case ascending =>
    refine List.pairwise_cons.2 ⟨fun v member d e early late => ?_, queued.ascending⟩
    obtain ⟨least, same, bound⟩ := reached v member
    cases same.symm.trans early
    cases known.symm.trans late
    exact bound
  case ordered => exact Queue.ordered_of_pop? Pending.ranks queued.ordered popped
  case waits =>
    intro v d later start
    have waits := queued.waits v d (fun member => later (List.mem_cons_of_mem _ member)) start
    rcases (Queue.mem_of_pop? popped).1 waits with top | left
    · cases top
      exact absurd List.mem_cons_self later
    · exact left
  case held => exact fun v d member => queued.held v d ((Queue.mem_of_pop? popped).2 (.inr member))

end Pop

def scanned (g : Graph ℚ) (p : Paths ℚ) (u v : Nat) (w : ℚ) : Prop :=
  u ∈ p.settled ∧ g.weight? u v = some w

/-- The search between two nodes: all edges out of the settled nodes were looked at. -/
structure Exploring (g : Graph ℚ) (source : Nat) (latest : ℚ) (p : Paths ℚ) : Prop where
  labelled : Labelled g source (scanned g p) p
  queued : Queued g latest p

theorem getD_replicate {α : Type} (n i : Nat) (x : α) : (Array.replicate n x).getD i x = x := by
  rw [Array.getD_eq_getD_getElem?, Array.getElem?_replicate]
  split <;> rfl

theorem best?_start {v : Nat} {d : ℚ} (inside : source < n) :
    (start n source).best? v = some d ↔ v = source ∧ d = 0 := by
  have best : (start n source : Paths ℚ).best? = Function.update _ source (some 0) :=
    getD_setIfInBounds (by simpa using inside) _ _
  simp only [getD_replicate] at best
  rw [best]
  rcases eq_or_ne v source with rfl | other
  · simp [eq_comm]
  · simp [other]

theorem pathsTo_start (inside : source < n) (v : Nat) :
    (start n source : Paths ℚ).pathsTo v = if v = source then 1 else 0 := by
  have count : (start n source : Paths ℚ).pathsTo = Function.update _ source 1 :=
    getD_setIfInBounds (by simpa using inside) _ _
  simp only [getD_replicate] at count
  rw [count]
  rcases eq_or_ne v source with rfl | other
  · simp
  · simp [other]

theorem nodesBefore_start (n source v : Nat) : (start n source : Paths ℚ).nodesBefore v = [] :=
  getD_replicate ..

theorem labelled_start (inside : source < g.size) :
    Labelled g source (scanned g (start g.size source)) (start g.size source) where
  sized := by constructor <;> simp [start]
  origin := (best?_start inside).2 ⟨rfl, rfl⟩
  walked v d reached := by
    obtain ⟨rfl, rfl⟩ := (best?_start inside).1 reached
    exact ⟨_, .here⟩
  edges u v w seen := by cases seen.1
  bounded u v w d seen := by cases seen.1
  before u v := by
    rw [nodesBefore_start]
    simp [scanned, start]
  distinct v := by
    rw [nodesBefore_start]
    exact List.nodup_nil
  counted v := by
    rw [nodesBefore_start, pathsTo_start inside]
    simp

theorem queued_start (inside : source < g.size) : Queued g 0 (start g.size source) where
  settled v := by
    rcases lt_or_ge v g.size with below | beyond
    · simp [start, isFinal, below]
    · simp [start, beyond]
  nodup := List.nodup_nil
  nearer v member := by cases member
  farther v d _ reached := ((best?_start inside).1 reached).2.ge
  ascending := List.Pairwise.nil
  ordered := by
    have empty : (Queue.empty : Queue (Pending ℚ)).Ordered Pending.sooner := trivial
    exact Queue.ordered_push Pending.ranks empty _
  waits v d _ reached := by
    obtain ⟨rfl, rfl⟩ := (best?_start inside).1 reached
    exact Queue.mem_push.2 (.inr rfl)
  held v d member := by
    rcases Queue.mem_push.1 member with none | same
    · cases none
    · cases same
      exact ⟨0, (best?_start inside).2 ⟨rfl, rfl⟩, le_rfl⟩

theorem Exploring.start (inside : source < g.size) :
    Exploring g source 0 (Paths.start g.size source) :=
  ⟨labelled_start inside, queued_start inside⟩

theorem Exploring.settle (positive : g.Positive) (undirected : g.Undirected)
    (exploring : Exploring g source latest p) {rest : Queue (Pending ℚ)}
    (popped : p.queue.pop? Pending.sooner = some (⟨distance, node⟩, rest))
    (waiting : node ∉ p.settled) :
    Exploring g source distance ({ p with queue := rest }.settle g node distance) := by
  obtain ⟨labelled, queued⟩ := exploring
  have known := queued.best?_taken popped waiting
  have taken : Labelled g source (scanned g p) { p with
      settled := node :: p.settled
      final := p.final.setIfInBounds node true
      queue := rest } :=
    labelled.carry rfl rfl rfl (Array.size_setIfInBounds ..)
      fun _ earlier => List.mem_cons_of_mem _ earlier
  have ⟨labelledAll, queuedAll, settled⟩ := labelled_foldl_relax positive undirected taken
    (queued.taken popped labelled.sized waiting) List.mem_cons_self known
    (fun edge member => undirected.mem_neighbours.1 member)
    (Graph.distinct_of_ascending (undirected.ascending node)) (fun _ _ _ old => waiting old.1)
  have same : scanned g ({ p with queue := rest }.settle g node distance) =
      fun u v w => scanned g p u v w ∨ u = node ∧ (v, w) ∈ g.neighbours node := by
    funext u v w
    rw [scanned, Paths.settle, settled, List.mem_cons, undirected.mem_neighbours, scanned]
    apply propext
    constructor
    · rintro ⟨rfl | earlier, edge⟩
      · exact .inr ⟨rfl, edge⟩
      · exact .inl ⟨earlier, edge⟩
    · rintro (⟨earlier, edge⟩ | ⟨rfl, edge⟩)
      · exact ⟨.inr earlier, edge⟩
      · exact ⟨.inl rfl, edge⟩
  exact ⟨same ▸ labelledAll, queuedAll⟩

/-! ## All nodes -/

theorem Exploring.settleAll (positive : g.Positive) (undirected : g.Undirected)
    (exploring : Exploring g source latest p) :
    ∃ latest, Exploring g source latest (p.settleAll g) ∧ (p.settleAll g).queue.toList = [] := by
  fun_induction Paths.settleAll g p generalizing latest with
  | case1 p empty => exact ⟨latest, exploring, Queue.toList_of_pop?_eq_none empty⟩
  | case2 p distance node rest popped final ih =>
      have ⟨labelled, queued⟩ := exploring
      exact ih ⟨labelled.carry rfl rfl rfl rfl fun _ member => member,
        queued.passed popped labelled.sized final⟩
  | case3 p distance node rest popped waits ih =>
      exact ih (exploring.settle positive undirected popped fun member =>
        waits ((exploring.queued.settled node).1 member).2)

end TwoLevel.Paths
