import TwoLevel.Proofs.Walks
import TwoLevel.Proofs.Queues
import TwoLevel.Graph.ShortestPaths

/-!
What one edge adds to a search. What is known of a node is what the edges looked at so far say of it:
its distance is the least by one of them, the nodes before it are those from which an edge reaches
that distance, and the number of paths to it is the sum of theirs. The nodes that are reached and not
settled wait in the queue.
-/

namespace TwoLevel

instance : Length ℚ where
  near _ := true

namespace Pending

theorem sooner_iff {a b : Pending ℚ} :
    a.sooner b ↔ a.distance < b.distance ∨ a.distance ≤ b.distance ∧ a.node < b.node := by
  simp [sooner]

theorem ranks : Queue.Ranks (Pending.sooner (W := ℚ)) where
  asymm {a b} less := by
    rw [sooner_iff] at *
    rintro (more | ⟨more, place⟩) <;> rcases less with less | ⟨less, placeToo⟩
    · exact lt_asymm less more
    · exact less.not_gt more
    · exact more.not_gt less
    · omega
  trans {a b c} first second := by
    rw [sooner_iff] at *
    simp only [not_or, not_and, not_lt] at *
    refine ⟨first.1.trans second.1, fun near => ?_⟩
    exact (first.2 (second.1.trans near)).trans (second.2 (near.trans first.1))

theorem le_of_not_sooner {a b : Pending ℚ} (notSooner : ¬a.sooner b) : b.distance ≤ a.distance := by
  rw [sooner_iff, not_or, not_lt] at notSooner
  exact notSooner.1

end Pending

namespace Paths

variable {g : Graph ℚ} {p q : Paths ℚ} {n source node target : Nat} {latest distance weight : ℚ}
  {seen : Nat → Nat → ℚ → Prop}

/-! ## One edge -/

structure Sized (n : Nat) (p : Paths ℚ) : Prop where
  best : p.best.size = n
  count : p.count.size = n
  before : p.before.size = n
  final : p.final.size = n

theorem getD_setIfInBounds {α : Type} {a : Array α} {i : Nat} (inside : i < a.size) (x d : α) :
    (fun j => (a.setIfInBounds i x).getD j d) = Function.update (fun j => a.getD j d) i x := by
  funext j
  rcases eq_or_ne i j with rfl | other
  · simp [Array.getD_eq_getD_getElem?, inside]
  · simp [Array.getD_eq_getD_getElem?, other, Ne.symm other]

/-- What becomes of the paths when an edge from `node` reaches `target` by way of `through`. -/
inductive Relaxed (p : Paths ℚ) (node target : Nat) (through : ℚ) (q : Paths ℚ) : Prop
  | kept (same : q = p)
      (nearer : p.isFinal target = true ∨ ∃ least, p.best? target = some least ∧ least < through)
  | shorter (waits : p.isFinal target = false)
      (farther : ∀ least, p.best? target = some least → through < least)
      (best : q.best? = Function.update p.best? target (some through))
      (count : q.pathsTo = Function.update p.pathsTo target (p.pathsTo node))
      (before : q.nodesBefore = Function.update p.nodesBefore target [node])
      (queue : q.queue = p.queue.push Pending.sooner ⟨through, target⟩)
  | joined (waits : p.isFinal target = false) (tied : p.best? target = some through)
      (best : q.best? = p.best?)
      (count : q.pathsTo =
        Function.update p.pathsTo target (p.pathsTo target + p.pathsTo node))
      (before : q.nodesBefore =
        Function.update p.nodesBefore target (p.nodesBefore target ++ [node]))
      (queue : q.queue = p.queue)

theorem shorter_iff {through : ℚ} {known : Option ℚ} :
    shorter through known = true ↔ ∀ least, known = some least → through < least := by
  cases known <;> simp [shorter]

theorem relaxed (sized : p.Sized n) (inside : target < n) (node : Nat) (distance weight : ℚ) :
    p.Relaxed node target (distance + weight) (p.relax node distance (target, weight)) := by
  have best : target < p.best.size := sized.best ▸ inside
  have count : target < p.count.size := sized.count ▸ inside
  have before : target < p.before.size := sized.before ▸ inside
  simp only [relax, Length.near, Bool.not_true, Bool.or_false]
  split
  · exact .kept rfl (.inl ‹_›)
  · rename_i waits
    split
    · exact .shorter (Bool.not_eq_true _ ▸ waits) (shorter_iff.1 ‹_›)
        (getD_setIfInBounds best _ _) (getD_setIfInBounds count _ _)
        (getD_setIfInBounds before _ _) rfl
    · rename_i notShorter
      rw [shorter_iff] at notShorter
      push Not at notShorter
      obtain ⟨least, known, bound⟩ := notShorter
      split
      · rename_i tied
        exact .joined (Bool.not_eq_true _ ▸ waits) (eq_of_beq tied) rfl
          (getD_setIfInBounds count _ _) (getD_setIfInBounds before _ _) rfl
      · rename_i apart
        refine .kept rfl (.inr ⟨least, known, lt_of_le_of_ne bound fun same => apart ?_⟩)
        rw [known, same, beq_self_eq_true]

theorem sized_relax (sized : p.Sized n) (node : Nat) (distance : ℚ) (edge : Nat × ℚ) :
    (p.relax node distance edge).Sized n := by
  obtain ⟨best, count, before, final⟩ := sized
  simp only [relax]
  split
  · exact ⟨best, count, before, final⟩
  · split
    · constructor <;> simpa
    · split <;> constructor <;> simpa

theorem settled_relax (p : Paths ℚ) (node : Nat) (distance : ℚ) (edge : Nat × ℚ) :
    (p.relax node distance edge).settled = p.settled := by
  simp only [relax]
  split
  · rfl
  · split
    · rfl
    · split <;> rfl

/-! ## What is known of the nodes -/

/-- The paths say of every node what the edges looked at so far say. -/
structure Labelled (g : Graph ℚ) (source : Nat) (seen : Nat → Nat → ℚ → Prop) (p : Paths ℚ) :
    Prop where
  sized : p.Sized g.size
  origin : p.best? source = some 0
  walked : ∀ v d, p.best? v = some d → ∃ path, g.Walk source v path d
  edges : ∀ u v w, seen u v w → u ∈ p.settled ∧ g.weight? u v = some w
  bounded : ∀ u v w d, seen u v w → p.best? u = some d → ∃ e, p.best? v = some e ∧ e ≤ d + w
  before : ∀ u v, u ∈ p.nodesBefore v ↔
    ∃ w d, seen u v w ∧ p.best? u = some d ∧ p.best? v = some (d + w)
  distinct : ∀ v, (p.nodesBefore v).Nodup
  counted : ∀ v, p.pathsTo v =
    (if v = source then 1 else 0) + ((p.nodesBefore v).map p.pathsTo).sum

/-- No settled node is farther than the latest one and no other is nearer. Every node that is
reached and not settled waits at its distance. -/
structure Queued (g : Graph ℚ) (latest : ℚ) (p : Paths ℚ) : Prop where
  settled : ∀ v, v ∈ p.settled ↔ v < g.size ∧ p.isFinal v = true
  nodup : p.settled.Nodup
  nearer : ∀ v ∈ p.settled, ∃ d, p.best? v = some d ∧ d ≤ latest
  farther : ∀ v d, v ∉ p.settled → p.best? v = some d → latest ≤ d
  ascending : p.settled.Pairwise fun later earlier =>
    ∀ d e, p.best? earlier = some d → p.best? later = some e → d ≤ e
  ordered : p.queue.Ordered Pending.sooner
  waits : ∀ v d, v ∉ p.settled → p.best? v = some d → ⟨d, v⟩ ∈ p.queue.toList
  held : ∀ v d, ⟨d, v⟩ ∈ p.queue.toList → ∃ e, p.best? v = some e ∧ e ≤ d

/-- An edge out of the node settled last that was not looked at before. -/
structure Next (g : Graph ℚ) (seen : Nat → Nat → ℚ → Prop) (latest : ℚ) (p : Paths ℚ)
    (node target : Nat) (weight : ℚ) : Prop where
  member : node ∈ p.settled
  known : p.best? node = some latest
  edge : g.weight? node target = some weight
  fresh : ∀ w, ¬seen node target w

theorem Queued.ne_of_waits (queued : Queued g latest p) (waits : p.isFinal target = false)
    (member : node ∈ p.settled) : node ≠ target := by
  rintro rfl
  rw [((queued.settled node).1 member).2] at waits
  cases waits

theorem Queued.mem_settled (queued : Queued g latest p) (settled : q.settled = p.settled)
    (final : q.final = p.final) (v : Nat) : v ∈ q.settled ↔ v < g.size ∧ q.isFinal v = true := by
  rw [settled, queued.settled, isFinal, isFinal, final]

theorem Queued.same (queued : Queued g latest p) (settled : q.settled = p.settled)
    (final : q.final = p.final) (best : q.best? = p.best?) (queue : q.queue = p.queue) :
    Queued g latest q where
  settled := queued.mem_settled settled final
  nodup := settled ▸ queued.nodup
  nearer := by
    rw [settled, best]
    exact queued.nearer
  farther := by
    rw [settled, best]
    exact queued.farther
  ascending := by
    rw [settled, best]
    exact queued.ascending
  ordered := queue ▸ queued.ordered
  waits := by
    rw [settled, best, queue]
    exact queued.waits
  held := by
    rw [best, queue]
    exact queued.held

/-- A node that is reached by a shorter path waits once more, at its new distance. -/
theorem Queued.pushed {through : ℚ} (queued : Queued g latest p) (settled : q.settled = p.settled)
    (final : q.final = p.final) (open_ : p.isFinal target = false) (far : latest ≤ through)
    (shorter : ∀ least, p.best? target = some least → through < least)
    (best : q.best? = Function.update p.best? target (some through))
    (queue : q.queue = p.queue.push Pending.sooner ⟨through, target⟩) : Queued g latest q := by
  have here : q.best? target = some through := by rw [best, Function.update_self]
  have elsewhere {v : Nat} (apart : v ≠ target) : q.best? v = p.best? v := by
    rw [best, Function.update_of_ne apart]
  have kept {v : Nat} (member : v ∈ p.settled) : q.best? v = p.best? v :=
    elsewhere (queued.ne_of_waits open_ member)
  constructor
  case settled => exact queued.mem_settled settled final
  case nodup => exact settled ▸ queued.nodup
  case nearer =>
    intro v member
    rw [settled] at member
    rw [kept member]
    exact queued.nearer v member
  case farther =>
    intro v d waiting reached
    rw [settled] at waiting
    rcases eq_or_ne v target with rfl | apart
    · cases here.symm.trans reached
      exact far
    · exact queued.farther v d waiting (elsewhere apart ▸ reached)
  case ascending =>
    rw [settled]
    refine queued.ascending.imp_of_mem fun {later earlier} late early less d e => ?_
    rw [kept early, kept late]
    exact less d e
  case ordered =>
    rw [queue]
    exact Queue.ordered_push Pending.ranks queued.ordered _
  case waits =>
    intro v d waiting reached
    rw [settled] at waiting
    rw [queue, Queue.mem_push]
    rcases eq_or_ne v target with rfl | apart
    · cases here.symm.trans reached
      exact .inr rfl
    · exact .inl (queued.waits v d waiting (elsewhere apart ▸ reached))
  case held =>
    intro v d member
    rw [queue, Queue.mem_push] at member
    rcases member with earlier | same
    · obtain ⟨e, known, bound⟩ := queued.held v d earlier
      rcases eq_or_ne v target with rfl | apart
      · exact ⟨_, here, (shorter e known).le.trans bound⟩
      · exact ⟨e, (elsewhere apart).trans known, bound⟩
    · cases same
      exact ⟨_, here, le_rfl⟩

section Edge

variable (positive : g.Positive) (labelled : Labelled g source seen p) (queued : Queued g latest p)
  (following : Next g seen latest p node target weight)

include positive labelled following in
theorem through_pos : 0 < latest + weight := by
  obtain ⟨_, walk⟩ := labelled.walked node latest following.known
  linarith [walk.nonneg positive, positive _ _ _ following.edge]

include positive queued following in
/-- An edge is passed over only where it makes a path that is too long. -/
theorem exists_lt_through (inside : target < g.size)
    (nearer : p.isFinal target = true ∨
      ∃ least, p.best? target = some least ∧ least < latest + weight) :
    ∃ least, p.best? target = some least ∧ least < latest + weight := by
  rcases nearer with final | nearer
  · obtain ⟨least, known, bound⟩ := queued.nearer target ((queued.settled target).2 ⟨inside, final⟩)
    exact ⟨least, known, by linarith [positive _ _ _ following.edge]⟩
  · exact nearer

/-- The edges that were looked at, with one more. -/
def andEdge (seen : Nat → Nat → ℚ → Prop) (node target : Nat) (weight : ℚ) (u v : Nat) (w : ℚ) :
    Prop :=
  seen u v w ∨ u = node ∧ v = target ∧ w = weight

include labelled following in
theorem edges_andEdge (settled : q.settled = p.settled) (u v : Nat) (w : ℚ)
    (old : andEdge seen node target weight u v w) : u ∈ q.settled ∧ g.weight? u v = some w := by
  rw [settled]
  rcases old with earlier | ⟨rfl, rfl, rfl⟩
  · exact labelled.edges u v w earlier
  · exact ⟨following.member, following.edge⟩

include labelled following in
theorem labelled_kept {least : ℚ} (known : p.best? target = some least)
    (less : least < latest + weight) : Labelled g source (andEdge seen node target weight) p where
  sized := labelled.sized
  origin := labelled.origin
  walked := labelled.walked
  edges := edges_andEdge labelled following rfl
  bounded := by
    rintro u v w d (earlier | ⟨rfl, rfl, rfl⟩) start
    · exact labelled.bounded u v w d earlier start
    · cases following.known.symm.trans start
      exact ⟨least, known, less.le⟩
  before u v := by
    rw [labelled.before]
    constructor
    · rintro ⟨w, d, earlier, rest⟩
      exact ⟨w, d, .inl earlier, rest⟩
    · rintro ⟨w, d, earlier | ⟨rfl, rfl, rfl⟩, start, tied⟩
      · exact ⟨w, d, earlier, start, tied⟩
      · cases following.known.symm.trans start
        cases known.symm.trans tied
        exact absurd less (lt_irrefl _)
  distinct := labelled.distinct
  counted := labelled.counted

include positive labelled following in
theorem source_ne_target
    (closer : ∀ least, p.best? target = some least → latest + weight ≤ least) :
    source ≠ target := by
  rintro rfl
  exact (closer 0 labelled.origin).not_gt (through_pos positive labelled following)

/-- The edge makes a path to its target that is no longer than those known, so that its node is now
one of the nodes before the target. -/
structure Reaching (seen : Nat → Nat → ℚ → Prop) (p q : Paths ℚ) (node target : Nat)
    (through : ℚ) (nodes : List Nat) : Prop where
  waits : p.isFinal target = false
  closer : ∀ least, p.best? target = some least → through ≤ least
  members : ∀ u, u ∈ nodes ↔
    u = node ∨ ∃ w d, seen u target w ∧ p.best? u = some d ∧ d + w = through
  distinct : nodes.Nodup
  best : q.best? = Function.update p.best? target (some through)
  count : q.pathsTo = Function.update p.pathsTo target (nodes.map p.pathsTo).sum
  before : q.nodesBefore = Function.update p.nodesBefore target nodes

namespace Reaching

variable {through : ℚ} {nodes : List Nat} (reaching : Reaching seen p q node target through nodes)

include reaching in
theorem best?_target : q.best? target = some through := by
  rw [reaching.best, Function.update_self]

include reaching in
theorem best?_of_ne {v : Nat} (apart : v ≠ target) : q.best? v = p.best? v := by
  rw [reaching.best, Function.update_of_ne apart]

include labelled queued reaching in
theorem ne_of_seen {u v : Nat} {w : ℚ} (earlier : seen u v w) : u ≠ target :=
  queued.ne_of_waits reaching.waits (labelled.edges u v w earlier).1

end Reaching

section Reached

variable {nodes : List Nat} (reaching : Reaching seen p q node target (latest + weight) nodes)

include queued following reaching in
theorem node_ne_target : node ≠ target := queued.ne_of_waits reaching.waits following.member

include labelled following reaching in
theorem walked_reached (v : Nat) (d : ℚ) (known : q.best? v = some d) :
    ∃ path, g.Walk source v path d := by
  rcases eq_or_ne v target with rfl | apart
  · obtain ⟨path, walk⟩ := labelled.walked node latest following.known
    cases reaching.best?_target.symm.trans known
    exact ⟨_, walk.step following.edge⟩
  · exact labelled.walked v d (reaching.best?_of_ne apart ▸ known)

include labelled queued following reaching in
theorem bounded_reached (u v : Nat) (w d : ℚ) (old : andEdge seen node target weight u v w)
    (start : q.best? u = some d) : ∃ e, q.best? v = some e ∧ e ≤ d + w := by
  rcases old with earlier | ⟨rfl, rfl, rfl⟩
  · rw [reaching.best?_of_ne (reaching.ne_of_seen labelled queued earlier)] at start
    obtain ⟨e, known, bound⟩ := labelled.bounded u v w d earlier start
    rcases eq_or_ne v target with rfl | apart
    · exact ⟨_, reaching.best?_target, (reaching.closer e known).trans bound⟩
    · exact ⟨e, (reaching.best?_of_ne apart).trans known, bound⟩
  · rw [reaching.best?_of_ne (node_ne_target queued following reaching), following.known] at start
    cases start
    exact ⟨_, reaching.best?_target, le_rfl⟩

include labelled queued following reaching in
theorem mem_nodesBefore_reached (u v : Nat) : u ∈ q.nodesBefore v ↔
    ∃ w d, andEdge seen node target weight u v w ∧ q.best? u = some d ∧
      q.best? v = some (d + w) := by
  have old {v : Nat} {w : ℚ} (earlier : seen u v w) : q.best? u = p.best? u :=
    reaching.best?_of_ne (reaching.ne_of_seen labelled queued earlier)
  rcases eq_or_ne v target with rfl | apart
  · rw [reaching.before, Function.update_self, reaching.members, reaching.best?_target]
    constructor
    · rintro (rfl | ⟨w, d, earlier, start, tied⟩)
      · have known := reaching.best?_of_ne (node_ne_target queued following reaching)
        exact ⟨weight, latest, .inr ⟨rfl, rfl, rfl⟩, known.trans following.known, rfl⟩
      · exact ⟨w, d, .inl earlier, (old earlier).trans start, congrArg some tied.symm⟩
    · rintro ⟨w, d, earlier | ⟨rfl, -, -⟩, start, tied⟩
      · exact .inr ⟨w, d, earlier, old earlier ▸ start, (Option.some_inj.1 tied).symm⟩
      · exact .inl rfl
  · rw [reaching.before, Function.update_of_ne apart, labelled.before, reaching.best?_of_ne apart]
    constructor
    · rintro ⟨w, d, earlier, start, tied⟩
      exact ⟨w, d, .inl earlier, (old earlier).trans start, tied⟩
    · rintro ⟨w, d, earlier | ⟨-, same, -⟩, start, tied⟩
      · exact ⟨w, d, earlier, old earlier ▸ start, tied⟩
      · exact absurd same apart

include positive labelled queued following reaching in
theorem pathsTo_reached (v : Nat) : q.pathsTo v =
    (if v = source then 1 else 0) + ((q.nodesBefore v).map q.pathsTo).sum := by
  -- the target comes before no node, so that the counts that are added up stay as they are
  have counts : (q.nodesBefore v).map q.pathsTo = (q.nodesBefore v).map p.pathsTo := by
    refine List.map_congr_left fun u member => ?_
    rw [mem_nodesBefore_reached labelled queued following reaching] at member
    obtain ⟨w, d, earlier | ⟨rfl, -, -⟩, -⟩ := member
    · rw [reaching.count, Function.update_of_ne (reaching.ne_of_seen labelled queued earlier)]
    · rw [reaching.count, Function.update_of_ne (node_ne_target queued following reaching)]
  rw [counts, reaching.count, reaching.before]
  rcases eq_or_ne v target with rfl | apart
  · rw [Function.update_self, Function.update_self,
      if_neg (source_ne_target positive labelled following reaching.closer).symm, zero_add]
  · rw [Function.update_of_ne apart, Function.update_of_ne apart, labelled.counted]

include positive labelled queued following reaching in
theorem labelled_reached (sized : q.Sized g.size) (settled : q.settled = p.settled) :
    Labelled g source (andEdge seen node target weight) q where
  sized := sized
  origin := by
    rw [reaching.best?_of_ne (source_ne_target positive labelled following reaching.closer),
      labelled.origin]
  walked := walked_reached labelled following reaching
  edges := edges_andEdge labelled following settled
  bounded := bounded_reached labelled queued following reaching
  before := mem_nodesBefore_reached labelled queued following reaching
  distinct v := by
    rcases eq_or_ne v target with rfl | apart
    · rw [reaching.before, Function.update_self]
      exact reaching.distinct
    · rw [reaching.before, Function.update_of_ne apart]
      exact labelled.distinct v
  counted := pathsTo_reached positive labelled queued following reaching

end Reached

include positive labelled queued following in
theorem labelled_relax (inside : target < g.size) :
    Labelled g source (andEdge seen node target weight) (p.relax node latest (target, weight)) := by
  have sized := sized_relax labelled.sized node latest (target, weight)
  have settled := settled_relax p node latest (target, weight)
  cases relaxed labelled.sized inside node latest weight with
  | kept same nearer =>
      obtain ⟨least, known, less⟩ := exists_lt_through positive queued following inside nearer
      rw [same]
      exact labelled_kept labelled following known less
  | shorter waits farther best count before queue =>
      -- an edge that was looked at would have reached the target no later
      have members (u : Nat) : u ∈ [node] ↔ u = node ∨
          ∃ w d, seen u target w ∧ p.best? u = some d ∧ d + w = latest + weight := by
        rw [List.mem_singleton, or_iff_left]
        rintro ⟨w, d, earlier, start, tied⟩
        obtain ⟨e, reached, bound⟩ := labelled.bounded u target w d earlier start
        exact absurd (tied ▸ bound) (farther e reached).not_ge
      have reaching : Reaching seen p _ node target (latest + weight) [node] :=
        ⟨waits, fun least known => (farther least known).le, members, List.nodup_singleton node,
          best, by simpa using count, before⟩
      exact labelled_reached positive labelled queued following reaching sized settled
  | joined waits tied best count before queue =>
      have closer : ∀ least, p.best? target = some least → latest + weight ≤ least := by
        intro least known
        cases tied.symm.trans known
        exact le_rfl
      have members (u : Nat) : u ∈ p.nodesBefore target ++ [node] ↔ u = node ∨
          ∃ w d, seen u target w ∧ p.best? u = some d ∧ d + w = latest + weight := by
        rw [List.mem_append, List.mem_singleton, labelled.before, tied, or_comm]
        simp only [Option.some_inj, eq_comm]
      have distinct : (p.nodesBefore target ++ [node]).Nodup := by
        refine List.nodup_append.2 ⟨labelled.distinct target, List.nodup_singleton node, ?_⟩
        rintro u member _ last rfl
        rw [List.mem_singleton.1 last, labelled.before] at member
        obtain ⟨w, d, earlier, -⟩ := member
        exact following.fresh w earlier
      have notSource := source_ne_target positive labelled following closer
      have total : p.pathsTo target + p.pathsTo node =
          ((p.nodesBefore target ++ [node]).map p.pathsTo).sum := by
        rw [labelled.counted target, if_neg notSource.symm]
        simp
      have reaching : Reaching seen p _ node target (latest + weight) _ :=
        ⟨waits, closer, members, distinct, by rw [best, ← tied, Function.update_eq_self],
          total ▸ count, before⟩
      exact labelled_reached positive labelled queued following reaching sized settled

include positive labelled queued following in
theorem queued_relax (inside : target < g.size) :
    Queued g latest (p.relax node latest (target, weight)) := by
  have final := final_relax node latest p (target, weight)
  have settled := settled_relax p node latest (target, weight)
  cases relaxed labelled.sized inside node latest weight with
  | kept same _ =>
      rw [same]
      exact queued
  | shorter waits farther best _ _ queue =>
      have longer := positive _ _ _ following.edge
      exact queued.pushed settled final waits (by linarith) farther best queue
  | joined _ _ best _ _ queue => exact queued.same settled final best queue

end Edge

theorem best?_relax {v : Nat} (sized : p.Sized g.size) (queued : Queued g latest p)
    (inside : target < g.size) (member : v ∈ p.settled) :
    (p.relax node distance (target, weight)).best? v = p.best? v := by
  cases relaxed sized inside node distance weight with
  | kept same _ => rw [same]
  | shorter waits _ best _ _ _ =>
      rw [best, Function.update_of_ne (queued.ne_of_waits waits member)]
  | joined _ _ best _ _ _ => rw [best]

end Paths

end TwoLevel
