import Mathlib.Algebra.Order.Ring.Rat
import Mathlib.Data.Set.Card.Arithmetic
import Mathlib.Tactic.Linarith
import TwoLevel.Proofs.Edges

/-!
Walks through a graph whose edges are measured by rational numbers, and the walks of least length.
Where all edges have a positive length the shortest walks are built from each other: those to a node
are those to the last node before it, each with one step more.
-/

namespace TwoLevel.Graph

/-- A walk to a node, its nodes from the last to the first, and its length. -/
inductive Walk (g : Graph ℚ) (source : Nat) : Nat → List Nat → ℚ → Prop
  | here : Walk g source source [source] 0
  | step {node next : Nat} {path : List Nat} {length weight : ℚ} :
      Walk g source node path length → g.weight? node next = some weight →
      Walk g source next (next :: path) (length + weight)

def Reaches (g : Graph ℚ) (source node : Nat) : Prop := ∃ path length, g.Walk source node path length

structure Shortest (g : Graph ℚ) (source node : Nat) (path : List Nat) (length : ℚ) : Prop where
  walk : g.Walk source node path length
  least : ∀ other more, g.Walk source node other more → length ≤ more

def shortest (g : Graph ℚ) (source node : Nat) : Set (List Nat) :=
  {path | ∃ length, g.Shortest source node path length}

def Positive (g : Graph ℚ) : Prop := ∀ a b weight, g.weight? a b = some weight → 0 < weight

variable {g : Graph ℚ} {source node next last : Nat} {path other : List Nat}
  {length more weight : ℚ}

/-! ## Walks -/

theorem Walk.exists_eq_cons (walk : g.Walk source node path length) :
    ∃ rest, path = node :: rest := by
  cases walk with
  | here => exact ⟨[], rfl⟩
  | step => exact ⟨_, rfl⟩

theorem Walk.nonneg (positive : g.Positive) (walk : g.Walk source node path length) :
    0 ≤ length := by
  induction walk with
  | here => exact le_rfl
  | step _ edge ih => exact add_nonneg ih (positive _ _ _ edge).le

/-- A walk contains one to each of its nodes. -/
theorem Walk.exists_part (positive : g.Positive) (walk : g.Walk source node path length)
    (member : next ∈ path) :
    ∃ part less, g.Walk source next part less ∧ less ≤ length := by
  induction walk with
  | here =>
      obtain rfl := List.mem_singleton.1 member
      exact ⟨_, _, .here, le_rfl⟩
  | step walk edge ih =>
      rcases List.mem_cons.1 member with rfl | earlier
      · exact ⟨_, _, walk.step edge, le_rfl⟩
      · obtain ⟨part, less, toNext, bound⟩ := ih earlier
        exact ⟨part, less, toNext, by linarith [positive _ _ _ edge]⟩

/-! ## Shortest walks -/

theorem Shortest.length_eq (one : g.Shortest source node path length)
    (another : g.Shortest source node other more) : length = more :=
  le_antisymm (one.least _ _ another.walk) (another.least _ _ one.walk)

theorem mem_shortest (found : g.Shortest source node path length) :
    other ∈ g.shortest source node ↔ g.Walk source node other length := by
  constructor
  · rintro ⟨more, another⟩
    exact found.length_eq another ▸ another.walk
  · exact fun walk => ⟨length, walk, found.least⟩

theorem shortest_here (positive : g.Positive) : g.Shortest source source [source] 0 :=
  ⟨.here, fun _ _ walk => walk.nonneg positive⟩

theorem shortest_source (positive : g.Positive) : g.shortest source source = {[source]} := by
  ext path
  rw [mem_shortest (shortest_here positive), Set.mem_singleton_iff]
  constructor
  · intro walk
    generalize zero : (0 : ℚ) = length at walk
    cases walk with
    | here => rfl
    | step walk edge => linarith [walk.nonneg positive, positive _ _ _ edge]
  · rintro rfl
    exact .here

/-- What is left of a shortest walk without its last step is one too. -/
theorem Shortest.init (found : g.Shortest source next (next :: path) length) (other : next ≠ source) :
    ∃ node less weight, g.Shortest source node path less ∧ g.weight? node next = some weight ∧
      length = less + weight := by
  obtain ⟨walk, least⟩ := found
  cases walk with
  | here => exact absurd rfl other
  | @step node _ _ less weight walk edge =>
      refine ⟨node, less, weight, ⟨walk, fun another more toNode => ?_⟩, edge, rfl⟩
      linarith [least _ _ (toNode.step edge)]

/-- The node is the last but one of a shortest walk. -/
def Precedes (g : Graph ℚ) (source node next : Nat) : Prop :=
  ∃ path, next :: node :: path ∈ g.shortest source next

theorem Precedes.exists_weight (precedes : g.Precedes source node next) :
    ∃ path length weight, g.Shortest source node path length ∧
      g.weight? node next = some weight ∧
      g.Shortest source next (next :: path) (length + weight) := by
  obtain ⟨path, length, found⟩ := precedes
  have whole := found
  obtain ⟨walk, least⟩ := found
  cases walk with
  | @step before _ _ less weight walk edge =>
      obtain ⟨rest, same⟩ := walk.exists_eq_cons
      cases same
      refine ⟨_, less, weight, ⟨walk, fun another more toNode => ?_⟩, edge, whole⟩
      linarith [least _ _ (toNode.step edge)]

theorem Shortest.precedes (found : g.Shortest source node path length)
    (edge : g.weight? node next = some weight)
    (farther : g.Shortest source next other (length + weight)) : g.Precedes source node next := by
  obtain ⟨rest, rfl⟩ := found.walk.exists_eq_cons
  exact ⟨rest, _, found.walk.step edge, farther.least⟩

/-- To a node other than the source the shortest walks are those to a node that precedes it, with
one step more. -/
theorem mem_shortest_of_ne (distinct : next ≠ source) :
    path ∈ g.shortest source next ↔
      ∃ node, g.Precedes source node next ∧ ∃ rest ∈ g.shortest source node, path = next :: rest := by
  constructor
  · rintro ⟨length, found⟩
    obtain ⟨rest, rfl⟩ := found.walk.exists_eq_cons
    obtain ⟨node, less, weight, before, edge, rfl⟩ := found.init distinct
    exact ⟨node, before.precedes edge found, rest, ⟨less, before⟩, rfl⟩
  · rintro ⟨node, precedes, rest, ⟨less, before⟩, rfl⟩
    obtain ⟨path, length, weight, same, edge, whole⟩ := precedes.exists_weight
    refine ⟨length + weight, ?_, whole.least⟩
    exact same.length_eq before ▸ before.walk.step edge

/-- A shortest walk meets no node twice. -/
theorem Shortest.nodup (positive : g.Positive) (found : g.Shortest source node path length) :
    path.Nodup := by
  obtain ⟨walk, least⟩ := found
  induction walk with
  | here => exact List.nodup_singleton _
  | @step node next path length weight walk edge ih =>
      refine List.nodup_cons.2 ⟨fun member => ?_, ih fun another more toNode => ?_⟩
      · obtain ⟨part, less, toNext, bound⟩ := walk.exists_part positive member
        linarith [least _ _ toNext, positive _ _ _ edge]
      · linarith [least _ _ (toNode.step edge)]

/-- No shortest walk to a node goes through one that it precedes. -/
theorem Precedes.not_mem (positive : g.Positive) (precedes : g.Precedes source node next)
    (found : path ∈ g.shortest source node) : next ∉ path := by
  intro member
  obtain ⟨length, found⟩ := found
  obtain ⟨_, less, weight, before, edge, whole⟩ := precedes.exists_weight
  obtain ⟨part, toNext, walk, bound⟩ := found.walk.exists_part positive member
  linarith [whole.least _ _ walk, found.length_eq before, positive _ _ _ edge]

end TwoLevel.Graph
