import TwoLevel.Graph.Basic
import TwoLevel.Graph.Queue

/-!
Betweenness: for each node, the share of the shortest paths between two others that run through it.
From each source the nodes are settled in the order of their distance; afterwards each hands the
share of the paths that run through it back to the nodes before it.
-/

namespace TwoLevel

/-- Numbers that measure paths. A path that is not `near` counts as no path. -/
class Length (W : Type) extends Zero W, One W, Add W, Mul W, Div W, LT W, BEq W where
  near : W → Bool

instance : Length Float where
  near x := x < 1.0 / 0.0

/-- A node that was reached at some distance. -/
structure Pending (W : Type) where
  distance : W
  node : Nat

/-- The nearer node is sooner, of equally near ones the first. -/
def Pending.sooner {W : Type} [LT W] [DecidableLT W] (a b : Pending W) : Bool :=
  a.distance < b.distance || (!decide (b.distance < a.distance) && a.node < b.node)

structure Paths (W : Type) where
  best : Array (Option W)
  count : Array W
  before : Array (List Nat)
  /-- The nodes whose distance is final, the latest first. -/
  settled : List Nat
  final : Array Bool
  /-- A node waits once for each distance at which it was reached, also after it is settled. -/
  queue : Queue (Pending W)

namespace Paths

variable {W : Type} [Length W] [DecidableLT W]

def shorter (through : W) : Option W → Bool
  | none => true
  | some least => through < least

def start (size source : Nat) : Paths W where
  best := (Array.replicate size none).setIfInBounds source (some 0)
  count := (Array.replicate size 0).setIfInBounds source 1
  before := Array.replicate size []
  settled := []
  final := Array.replicate size false
  queue := Queue.empty.push Pending.sooner ⟨0, source⟩

def best? (p : Paths W) (node : Nat) : Option W := p.best.getD node none

def pathsTo (p : Paths W) (node : Nat) : W := p.count.getD node 0

def nodesBefore (p : Paths W) (node : Nat) : List Nat := p.before.getD node []

/-- Nothing beyond the nodes waits to be settled. -/
def isFinal (p : Paths W) (node : Nat) : Bool := p.final.getD node true

/-- Looks at an edge out of a node. A shorter path to its target takes the place of the others, one
of the same length is added to them. -/
def relax (node : Nat) (distance : W) (p : Paths W) (edge : Nat × W) : Paths W :=
  let (target, weight) := edge
  let through := distance + weight
  if p.isFinal target || !Length.near through then p
  else if shorter through (p.best? target) then
    { p with
      best := p.best.setIfInBounds target (some through)
      count := p.count.setIfInBounds target (p.pathsTo node)
      before := p.before.setIfInBounds target [node]
      queue := p.queue.push Pending.sooner ⟨through, target⟩ }
  else if p.best? target == some through then
    { p with
      count := p.count.setIfInBounds target (p.pathsTo target + p.pathsTo node)
      before := p.before.setIfInBounds target (p.nodesBefore target ++ [node]) }
  else p

def settle (g : Graph W) (p : Paths W) (node : Nat) (distance : W) : Paths W :=
  (g.neighbours node).foldl (relax node distance)
    { p with settled := node :: p.settled, final := p.final.setIfInBounds node true }

theorem final_relax (node : Nat) (distance : W) (p : Paths W) (edge : Nat × W) :
    (p.relax node distance edge).final = p.final := by
  simp only [relax]
  split
  · rfl
  · split
    · rfl
    · split <;> rfl

theorem final_settle (g : Graph W) (p : Paths W) (node : Nat) (distance : W) :
    (p.settle g node distance).final = p.final.setIfInBounds node true := by
  have kept (edges : List (Nat × W)) (p : Paths W) :
      (edges.foldl (relax node distance) p).final = p.final := by
    induction edges generalizing p with
    | nil => rfl
    | cons edge rest ih => rw [List.foldl_cons, ih, final_relax]
  exact kept _ _

/-- The number of nodes that are not settled. -/
def unsettled (p : Paths W) : Nat := p.final.count false

theorem unsettled_settle {p : Paths W} {node : Nat} (open_ : ¬p.isFinal node) (g : Graph W)
    (distance : W) : (p.settle g node distance).unsettled < p.unsettled := by
  rw [unsettled, unsettled, final_settle]
  by_cases inside : node < p.final.size
  · have notFinal : p.final[node] = false := by simpa [isFinal, inside] using open_
    have counted : 0 < p.final.count false :=
      Array.count_pos_iff.2 (notFinal ▸ Array.getElem_mem inside)
    rw [Array.setIfInBounds, dif_pos inside, Array.count_set, notFinal]
    exact Nat.sub_lt counted Nat.one_pos
  · simp [isFinal, inside] at open_

/-- Settles the pending nodes, the soonest first. One that is settled already is passed over. -/
def settleAll (g : Graph W) (p : Paths W) : Paths W :=
  match _popped : p.queue.pop? Pending.sooner with
  | none => p
  | some (⟨distance, node⟩, queue) =>
      if _settled : p.isFinal node then settleAll g { p with queue }
      else settleAll g ({ p with queue }.settle g node distance)
termination_by (p.unsettled, p.queue.size)
decreasing_by
  · exact .right _ (Queue.size_of_pop? _popped ▸ Nat.lt_succ_self _)
  · exact .left _ _ (unsettled_settle (p := { p with queue }) _settled g distance)

def outOf (g : Graph W) (source : Nat) : Paths W := (start g.size source).settleAll g

/-- Hands the share of `node` back to the nodes before it. -/
def handBack (p : Paths W) (share : Array W) (node : Nat) : Array W :=
  (p.nodesBefore node).foldl (fun share previous =>
    share.setIfInBounds previous
      (share.getD previous 0
        + p.pathsTo previous / p.pathsTo node * (1 + share.getD node 0))) share

/-- For each node, the share of shortest paths from the source that run through it, summed over
their ends. -/
def shares (p : Paths W) : Array W :=
  p.settled.foldl p.handBack (Array.replicate p.best.size 0)

def addShares (p : Paths W) (source : Nat) (totals : Array W) : Array W :=
  let shares := p.shares
  p.settled.foldl (fun totals node =>
    if node = source then totals
    else totals.setIfInBounds node (totals.getD node 0 + shares.getD node 0)) totals

end Paths

def Graph.betweenness {W : Type} [Length W] [DecidableLT W] (g : Graph W) : List W :=
  ((List.range g.size).foldl (fun totals source =>
    (Paths.outOf g source).addShares source totals) (Array.replicate g.size 0)).toList

end TwoLevel
