import RankOne.Schedule.Graph
import RankOne.Schedule.Resolution
import RankOne.Schedule.Task

/-!
# Schedules

A schedule lists levels of tasks that cover every constraint once, such that a
constraint comes in a later level than the constraints it depends on.
-/

namespace RankOne

/-- Settings of the scheduler. -/
structure SchedulerSettings where
  /-- A task is closed once its weight exceeds this bound. -/
  maxTaskWeight : Nat := 750
  reduceTransitiveEdges : Bool := false
deriving DecidableEq, Repr

/-- Levels in the order in which they run. -/
structure Schedule where
  levels : List Level := []
  levelOf : Array Nat := #[]
deriving DecidableEq, Repr

namespace NodeCost

/-- The weight that packing uses: a node with a caller's function weighs at
least the bound. -/
def packingWeight (cost : NodeCost) (maxWeight : Nat) : Nat :=
  if cost.custom then max cost.weight maxWeight else cost.weight

end NodeCost

namespace Schedule

/-- The level of each of `size` nodes, given the nodes level by level. -/
def levelNumbers (size : Nat) (levels : List (List Nat)) : Array Nat :=
  levels.zipIdx.foldl
    (fun numbers (nodes, level) =>
      nodes.foldl (fun numbers node =>
        numbers.setIfInBounds node level) numbers)
    (Array.replicate size 0)

/-- The schedule of constraints with the given costs. -/
def ofCosts (settings : SchedulerSettings) (costs : List NodeCost) :
    Except Fault Schedule :=
  let graph := DependencyGraph.ofParents settings.reduceTransitiveEdges
    (costs.map NodeCost.dependencies)
  match graph.levels with
  | .error cause => .error cause
  | .ok levels =>
      let table := costs.toArray
      let costOf := fun node => table.getD node {}
      .ok {
        levels := levels.map fun nodes =>
          ⟨Task.pack settings.maxTaskWeight
            (fun node => (costOf node).packingWeight settings.maxTaskWeight)
            (fun node => (costOf node).custom) nodes⟩
        levelOf := levelNumbers graph.size levels }

/-- The schedule of a valid system. -/
def ofSystem {p : Nat} (settings : SchedulerSettings) (system : ValidSystem p) :
    Except Fault Schedule :=
  match system.resolution with
  | .error cause => .error cause
  | .ok resolution => ofCosts settings resolution.costs

end Schedule

end RankOne
