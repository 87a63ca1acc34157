/-!
# Packing a level into tasks

The nodes of a level are cut, in order, into tasks that workers run. A task is
closed once its weight exceeds the bound, so it may exceed the bound by its last
node, and a node that runs a caller's function has a task for itself.
-/

namespace RankOne

/-- Nodes that one worker runs in order. -/
structure Task where
  nodes : List Nat
  weight : Nat
deriving DecidableEq, Repr

/-- Tasks that may run side by side. -/
structure Level where
  tasks : List Task
deriving DecidableEq, Repr

namespace Level

/-- All nodes of a level, in order. -/
def nodes (level : Level) : List Nat := level.tasks.flatMap Task.nodes

end Level

namespace Task

/-- Puts a node in front; the weight is that of the finished task already. -/
def cons (node : Nat) (task : Task) : Task :=
  { task with nodes := node :: task.nodes }

/-- Continues a task that weighs `weight` so far and whose last node is custom
or not: the nodes that join it, with its final weight, and the tasks that
follow. -/
def packAfter (maxWeight : Nat) (weightOf : Nat → Nat) (custom : Nat → Bool) :
    Nat → Bool → List Nat → Task × List Task
  | weight, _, [] => (⟨[], weight⟩, [])
  | weight, lastCustom, node :: rest =>
      if maxWeight < weight || lastCustom || custom node then
        let following :=
          packAfter maxWeight weightOf custom (weightOf node) (custom node) rest
        (⟨[], weight⟩, following.1.cons node :: following.2)
      else
        let following :=
          packAfter maxWeight weightOf custom
            (weight + weightOf node) (custom node) rest
        (following.1.cons node, following.2)

/-- Cuts the nodes of a level into tasks. -/
def pack (maxWeight : Nat) (weightOf : Nat → Nat) (custom : Nat → Bool) :
    List Nat → List Task
  | [] => []
  | node :: rest =>
      let following :=
        packAfter maxWeight weightOf custom (weightOf node) (custom node) rest
      following.1.cons node :: following.2

end Task

end RankOne
