import RankOne.Failure
import Std.Data.TreeSet

/-!
# The dependency graph and its levels

Nodes are numbered in the order in which they are added, and the parents of a
node are older nodes. The graph keeps the parents of each node in decreasing
order and its children in increasing order.

A node may be added with reduction: a parent that is an ancestor of another
parent is left out. `maximalParents` finds these in one walk from the newest
parent down, in which everything reached from a newer node is marked as implied.

`levels` sorts the nodes by rounds. Round zero places the nodes without parents.
A later round goes through a frontier of candidates in order: it places those
whose parents were all placed in earlier rounds, puts their children into the
next frontier, and defers the others to it.
-/

namespace RankOne

/-- A graph of numbered nodes whose edges go from older to newer nodes. The
parents of a node are in decreasing order, its children in increasing order. -/
structure DependencyGraph where
  parents : Array (List Nat) := #[]
  children : Array (Array Nat) := #[]
deriving DecidableEq, Repr

/-- Merges nodes that have been reached into a decreasing work list of nodes,
each of which says whether it has been reached. -/
def mergeReached : List (Nat × Bool) → List Nat → List (Nat × Bool)
  | [], reached => reached.map (·, true)
  | (node, implied) :: work, reached =>
      let newer := reached.takeWhile (node < ·)
      let rest := reached.dropWhile (node < ·)
      newer.map (·, true) ++
        (node, implied || rest.head? == some node) ::
          mergeReached work (rest.dropWhile (· == node))

namespace DependencyGraph

/-- Number of nodes. -/
def size (graph : DependencyGraph) : Nat := graph.parents.size

/-- The parents of a node. -/
def parentsOf (graph : DependencyGraph) (node : Nat) : List Nat :=
  graph.parents.getD node []

/-- The children of a node. -/
def childrenOf (graph : DependencyGraph) (node : Nat) : Array Nat :=
  graph.children.getD node #[]

/-- Walks down from the newest node of the work list and collects the nodes that
no newer one reaches. Nodes below `floor` are not entered. The head of the work
list decreases with every step. -/
def unreached (graph : DependencyGraph) (floor : Nat) :
    Nat → List (Nat × Bool) → List Nat
  | 0, _ => []
  | _ + 1, [] => []
  | steps + 1, (node, implied) :: work =>
      let reached := (graph.parentsOf node).takeWhile (floor ≤ ·)
      let rest := unreached graph floor steps (mergeReached work reached)
      if implied then rest else node :: rest

/-- The given parents that are not ancestors of another given parent. -/
def maximalParents (graph : DependencyGraph) (parents : List Nat) : List Nat :=
  graph.unreached (parents.getLastD 0) (parents.headD 0 + 1)
    (parents.map (·, false))

/-- Adds a node with the given parents, which are in strictly decreasing
order. -/
def addNode (reduce : Bool) (graph : DependencyGraph) (given : List Nat) :
    DependencyGraph :=
  let node := graph.size
  let parents := if reduce then graph.maximalParents given else given
  { parents := graph.parents.push parents
    children := (parents.foldl (fun children parent =>
      children.modify parent (·.push node)) graph.children).push #[] }

/-- The graph whose nodes have the given parents, in order. -/
def ofParents (reduce : Bool) (parents : List (List Nat)) : DependencyGraph :=
  parents.foldl (addNode reduce) {}

/-! ## Levels -/

/-- One round while it goes through its frontier: the nodes looked at, the nodes
placed, and the frontier of the next round. -/
structure Round where
  seen : Std.TreeSet Nat := ∅
  members : Array Nat := #[]
  next : Array Nat := #[]

/-- Looks at one candidate: passes over it when it is placed or seen already,
places it when all its parents are placed, and defers it otherwise. -/
def visit (graph : DependencyGraph) (placed : Std.TreeSet Nat) (round : Round)
    (node : Nat) : Round :=
  if round.seen.contains node || placed.contains node then round
  else
    let seen := round.seen.insert node
    if (graph.parentsOf node).all placed.contains then
      { seen, members := round.members.push node, next :=
          round.next ++ graph.childrenOf node }
    else { round with seen, next := round.next.push node }

/-- Places nodes round by round until the frontier is empty. A round that places
nothing means a cycle; since every other round places a node, the number of
nodes bounds the rounds. -/
def placeRounds (graph : DependencyGraph) :
    Nat → Std.TreeSet Nat → Array Nat → Except Fault (List (List Nat))
  | 0, _, frontier => if frontier.isEmpty then .ok []
    else .error .cyclicDependencies
  | rounds + 1, placed, frontier =>
      if frontier.isEmpty then .ok []
      else
        let round := frontier.foldl (graph.visit placed) {}
        if round.members.isEmpty then .error .cyclicDependencies
        else
          match graph.placeRounds rounds
              (round.members.foldl (·.insert ·) placed) round.next with
          | .error cause => .error cause
          | .ok later => .ok (round.members.toList :: later)

/-- The nodes without parents, in order. -/
def entryNodes (graph : DependencyGraph) : List Nat :=
  (List.range graph.size).filter (fun node => (graph.parentsOf node).isEmpty)

/-- The nodes level by level, in the order in which the rounds place them. -/
def levels (graph : DependencyGraph) : Except Fault (List (List Nat)) :=
  let entry := graph.entryNodes
  match graph.placeRounds graph.size (entry.foldl (·.insert ·) ∅)
      (entry.foldl (fun frontier node =>
        frontier ++ graph.childrenOf node) #[]) with
  | .error cause => .error cause
  | .ok later =>
      let levels := if entry.isEmpty then later else entry :: later
      let placed := levels.flatten.length
      if placed = graph.size then .ok levels
      else .error (.unplacedConstraints placed graph.size)

end DependencyGraph

end RankOne
