import Mathlib.Data.List.Sort
import RankOne.Proofs.Schedule.LeastPath
import RankOne.Proofs.Schedule.Sweep

/-!
# The order of nodes inside a level

A node enters a frontier along an edge from a parent that has been placed, and
it is placed the first time it is met with all its parents placed. The frontier
lists edges by the paths that lead through them: children are entered where
their parent was, in increasing order, and a deferred node keeps its place. So
the edge by which a node is placed is the first of all edges from its parents,
which belongs to its least path, and the nodes of a level are ordered by their
least paths.

Neither these paths nor the numbers of the levels change when edges are left out
because of longer ways. A graph that is built with reduction has the same levels
as the graph that is built without, in the same order.

## Main results

* `Lined.step` — a round keeps the frontier ordered and places nodes by their
  paths;
* `levels_ordered` — the levels of a graph are in the order of least paths;
* `levels_reduce` — reduction does not change them;
* `Schedule.ofSystem_reduce` — nor does it change the schedule of a system.
-/

namespace RankOne

namespace DependencyGraph

variable {graph : DependencyGraph}

/-! ## First edges -/

/-- What the next frontier gets for an edge: the edges to the children of its
node when the node is placed, and the edge again when it is deferred. -/
def follow (graph : DependencyGraph) (placed : Std.TreeSet Nat)
    (edge : Nat × Nat) : List (Nat × Nat) :=
  if graph.ready placed edge.2 then
    (graph.childrenOf edge.2).toList.map (edge.2, ·) else [edge]

/-- The first edges to the nodes that have not been seen. -/
structure FirstEdges (seen : Std.TreeSet Nat)
    (edges firsts : List (Nat × Nat)) : Prop where
  sublist : firsts.Sublist edges
  nodup : (firsts.map Prod.snd).Nodup
  unseen : ∀ edge ∈ firsts, seen.contains edge.2 ≠ true
  /-- No edge to the same node comes before. -/
  first : ∀ edge ∈ edges, seen.contains edge.2 ≠ true →
    ∃ first ∈ firsts, first.2 = edge.2 ∧
      (first = edge ∨ [first, edge].Sublist edges)

namespace FirstEdges

variable {seen : Std.TreeSet Nat} {edge : Nat × Nat}
  {rest firsts : List (Nat × Nat)}

/-- An edge to a node that has been seen is passed over. -/
private theorem skip (h : FirstEdges seen rest firsts)
    (hSeen : seen.contains edge.2 = true) :
    FirstEdges seen (edge :: rest) firsts where
  sublist := h.sublist.cons _
  nodup := h.nodup
  unseen := h.unseen
  first := by
    intro other hOther hUnseen
    rcases List.mem_cons.mp hOther with rfl | hOther
    · exact absurd hSeen hUnseen
    · obtain ⟨first, hMem, hNode, hBefore⟩ := h.first other hOther hUnseen
      exact ⟨first, hMem, hNode, hBefore.imp_right (·.cons _)⟩

/-- Any other edge is the first one to its node, which has been seen from then
on. -/
private theorem take (hUnseen : seen.contains edge.2 ≠ true)
    (h : FirstEdges (seen.insert edge.2) rest firsts) :
    FirstEdges seen (edge :: rest) (edge :: firsts) := by
  have hContains : ∀ node, (seen.insert edge.2).contains node = true ↔
      edge.2 = node ∨ seen.contains node = true := by
    intro node
    rw [Std.TreeSet.contains_insert]
    simp
  refine ⟨h.sublist.cons_cons _, ?_, ?_, ?_⟩
  · rw [List.map_cons, List.nodup_cons]
    refine ⟨fun hMem => ?_, h.nodup⟩
    obtain ⟨other, hOther, hSame⟩ := List.mem_map.mp hMem
    exact h.unseen other hOther ((hContains other.2).mpr (Or.inl hSame.symm))
  · intro other hOther
    rcases List.mem_cons.mp hOther with rfl | hOther
    · exact hUnseen
    · exact fun hOld =>
        h.unseen other hOther ((hContains other.2).mpr (Or.inr hOld))
  · intro other hOther hOtherUnseen
    rcases List.mem_cons.mp hOther with rfl | hOther
    · exact ⟨other, List.mem_cons_self, rfl, Or.inl rfl⟩
    · by_cases hSame : edge.2 = other.2
      · refine ⟨edge, List.mem_cons_self, hSame, Or.inr ?_⟩
        exact (List.singleton_sublist.mpr hOther).cons_cons _
      · obtain ⟨first, hMem, hNode, hBefore⟩ := h.first other hOther
          (fun hInserted =>
            ((hContains other.2).mp hInserted).elim hSame hOtherUnseen)
        exact ⟨first, List.mem_cons_of_mem _ hMem, hNode,
          hBefore.imp_right (·.cons _)⟩

end FirstEdges

private theorem visit_seen {placed : Std.TreeSet Nat} {round : Round}
    {node : Nat} (h : round.seen.contains node = true) :
    graph.visit placed round node = round := by
  unfold visit
  rw [h, Bool.true_or, if_pos rfl]

private theorem visit_unseen (graph : DependencyGraph)
    {placed : Std.TreeSet Nat} {round : Round} {edge : Nat × Nat}
    (hUnseen : round.seen.contains edge.2 ≠ true)
    (hUnplaced : placed.contains edge.2 ≠ true) :
    (graph.visit placed round edge.2).seen = round.seen.insert edge.2 ∧
      (graph.visit placed round edge.2).members.toList =
        round.members.toList ++ [edge.2].filter (graph.ready placed) ∧
      (graph.visit placed round edge.2).next.toList =
        round.next.toList ++ (graph.follow placed edge).map Prod.snd := by
  unfold visit follow
  rw [Bool.eq_false_of_not_eq_true hUnseen,
    Bool.eq_false_of_not_eq_true hUnplaced, Bool.false_or,
    if_neg Bool.false_ne_true]
  cases hReady : graph.ready placed edge.2 with
  | true =>
      rw [ready] at hReady
      rw [hReady]
      simp [ready, hReady, Function.comp_def]
  | false =>
      rw [ready] at hReady
      rw [hReady]
      simp [ready, hReady]

/-- A round looks at the first edge to each node: it places the nodes that are
ready, in order, and follows the edges one by one. -/
private theorem visitAll_firstEdges (graph : DependencyGraph)
    {placed : Std.TreeSet Nat} {edges : List (Nat × Nat)}
    (hUnplaced : ∀ edge ∈ edges, placed.contains edge.2 ≠ true)
    (round : Round) :
    ∃ firsts, FirstEdges round.seen edges firsts ∧
      ((edges.map Prod.snd).foldl (graph.visit placed) round).members.toList =
        round.members.toList ++
          (firsts.map Prod.snd).filter (graph.ready placed) ∧
      ((edges.map Prod.snd).foldl (graph.visit placed) round).next.toList =
        round.next.toList ++
          (firsts.flatMap (graph.follow placed)).map Prod.snd := by
  induction edges generalizing round with
  | nil =>
    exact ⟨[], ⟨.slnil, List.nodup_nil, by simp, by simp⟩, by simp, by simp⟩
  | cons edge rest ih =>
      rw [List.map_cons, List.foldl_cons]
      have hRest : ∀ edge ∈ rest, placed.contains edge.2 ≠ true :=
        fun other hOther => hUnplaced other (List.mem_cons_of_mem _ hOther)
      by_cases hSeen : round.seen.contains edge.2 = true
      · rw [visit_seen hSeen]
        obtain ⟨firsts, hFirsts, hMembers, hNext⟩ := ih hRest round
        exact ⟨firsts, hFirsts.skip hSeen, hMembers, hNext⟩
      · obtain ⟨hInsert, hMembers, hNext⟩ :=
          visit_unseen graph hSeen (hUnplaced edge List.mem_cons_self)
        obtain ⟨firsts, hFirsts, hMembers', hNext'⟩ :=
          ih hRest (graph.visit placed round edge.2)
        rw [hInsert] at hFirsts
        refine ⟨edge :: firsts, hFirsts.take hSeen, ?_, ?_⟩
        · rw [hMembers', hMembers, List.append_assoc, ← List.filter_append]
          rfl
        · rw [hNext', hNext, List.append_assoc, ← List.map_append]
          rfl

/-! ## Ordered frontiers -/

/-- The path that leads through an edge. -/
def pathThrough (path : Nat → List Nat) (edge : Nat × Nat) : List Nat :=
  path edge.1 ++ [edge.2]

/-- The first of two edges has the path that comes first. -/
def EdgeBefore (path : Nat → List Nat) (edge other : Nat × Nat) : Prop :=
  Precedes (pathThrough path edge) (pathThrough path other)

/-- The edges of a frontier: they lead from placed nodes to others, and are
ordered by their paths. -/
structure Lined (graph : DependencyGraph) (path : Nat → List Nat)
    (placed : Std.TreeSet Nat) (edges : List (Nat × Nat)) : Prop where
  closed : ∀ node, placed.contains node = true →
    ∀ parent ∈ graph.parentsOf node, placed.contains parent = true
  edge : ∀ edge ∈ edges, edge.1 ∈ graph.parentsOf edge.2 ∧
    placed.contains edge.1 = true ∧
    placed.contains edge.2 ≠ true
  sorted : edges.Pairwise (EdgeBefore path)
  /-- Each edge of the graph that leads to a node that is left is there, or one
  of a smaller path is. -/
  covers : ∀ node, placed.contains node ≠ true →
    ∀ parent ∈ graph.parentsOf node, placed.contains parent = true →
      ∃ edge ∈ edges, edge.2 = node ∧
        NotAfter (pathThrough path edge) (pathThrough path (parent, node))

section Rounds

variable {path : Nat → List Nat} (hGraph : graph.Mirrored)
  (hChildren : ∀ node, (graph.childrenOf node).toList.Pairwise (· < ·))
  (hPath : ∀ node, LeastPath (graph.parentsOf node) path node)

/-- The edges to the children of a node are ordered. -/
private theorem childEdges_sorted {node : Nat}
    (hNode : (graph.childrenOf node).toList.Pairwise (· < ·)) :
    ((graph.childrenOf node).toList.map (node, ·)).Pairwise
      (EdgeBefore path) := by
  rw [List.pairwise_map]
  exact hNode.imp fun hLess => (Precedes.head hLess).prepend _

namespace Lined

variable {placed : Std.TreeSet Nat} {edges firsts : List (Nat × Nat)}
  (h : graph.Lined path placed edges) (hFirsts : FirstEdges ∅ edges firsts)
include h hFirsts

/-- The first edge to a node has the least path of all edges to it. -/
private theorem exists_first {node parent : Nat}
    (hNode : placed.contains node ≠ true)
    (hParent : parent ∈ graph.parentsOf node)
    (hPlaced : placed.contains parent = true) :
    ∃ first ∈ firsts, first.2 = node ∧
      NotAfter (pathThrough path first) (pathThrough path (parent, node)) := by
  obtain ⟨edge, hEdge, rfl, hLeast⟩ :=
    h.covers node hNode parent hParent hPlaced
  obtain ⟨first, hFirst, hSame, hBefore⟩ := hFirsts.first edge hEdge (by simp)
  refine ⟨first, hFirst, hSame, NotAfter.trans ?_ hLeast⟩
  rcases hBefore with rfl | hBefore
  · exact Or.inl rfl
  · exact Or.inr (List.pairwise_iff_forall_sublist.mp h.sorted hBefore)

include hPath in
/-- When a node is placed, the first edge to it belongs to its least path. -/
private theorem path_eq {edge : Nat × Nat} (hEdge : edge ∈ firsts)
    (hReady : graph.ready placed edge.2 = true) :
    path edge.2 = pathThrough path edge := by
  obtain ⟨hParent, -, hUnplaced⟩ := h.edge edge (hFirsts.sublist.subset hEdge)
  obtain ⟨best, hBest, hSplit⟩ :=
    (hPath edge.2).attained (List.ne_nil_of_mem hParent)
  obtain ⟨first, hFirst, hSame, hLeast⟩ :=
    h.exists_first hFirsts hUnplaced hBest (ready_iff.mp hReady best hBest)
  have hEdgeFirst : first = edge :=
    List.inj_on_of_nodup_map hFirsts.nodup hFirst hEdge hSame
  rw [hEdgeFirst] at hLeast
  refine NotAfter.antisymm ((hPath edge.2).least edge.1 hParent) ?_
  rw [hSplit]
  exact hLeast

/-! What the round leaves for the next one. -/

variable {placed' : Std.TreeSet Nat}
  (hPlaced : ∀ node, placed'.contains node = true ↔
    placed.contains node = true ∨
      node ∈ (firsts.map Prod.snd).filter (graph.ready placed))

include hPath in
/-- What follows an edge continues its path. -/
private theorem exists_rest {edge other : Nat × Nat} (hEdge : edge ∈ firsts)
    (hOther : other ∈ graph.follow placed edge) :
    ∃ rest, pathThrough path other = pathThrough path edge ++ rest := by
  unfold follow at hOther
  split at hOther
  · next hReady =>
      obtain ⟨child, -, rfl⟩ := List.mem_map.mp hOther
      refine ⟨[child], ?_⟩
      rw [← h.path_eq hPath hFirsts hEdge hReady]
      rfl
  · exact ⟨[], by rw [List.mem_singleton.mp hOther, List.append_nil]⟩

include hChildren hPath in
private theorem follow_sorted :
    (firsts.flatMap (graph.follow placed)).Pairwise (EdgeBefore path) := by
  refine List.pairwise_flatMap.mpr ⟨?_, ?_⟩
  · intro edge _
    unfold follow
    split
    · exact childEdges_sorted (hChildren edge.2)
    · exact List.pairwise_singleton _ _
  · refine (h.sorted.sublist hFirsts.sublist).imp_of_mem
      fun {edge edge'} hEdge hEdge' hBefore other hOther other' hOther' => ?_
    obtain ⟨rest, hRest⟩ := h.exists_rest hPath hFirsts hEdge hOther
    obtain ⟨rest', hRest'⟩ := h.exists_rest hPath hFirsts hEdge' hOther'
    unfold EdgeBefore
    rw [hRest, hRest']
    exact hBefore.append rest rest'

include hPath in
/-- The nodes that are placed are ordered by their paths. -/
private theorem members_sorted :
    ((firsts.map Prod.snd).filter (graph.ready placed)).Pairwise
    (fun node other => Precedes (path node) (path other)) := by
  rw [List.filter_map, List.pairwise_map]
  refine ((h.sorted.sublist hFirsts.sublist).filter _).imp_of_mem
    fun {edge edge'} hEdge hEdge' hBefore => ?_
  obtain ⟨hEdge, hReady⟩ := List.mem_filter.mp hEdge
  obtain ⟨hEdge', hReady'⟩ := List.mem_filter.mp hEdge'
  rw [h.path_eq hPath hFirsts hEdge hReady,
    h.path_eq hPath hFirsts hEdge' hReady']
  exact hBefore

include hGraph hPlaced in
private theorem follow_edge {other : Nat × Nat}
    (hOther : other ∈ firsts.flatMap (graph.follow placed)) :
    other.1 ∈ graph.parentsOf other.2 ∧ placed'.contains other.1 = true ∧
      placed'.contains other.2 ≠ true := by
  obtain ⟨edge, hEdge, hOther⟩ := List.mem_flatMap.mp hOther
  obtain ⟨hParent, hOld, hLeft⟩ := h.edge edge (hFirsts.sublist.subset hEdge)
  unfold follow at hOther
  split at hOther
  · next hReady =>
      obtain ⟨child, hChild, rfl⟩ := List.mem_map.mp hOther
      have hAbove :=
        (hGraph.mem_childrenOf edge.2 child).mp (Array.mem_toList_iff.mp hChild)
      refine ⟨hAbove, (hPlaced edge.2).mpr (Or.inr ?_), fun hChildPlaced => ?_⟩
      · exact List.mem_filter.mpr ⟨List.mem_map.mpr ⟨edge, hEdge, rfl⟩, hReady⟩
      · -- A placed child would have its parent placed before this round.
        rcases (hPlaced child).mp hChildPlaced with hChildOld | hChildNew
        · exact hLeft (h.closed child hChildOld edge.2 hAbove)
        · exact hLeft
            (ready_iff.mp (List.mem_filter.mp hChildNew).2 edge.2 hAbove)
  · next hWaits =>
      rw [List.mem_singleton.mp hOther]
      refine ⟨hParent, (hPlaced edge.1).mpr (Or.inl hOld), fun hNow => ?_⟩
      exact ((hPlaced edge.2).mp hNow).elim hLeft
        (fun hNew => hWaits (List.mem_filter.mp hNew).2)

include hGraph hPlaced in
private theorem follow_covers {node parent : Nat}
    (hLeft : placed'.contains node ≠ true)
    (hParent : parent ∈ graph.parentsOf node)
    (hNow : placed'.contains parent = true) :
    ∃ edge ∈ firsts.flatMap (graph.follow placed), edge.2 = node ∧
      NotAfter (pathThrough path edge) (pathThrough path (parent, node)) := by
  rw [Ne, hPlaced, not_or] at hLeft
  rcases (hPlaced parent).mp hNow with hOld | hNew
  · -- The first edge to the node is deferred.
    obtain ⟨first, hFirst, rfl, hLeast⟩ :=
      h.exists_first hFirsts hLeft.1 hParent hOld
    refine ⟨first, List.mem_flatMap.mpr ⟨first, hFirst, ?_⟩, rfl, hLeast⟩
    have hWaits : ¬ graph.ready placed first.2 = true := fun hReady =>
      hLeft.2 (List.mem_filter.mpr ⟨List.mem_map.mpr ⟨first, hFirst, rfl⟩,
        hReady⟩)
    rw [follow, if_neg hWaits]
    exact List.mem_singleton_self first
  · obtain ⟨hMem, hReady⟩ := List.mem_filter.mp hNew
    obtain ⟨edge, hEdge, rfl⟩ := List.mem_map.mp hMem
    refine ⟨(edge.2, node), List.mem_flatMap.mpr ⟨edge, hEdge, ?_⟩,
      rfl, Or.inl rfl⟩
    rw [follow, if_pos hReady]
    exact List.mem_map.mpr ⟨node, Array.mem_toList_iff.mpr
      ((hGraph.mem_childrenOf edge.2 node).mpr hParent), rfl⟩

include hGraph hChildren hPath hPlaced in
/-- The edges that follow make up an ordered frontier again. -/
theorem step :
    graph.Lined path placed' (firsts.flatMap (graph.follow placed)) where
  closed := by
    intro node hNode parent hParent
    rw [hPlaced] at hNode ⊢
    rcases hNode with hOld | hNew
    · exact Or.inl (h.closed node hOld parent hParent)
    · exact Or.inl (ready_iff.mp (List.mem_filter.mp hNew).2 parent hParent)
  edge := fun _ hOther => h.follow_edge hGraph hFirsts hPlaced hOther
  sorted := h.follow_sorted hChildren hPath hFirsts
  covers := fun _ hLeft _ hParent hNow =>
    h.follow_covers hGraph hFirsts hPlaced hLeft hParent hNow

end Lined

/-- A round on an ordered frontier leaves an ordered frontier, and places nodes
in the order of their paths. -/
private theorem Lined.round (hGraph : graph.Mirrored)
    (hChildren : ∀ node, (graph.childrenOf node).toList.Pairwise (· < ·))
    (hPath : ∀ node, LeastPath (graph.parentsOf node) path node)
    {placed : Std.TreeSet Nat} {edges : List (Nat × Nat)}
    (h : graph.Lined path placed edges) {round : Round}
    (hRound : round = (edges.map Prod.snd).foldl (graph.visit placed) {}) :
    (∃ edges', round.next.toList = edges'.map Prod.snd ∧
      graph.Lined path
        (round.members.toList.foldl (·.insert ·) placed) edges') ∧
    round.members.toList.Pairwise (fun node other =>
      Precedes (path node) (path other)) := by
  obtain ⟨firsts, hFirsts, hMembers, hNext⟩ := visitAll_firstEdges graph
    (fun edge hEdge => (h.edge edge hEdge).2.2) {}
  rw [← hRound, List.nil_append] at hMembers hNext
  refine ⟨⟨firsts.flatMap (graph.follow placed), hNext, ?_⟩, ?_⟩
  · apply h.step hGraph hChildren hPath hFirsts
    intro node
    rw [contains_foldl_insert, hMembers]
  · rw [hMembers]
    exact h.members_sorted hPath hFirsts

include hGraph hChildren hPath in
/-- Each level that the rounds place is ordered. -/
private theorem placeRounds_ordered {rounds : Nat} {placed : Std.TreeSet Nat}
    {frontier : Array Nat} {edges : List (Nat × Nat)} {later : List (List Nat)}
    (hLined : graph.Lined path placed edges)
    (hFrontier : frontier.toList = edges.map Prod.snd)
    (h : graph.placeRounds rounds placed frontier = .ok later) :
    ∀ level ∈ later,
      level.Pairwise (fun node other => Precedes (path node) (path other)) := by
  induction rounds generalizing placed frontier edges later with
  | zero =>
      unfold placeRounds at h
      split at h
      · injection h with h
        subst h
        simp
      · cases h
  | succ rounds ih =>
      unfold placeRounds at h
      split at h
      · injection h with h
        subst h
        simp
      dsimp only at h
      split at h
      · cases h
      split at h
      · cases h
      next following hFollowing =>
      injection h with h
      subst h
      rw [← Array.foldl_toList, ← Array.foldl_toList, hFrontier] at hFollowing
      rw [← Array.foldl_toList, hFrontier]
      obtain ⟨⟨edges', hNext, hLined'⟩, hSorted⟩ :=
        hLined.round hGraph hChildren hPath rfl
      exact List.forall_mem_cons.mpr ⟨hSorted, ih hLined' hNext hFollowing⟩

/-! ## Levels -/

/-- The edges from the nodes without parents. -/
def entryEdges (graph : DependencyGraph) : List (Nat × Nat) :=
  graph.entryNodes.flatMap fun node =>
    (graph.childrenOf node).toList.map (node, ·)

private theorem firstFrontier_eq :
    (graph.entryNodes.foldl (fun frontier node =>
      frontier ++ graph.childrenOf node) #[]).toList =
      graph.entryEdges.map Prod.snd := by
  have hFold : ∀ (nodes : List Nat) (frontier : Array Nat),
      (nodes.foldl (fun frontier node =>
        frontier ++ graph.childrenOf node) frontier).toList =
        frontier.toList ++ nodes.flatMap fun node =>
          (graph.childrenOf node).toList := by
    intro nodes
    induction nodes with
    | nil => simp
    | cons first rest ih =>
        intro frontier
        rw [List.foldl_cons, ih, Array.toList_append, List.append_assoc,
          List.flatMap_cons]
  rw [hFold, entryEdges, List.map_flatMap]
  simp [Function.comp_def]

include hPath in
private theorem entryNodes_sorted :
    graph.entryNodes.Pairwise (fun node other =>
      Precedes (path node) (path other)) := by
  refine (List.pairwise_lt_range.filter _).imp_of_mem
    fun {node other} hNode hOther hLess => ?_
  rw [(hPath node).entry (mem_entryNodes.mp hNode).2,
    (hPath other).entry (mem_entryNodes.mp hOther).2]
  exact Precedes.head hLess

include hGraph hChildren hPath in
/-- The first frontier is ordered. -/
private theorem lined_entryEdges :
    graph.Lined path
      (graph.entryNodes.foldl (·.insert ·) ∅) graph.entryEdges where
  closed := by
    intro node hNode parent hParent
    rw [contains_entryNodes, mem_entryNodes] at hNode
    rw [hNode.2] at hParent
    cases hParent
  edge := by
    intro edge hEdge
    obtain ⟨node, hNode, hEdge⟩ := List.mem_flatMap.mp hEdge
    obtain ⟨child, hChild, rfl⟩ := List.mem_map.mp hEdge
    have hParent :=
      (hGraph.mem_childrenOf node child).mp (Array.mem_toList_iff.mp hChild)
    refine ⟨hParent, contains_entryNodes.mpr hNode, fun hEntry => ?_⟩
    rw [contains_entryNodes, mem_entryNodes] at hEntry
    rw [hEntry.2] at hParent
    cases hParent
  sorted := by
    refine List.pairwise_flatMap.mpr ⟨fun node _ =>
      childEdges_sorted (hChildren node), ?_⟩
    refine (entryNodes_sorted hPath).imp fun hBefore edge hEdge edge' hEdge' =>
      ?_
    obtain ⟨child, -, rfl⟩ := List.mem_map.mp hEdge
    obtain ⟨child', -, rfl⟩ := List.mem_map.mp hEdge'
    exact hBefore.append [child] [child']
  covers := by
    intro node _ parent hParent hPlaced
    refine ⟨(parent, node), ?_, rfl, Or.inl rfl⟩
    refine List.mem_flatMap.mpr ⟨parent, contains_entryNodes.mp hPlaced, ?_⟩
    exact List.mem_map.mpr ⟨node, Array.mem_toList_iff.mpr
      ((hGraph.mem_childrenOf parent node).mpr hParent), rfl⟩

include hGraph hChildren hPath in
/-- In each level of a graph the nodes are ordered by their least paths. -/
theorem levels_ordered {levels : List (List Nat)}
    (h : graph.levels = .ok levels) :
    ∀ level ∈ levels,
      level.Pairwise (fun node other => Precedes (path node) (path other)) := by
  obtain ⟨later, hLater, hChosen, -⟩ := levels_eq_ok h
  have hSorted := placeRounds_ordered hGraph hChildren hPath
    (lined_entryEdges hGraph hChildren hPath) firstFrontier_eq hLater
  subst hChosen
  intro level hLevel
  split at hLevel
  · exact hSorted level hLevel
  · rcases List.mem_cons.mp hLevel with rfl | hLevel
    · exact entryNodes_sorted hPath
    · exact hSorted level hLevel

end Rounds

/-! ## Reduction -/

section Reduction

variable {parents : List (List Nat)} (hParents : OlderParents parents)
  {reduce reduce' : Bool}
include hParents

/-- Parents that are older make up a graph that has levels. -/
theorem exists_levels (reduce : Bool) :
    ∃ levels, (ofParents reduce parents).levels = .ok levels :=
  (ofParents_wellFormed hParents).levels_total

variable {levels levels' : List (List Nat)}
  (hLevels : (ofParents reduce parents).levels = .ok levels)
  (hLevels' : (ofParents reduce' parents).levels = .ok levels')
include hLevels hLevels'

/-- The number of the level of a node does not depend on reduction. -/
private theorem level_le {node number number' : Nat} {level level' : List Nat}
    (hLevel : levels[number]? = some level) (hNode : node ∈ level)
    (hLevel' : levels'[number']? = some level') (hNode' : node ∈ level') :
    number ≤ number' := by
  induction node using Nat.strongRecOn
    generalizing number number' level level' with
  | ind node ih =>
      cases number with
      | zero => exact Nat.zero_le number'
      | succ before =>
          have hSize : node < parents.length := by
            have hMem : node ∈ levels.flatten :=
              List.mem_flatten.mpr ⟨level, List.mem_of_getElem? hLevel, hNode⟩
            have hPerm := (levels_levelled
              (ofParents_wellFormed hParents).toMirrored hLevels).2
            rw [hPerm.mem_iff, size_ofParents, List.mem_range] at hMem
            exact hMem
          have hGiven := List.getElem?_eq_getElem hSize
          obtain ⟨parent, hParent, earlier, hEarlier, hMem⟩ :=
            (level_of_given hParents hLevels hLevel hNode hGiven).2 before rfl
          obtain ⟨before', earlier', hBefore', hEarlier', hMem'⟩ :=
            (level_of_given hParents hLevels' hLevel' hNode' hGiven).1
              parent hParent
          have hOlder := (hParents node _ hGiven).2 parent hParent
          have hLe := ih parent hOlder hEarlier hMem hEarlier' hMem'
          omega

/-- The nodes of a level make up the level of the same number. -/
private theorem exists_level {number : Nat} {level : List Nat}
    (hLevel : levels[number]? = some level) :
    ∃ level', levels'[number]? = some level' ∧
      ∀ node ∈ level, node ∈ level' := by
  have hSame : ∀ node ∈ level, ∃ level', levels'[number]? = some level' ∧
      node ∈ level' := by
    intro node hNode
    have hMem : node ∈ levels.flatten :=
      List.mem_flatten.mpr ⟨level, List.mem_of_getElem? hLevel, hNode⟩
    rw [(levels_levelled
      (ofParents_wellFormed hParents).toMirrored hLevels).2.mem_iff,
      size_ofParents, ← @size_ofParents reduce', ← (levels_levelled
      (ofParents_wellFormed hParents).toMirrored hLevels').2.mem_iff] at hMem
    obtain ⟨level', hLevel', hNode'⟩ := List.mem_flatten.mp hMem
    obtain ⟨number', hGet⟩ := List.mem_iff_getElem?.mp hLevel'
    have hNumber : number = number' := Nat.le_antisymm
      (level_le hParents hLevels hLevels' hLevel hNode hGet hNode')
      (level_le hParents hLevels' hLevels hGet hNode' hLevel hNode)
    exact ⟨level', hNumber ▸ hGet, hNode'⟩
  obtain ⟨first, hFirst⟩ := List.exists_mem_of_ne_nil _
    (levels_follow (ofParents_wellFormed hParents).toMirrored hLevels hLevel).1
  obtain ⟨level', hLevel', -⟩ := hSame first hFirst
  refine ⟨level', hLevel', fun node hNode => ?_⟩
  obtain ⟨other, hOther, hMem⟩ := hSame node hNode
  rw [hLevel'] at hOther
  injection hOther with hOther
  exact hOther ▸ hMem

omit hLevels hLevels' in
/-- Reduction changes neither the levels nor the order inside them. -/
theorem levels_reduce :
    (ofParents true parents).levels = (ofParents false parents).levels := by
  obtain ⟨path, hPath⟩ := exists_leastPaths hParents
  have hOrdered := fun reduce => @levels_ordered (ofParents reduce parents) path
    (ofParents_wellFormed hParents).toMirrored (childrenOf_increasing hParents)
    (leastPath_parentsOf hParents reduce hPath)
  obtain ⟨levels, hLevels⟩ := exists_levels hParents true
  obtain ⟨levels', hLevels'⟩ := exists_levels hParents false
  have hSorted := hOrdered true hLevels
  have hSorted' := hOrdered false hLevels'
  rw [hLevels, hLevels']
  congr 1
  refine List.ext_getElem? fun number => ?_
  have : Std.Irrefl (fun node other => Precedes (path node) (path other)) :=
    ⟨fun node => Precedes.irrefl (path node)⟩
  have : Std.Antisymm (fun node other => Precedes (path node) (path other)) :=
    ⟨fun _ _ hBefore hAfter => absurd hAfter hBefore.asymm⟩
  cases hLevel : levels[number]? with
  | none =>
      cases hLevel' : levels'[number]? with
      | none => rfl
      | some level' =>
          obtain ⟨level, hGet, -⟩ :=
            exists_level hParents hLevels' hLevels hLevel'
          rw [hLevel] at hGet
          cases hGet
  | some level =>
      obtain ⟨level', hGet, hSubset⟩ :=
        exists_level hParents hLevels hLevels' hLevel
      obtain ⟨other, hOther, hSubset'⟩ :=
        exists_level hParents hLevels' hLevels hGet
      rw [hLevel] at hOther
      injection hOther with hOther
      subst hOther
      rw [hGet]
      congr 1
      exact (hSorted level (List.mem_of_getElem? hLevel)).eq_of_mem_iff
        (hSorted' level' (List.mem_of_getElem? hGet)) fun node =>
          ⟨hSubset node, hSubset' node⟩

end Reduction

end DependencyGraph

/-! ## Schedules -/

namespace Schedule

/-- The schedule of given costs does not depend on reduction. -/
private theorem ofCosts_reduce {costs : List NodeCost}
    (hCosts : DependencyGraph.OlderParents (costs.map NodeCost.dependencies))
    (maxTaskWeight : Nat) :
    ofCosts ⟨maxTaskWeight, true⟩ costs =
      ofCosts ⟨maxTaskWeight, false⟩ costs := by
  unfold ofCosts
  dsimp only
  rw [DependencyGraph.levels_reduce hCosts, DependencyGraph.size_ofParents,
    DependencyGraph.size_ofParents]

/-- Whatever the bound on the weight of a task, the schedule of a valid system
does not depend on reduction: there is the same failure, or there are the same
tasks in the same levels. -/
theorem ofSystem_reduce {p : Nat} {flat : FlatSystem p} {system : ValidSystem p}
    (hValid : flat.validate = .ok system) (maxTaskWeight : Nat) :
    ofSystem ⟨maxTaskWeight, true⟩ system =
      ofSystem ⟨maxTaskWeight, false⟩ system := by
  obtain ⟨-, hSystem⟩ := FlatSystem.validate_wellFormed hValid
  unfold ofSystem
  cases hResolution : system.resolution with
  | error cause => rfl
  | ok resolution =>
    exact ofCosts_reduce (olderParents_costs hSystem hResolution) maxTaskWeight

/-- The third constraint of the powers waits for the second and for the first,
for which the second waits: one edge is left out, and the schedule stays. -/
theorem ofSystem_reduce_powers :
    ∃ system : ValidSystem 17, powerSystem.validate = .ok system ∧
    Schedule.ofSystem ⟨0, true⟩ system = Schedule.ofSystem ⟨0, false⟩ system ∧
    ∃ resolution, system.resolution = .ok resolution ∧
      (DependencyGraph.ofParents true
        (resolution.costs.map NodeCost.dependencies)).parentsOf 2 = [1] ∧
      (DependencyGraph.ofParents false
        (resolution.costs.map NodeCost.dependencies)).parentsOf 2 = [1, 0] := by
  have hRun : (powerSystem.validate.toOption.any fun system =>
      system.resolution.toOption.any fun resolution => decide (
        (DependencyGraph.ofParents true
          (resolution.costs.map NodeCost.dependencies)).parentsOf 2 = [1] ∧
        (DependencyGraph.ofParents false
          (resolution.costs.map NodeCost.dependencies)).parentsOf 2 =
            [1, 0])) = true := by
    decide +kernel
  simp only [Option.any_eq_true, toOption_eq_some, decide_eq_true_eq] at hRun
  obtain ⟨system, hValid, resolution, hResolution, hReduced, hGiven⟩ := hRun
  exact ⟨system, hValid, ofSystem_reduce hValid 0, resolution, hResolution,
    hReduced, hGiven⟩

end Schedule

end RankOne
