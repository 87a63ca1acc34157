import Mathlib.Data.List.Sort
import RankOne.Proofs.Schedule.AncestorSearch

/-!
# Implied parents

A parent that is an ancestor of another parent is implied by it. Reduction
leaves out the implied parents and no others, although it looks at a graph from
which implied parents were left out before: what is an ancestor of what stays
the same.

The walk of `maximalParents` and the searches of `strikeParents` both come to
the parents that are not implied. A decreasing list is determined by its
members, so that they come to the same list.

## Main results

* `DependencyGraph.mem_maximalParents_iff` — the walk collects the parents that
  are not implied;
* `StampedGraph.ofParents_eq` — with searches instead of the walk the same graph
  is built;
* `DependencyGraph.isAncestor_reduce` — reduction leaves the ancestors as they
  are;
* `DependencyGraph.ofParents_exact` — what reduction leaves out, for every
  graph.
-/

namespace RankOne

/-! ## The walk marks everything it reaches -/

private theorem lt_of_mem_dropWhile {xs : List Nat} {floor x : Nat}
    (h : xs.Pairwise (· > ·)) (hx : x ∈ xs.dropWhile (floor ≤ ·)) :
    x < floor := by
  induction xs with
  | nil => simp at hx
  | cons first rest ih =>
      obtain ⟨hFirst, hRest⟩ := List.pairwise_cons.mp h
      rw [List.dropWhile_cons] at hx
      split at hx
      · exact ih hRest hx
      · next hStop =>
          have hBound : first < floor := by simpa using hStop
          rcases List.mem_cons.mp hx with rfl | hx
          · exact hBound
          · have hLess := hFirst x hx
            omega

/-- In a decreasing list the nodes from a bound on come first. -/
private theorem mem_takeWhile_of_le {xs : List Nat} {floor x : Nat}
    (h : xs.Pairwise (· > ·)) (hx : x ∈ xs) (hFloor : floor ≤ x) :
    x ∈ xs.takeWhile (floor ≤ ·) := by
  rw [← List.takeWhile_append_dropWhile (p := (floor ≤ ·)) (l := xs)] at hx
  refine (List.mem_append.mp hx).resolve_right fun hRest => ?_
  have hLess := lt_of_mem_dropWhile h hRest
  omega

/-- What has been reached is marked in a merged work list. -/
private theorem mem_mergeReached_of_reached {work : List (Nat × Bool)}
    {reached : List Nat} {x : Nat} (h : x ∈ reached) :
    (x, true) ∈ mergeReached work reached := by
  induction work generalizing reached with
  | nil => exact List.mem_map.mpr ⟨x, h, rfl⟩
  | cons head work ih =>
      obtain ⟨node, marked⟩ := head
      unfold mergeReached
      dsimp only
      rw [← List.takeWhile_append_dropWhile (p := (node < ·)) (l := reached)]
        at h
      generalize reached.dropWhile (node < ·) = rest at h ⊢
      rcases List.mem_append.mp h with hNewer | hRest
      · exact List.mem_append_left _ (List.mem_map.mpr ⟨x, hNewer, rfl⟩)
      rw [← List.takeWhile_append_dropWhile (p := (· == node)) (l := rest)]
        at hRest
      rcases List.mem_append.mp hRest with hSame | hOlder
      · have hNode : x = node := by simpa using List.mem_takeWhile_imp hSame
        have hHead : rest.head? = some node := by
          cases rest with
          | nil => simp at hSame
          | cons first others =>
              by_cases hFirst : first = node
              · rw [hFirst, List.head?_cons]
              · simp [hFirst] at hSame
        refine List.mem_append_right _ ?_
        rw [hHead, hNode]
        simp
      · exact List.mem_append_right _ (List.mem_cons_of_mem _ (ih hOlder))

namespace DependencyGraph

variable {graph : DependencyGraph}

private theorem implied_unique {work : List (Nat × Bool)}
    (hWork : WorkDecreasing work) {x : Nat} (hMarked : (x, true) ∈ work) :
    (x, false) ∉ work := by
  intro hUnmarked
  have hNodup : (work.map Prod.fst).Nodup :=
    List.pairwise_map.mpr (hWork.imp fun hLess => Nat.ne_of_gt hLess)
  have hSame := List.inj_on_of_nodup_map hNodup hMarked hUnmarked rfl
  cases hSame

/-- The walk does not collect an ancestor of a node that it comes to. -/
private theorem notMem_unreached (hGraph : graph.WellFormed)
    {floor steps older newer : Nat} {work : List (Nat × Bool)}
    {implied implied' : Bool} (hWork : WorkDecreasing work)
    (hOlder : (older, implied) ∈ work) (hNewer : (newer, implied') ∈ work)
    (hFloor : floor ≤ older) (hPath : graph.IsAncestor older newer) :
    older ∉ graph.unreached floor steps work := by
  induction steps generalizing work newer implied implied' with
  | zero => simp [unreached]
  | succ steps ih =>
      cases work with
      | nil => cases hOlder
      | cons head rest =>
          obtain ⟨node, marked⟩ := head
          have hLess := hGraph.lt_of_isAncestor hPath
          have hBelow : older < node := by
            rcases List.mem_cons.mp hNewer with hHead | hRest
            · injection hHead with hSame
              omega
            · have hNext := (List.pairwise_cons.mp hWork).1 _ hRest
              exact Nat.lt_trans hLess hNext
          have hLater : (older, implied) ∈ rest := by
            refine (List.mem_cons.mp hOlder).resolve_left fun hHead => ?_
            injection hHead with hSame
            omega
          generalize hReached :
            (graph.parentsOf node).takeWhile (floor ≤ ·) = reached
          have hReach : ∀ parent, graph.IsParent parent node → floor ≤ parent →
              (parent, true) ∈ mergeReached rest reached := by
            intro parent hParent hAbove
            refine mem_mergeReached_of_reached (hReached ▸ ?_)
            exact mem_takeWhile_of_le (hGraph.decreasing node) hParent hAbove
          have hNext : WorkDecreasing (mergeReached rest reached) :=
            hReached ▸ next_decreasing hGraph floor hWork
          obtain ⟨implied₁, hMerged⟩ := exists_mem_mergeReached reached hLater
          have hNot : older ∉
              graph.unreached floor steps (mergeReached rest reached) := by
            rcases List.mem_cons.mp hNewer with hHead | hRest
            · injection hHead with hSame
              subst hSame
              rcases Relation.TransGen.tail'_iff.mp hPath
                with ⟨parent, hUpper, hParent⟩
              rcases Relation.reflTransGen_iff_eq_or_transGen.mp hUpper
                with hSelf | hUpper
              · -- The ancestor is a parent of the head, and is marked when it
                -- is reached.
                subst hSelf
                exact fun hMem => implied_unique hNext (hReach _ hParent hFloor)
                  (mem_work_of_mem_unreached hMem)
              · have hBetween := hGraph.lt_of_isAncestor hUpper
                exact ih hNext hMerged (hReach parent hParent (by omega)) hUpper
            · obtain ⟨implied₂, hMerged'⟩ :=
                exists_mem_mergeReached reached hRest
              exact ih hNext hMerged hMerged' hPath
          unfold unreached
          dsimp only
          rw [hReached]
          split
          · exact hNot
          · intro hMem
            rcases List.mem_cons.mp hMem with hHead | hMem
            · omega
            · exact hNot hMem

/-! ## Two ways to the same parents -/

/-- A parent that is given for a node and not implied by another one. -/
def Unimplied (graph : DependencyGraph) (given : List Nat) (parent : Nat) :
    Prop :=
  parent ∈ given ∧ ¬ ∃ other ∈ given, graph.IsAncestor parent other

/-- The walk collects the parents that are not implied. -/
theorem mem_maximalParents_iff (hGraph : graph.WellFormed) {given : List Nat}
    (hGiven : given.Pairwise (· > ·)) {parent : Nat} :
    parent ∈ graph.maximalParents given ↔ graph.Unimplied given parent := by
  constructor
  · intro h
    have hMem := mem_given_of_mem_maximalParents h
    refine ⟨hMem, ?_⟩
    rintro ⟨other, hOther, hPath⟩
    have hFloor : given.getLastD 0 ≤ parent := by
      rw [List.getLastD_eq_getLast?]
      cases hLast : given.getLast? with
      | none => exact Nat.zero_le parent
      | some oldest => exact le_of_getLast?_eq_some hGiven hLast hMem
    exact notMem_unreached hGraph (workDecreasing_map false hGiven)
      (List.mem_map.mpr ⟨parent, hMem, rfl⟩) (List.mem_map.mpr ⟨other, hOther,
        rfl⟩) hFloor hPath h
  · rintro ⟨hMem, hNone⟩
    refine (maximalParents_covers hGraph hGiven hMem).resolve_right ?_
    rintro ⟨other, hOther, hPath⟩
    exact hNone ⟨other, mem_given_of_mem_maximalParents hOther, hPath⟩

/-- What is left of the parents consists of those that are not implied, when it
implies all others and no part of it implies another. -/
private theorem mem_iff_unimplied (hGraph : graph.Mirrored)
    {given kept : List Nat} (hGiven : given.Pairwise (· > ·))
    (hKept : kept.Sublist given)
    (hCovers : ∀ parent ∈ given, parent ∈ kept ∨
      ∃ other ∈ kept, graph.IsAncestor parent other)
    (hApart : kept.Pairwise fun newer older => ¬ graph.IsAncestor older newer)
    {parent : Nat} :
    parent ∈ kept ↔ graph.Unimplied given parent := by
  have hFree : ∀ older ∈ kept, ∀ newer ∈ kept,
      ¬ graph.IsAncestor older newer := by
    have hAge : kept.Pairwise fun newer older =>
        ¬ graph.IsAncestor newer older :=
      (hGiven.sublist hKept).imp fun hNewer hPath => by
        have hLess := hGraph.lt_of_isAncestor hPath
        omega
    have hSelf : ∀ node ∈ kept, ¬ graph.IsAncestor node node :=
      fun node _ hPath => Nat.lt_irrefl node (hGraph.lt_of_isAncestor hPath)
    exact hAge.forall_of_forall_of_flip hSelf hApart
  constructor
  · intro h
    refine ⟨hKept.subset h, ?_⟩
    rintro ⟨other, hOther, hPath⟩
    rcases hCovers other hOther with hMem | ⟨newer, hNewer, hUpper⟩
    · exact hFree parent h other hMem hPath
    · exact hFree parent h newer hNewer (hPath.trans hUpper)
  · rintro ⟨hMem, hNone⟩
    refine (hCovers parent hMem).resolve_right ?_
    rintro ⟨other, hOther, hPath⟩
    exact hNone ⟨other, hKept.subset hOther, hPath⟩

/-- Entering the parents that are left is adding the node with them. -/
private theorem addNode_parentsToEnter (reduce : Bool) (graph : DependencyGraph)
    (given : List Nat) :
    graph.addNode false (graph.parentsToEnter reduce given) =
      graph.addNode reduce given := rfl

end DependencyGraph

/-! ## Building with searches -/

namespace StampedGraph

/-- No node has a stamp of a later search. -/
structure Fresh (graph : StampedGraph) : Prop where
  size : graph.stamps.size = graph.size
  bounded : ∀ node, graph.stamps.getD node 0 ≤ graph.size

variable {graph : StampedGraph}

/-- The searches end and leave parents in their order, by which all others are
implied. -/
private theorem exists_parentsToEnter (hGraph : graph.Mirrored)
    (h : graph.Fresh) (reduce : Bool) (given : List Nat) :
    ∃ kept stamps, graph.parentsToEnter reduce given = some (kept, stamps) ∧
      stamps.size = graph.size ∧ (∀ node, stamps.getD node 0 ≤ graph.size + 1) ∧
      kept.Sublist given ∧
      ∀ parent ∈ given, parent ∈ kept ∨
        ∃ other ∈ kept, graph.IsAncestor parent other := by
  have hBounded : ∀ node, graph.stamps.getD node 0 ≤ graph.size + 1 :=
    fun node => Nat.le_succ_of_le (h.bounded node)
  unfold parentsToEnter
  split
  · exact DependencyGraph.exists_strikeParents hGraph h.size hBounded
      (Nat.le_refl _)
  · exact ⟨given, graph.stamps, rfl, h.size, hBounded, List.Sublist.refl _,
      fun _ => Or.inl⟩

/-- A node can be added in every case. -/
theorem exists_addNode (hGraph : graph.Mirrored) (h : graph.Fresh)
    (reduce : Bool) (given : List Nat) :
    ∃ kept stamps stamps',
      graph.parentsToEnter reduce given = some (kept, stamps') ∧
      kept.Sublist given ∧
      graph.addNode reduce given =
        some ⟨graph.toDependencyGraph.addNode false kept, stamps⟩ ∧
      (⟨graph.toDependencyGraph.addNode false kept, stamps⟩ :
        StampedGraph).Fresh := by
  obtain ⟨kept, stamps, hEnter, hSize, hBounded, hKept, -⟩ :=
    exists_parentsToEnter hGraph h reduce given
  refine ⟨kept, stamps.push 0, stamps, hEnter,
    hKept, by rw [addNode, hEnter]; rfl, ?_, ?_⟩
  · rw [Array.size_push, hSize]
    exact DependencyGraph.size_addNode.symm
  · intro node
    show (stamps.push 0).getD node 0 ≤
      (graph.toDependencyGraph.addNode false kept).size
    rw [DependencyGraph.size_addNode, Array.getD_eq_getD_getElem?,
      Array.getElem?_push]
    split
    · exact Nat.zero_le _
    · rw [← Array.getD_eq_getD_getElem?]
      exact hBounded node

/-- None of the parents that the searches leave is an ancestor of another. -/
private theorem parentsToEnter_apart (hGraph : graph.Mirrored) (h : graph.Fresh)
    {given kept : List Nat} {stamps : Array Nat}
    (hGiven : given.Pairwise (· > ·))
    (hEnter : graph.parentsToEnter true given = some (kept, stamps)) :
    kept.Pairwise fun newer older => ¬ graph.IsAncestor older newer := by
  unfold parentsToEnter at hEnter
  split at hEnter
  · have hUnmet : ∀ node, graph.stamps.getD node 0 ≠ graph.size + 1 := by
      intro node
      have hBound := h.bounded node
      omega
    have hStart :
        AncestorSearch.Thorough graph.toDependencyGraph (graph.size + 1) [] 0 []
          ⟨graph.stamps, [], given⟩ := by
      refine ⟨hGiven, fun node _ => hUnmet node, ?_⟩
      rintro child (hChild | hStamped)
      · cases hChild
      · exact absurd hStamped (hUnmet child)
    exact (DependencyGraph.strikeParents_maximal hGraph h.size hStart hEnter).2
  · next hShort =>
      injection hEnter with hEnter
      injection hEnter with hSame
      subst hSame
      cases given with
      | nil => exact List.Pairwise.nil
      | cons first rest =>
          have hNone : rest = [] := by simpa using hShort
          rw [hNone]
          exact List.pairwise_singleton _ _

/-- The searches and the walk come to the same parents. -/
private theorem parentsToEnter_eq (hGraph : graph.WellFormed) (h : graph.Fresh)
    {reduce : Bool} {given : List Nat} (hGiven : given.Pairwise (· > ·)) :
    ∃ stamps, graph.parentsToEnter reduce given =
      some (graph.toDependencyGraph.parentsToEnter reduce given, stamps) := by
  obtain ⟨kept, stamps, hEnter, -, -, hKept, hCovers⟩ :=
    exists_parentsToEnter hGraph.toMirrored h reduce given
  refine ⟨stamps, ?_⟩
  suffices hSame : kept = graph.toDependencyGraph.parentsToEnter reduce given
      from hSame ▸ hEnter
  cases hReduce : reduce with
  | false =>
      subst hReduce
      rw [parentsToEnter, if_neg (by simp)] at hEnter
      injection hEnter with hEnter
      injection hEnter with hSame
      exact hSame.symm
  | true =>
      subst hReduce
      have hApart := parentsToEnter_apart hGraph.toMirrored h hGiven hEnter
      refine (hGiven.sublist hKept).eq_of_mem_iff
        (DependencyGraph.parentsToEnter_decreasing hGraph hGiven) fun parent =>
          ?_
      rw [DependencyGraph.mem_iff_unimplied hGraph.toMirrored hGiven hKept
        hCovers hApart]
      exact (DependencyGraph.mem_maximalParents_iff hGraph hGiven).symm

private theorem ofParents_append {reduce : Bool} {parents : List (List Nat)}
    {given : List Nat} :
    ofParents reduce (parents ++ [given]) =
      (ofParents reduce parents).bind fun graph =>
        graph.addNode reduce given := by
  unfold ofParents
  rw [List.foldlM_append]
  simp

/-- With searches the same graph is built. -/
theorem ofParents_eq {reduce : Bool} {parents : List (List Nat)}
    (h : DependencyGraph.OlderParents parents) :
    ∃ stamps, ofParents reduce parents =
      some ⟨DependencyGraph.ofParents reduce parents, stamps⟩ ∧
      (⟨DependencyGraph.ofParents reduce parents, stamps⟩ :
        StampedGraph).Fresh := by
  induction parents using List.reverseRecOn with
  | nil => exact ⟨#[], rfl, rfl, fun node => Nat.le_refl 0⟩
  | append_singleton parents given ih =>
      obtain ⟨hRest, hDecreasing, -⟩ := h.of_append
      obtain ⟨stamps, hBuilt, hFresh⟩ := ih hRest
      have hGraph : (DependencyGraph.ofParents reduce parents).WellFormed :=
        DependencyGraph.ofParents_wellFormed hRest
      obtain ⟨kept, stamps', entered, hEnter, -, hAdd, hNext⟩ :=
        exists_addNode hGraph.toMirrored hFresh reduce given
      obtain ⟨entered', hEnter'⟩ := parentsToEnter_eq hGraph hFresh hDecreasing
      rw [hEnter] at hEnter'
      injection hEnter' with hSame
      injection hSame with hSame
      rw [hSame, DependencyGraph.addNode_parentsToEnter] at hAdd hNext
      rw [DependencyGraph.ofParents_append]
      refine ⟨stamps', ?_, hNext⟩
      rw [ofParents_append, hBuilt]
      exact hAdd

end StampedGraph

/-! ## What is left out -/

namespace DependencyGraph

private theorem OlderParents.take {parents : List (List Nat)}
    (h : OlderParents parents) (count : Nat) :
    OlderParents (parents.take count) := by
  intro node given hGet
  rw [List.getElem?_take] at hGet
  split at hGet
  · exact h node given hGet
  · cases hGet

/-- The parents of a node are those entered when the nodes before it were
there. -/
private theorem parentsOf_ofParents {reduce : Bool} {parents : List (List Nat)}
    {node : Nat} {given : List Nat} (hGet : parents[node]? = some given) :
    (ofParents reduce parents).parentsOf node =
      (ofParents reduce (parents.take node)).parentsToEnter reduce given := by
  induction parents using List.reverseRecOn with
  | nil => cases hGet
  | append_singleton parents last ih =>
      have hBound := (List.getElem?_eq_some_iff.mp hGet).1
      rw [List.length_append, List.length_singleton] at hBound
      rw [ofParents_append, parentsOf_addNode, size_ofParents,
        List.take_append_of_le_length (by omega)]
      by_cases hLast : node = parents.length
      · subst hLast
        rw [List.getElem?_concat_length] at hGet
        injection hGet with hGet
        rw [if_pos rfl, List.take_length, hGet]
      · rw [List.getElem?_append_left (by omega)] at hGet
        rw [if_neg hLast, ih hGet]

/-- The ancestors of a node depend on the parents of the nodes up to it. -/
private theorem IsAncestor.congr {graph graph' : DependencyGraph}
    (hGraph : graph.Mirrored) {count : Nat}
    (hSame : ∀ node < count, graph.parentsOf node = graph'.parentsOf node)
    {ancestor node : Nat} (hNode : node < count)
    (h : graph.IsAncestor ancestor node) :
    graph'.IsAncestor ancestor node := by
  induction h with
  | @single child hParent =>
      have hHere := hSame child hNode
      exact Relation.TransGen.single (show ancestor ∈ graph'.parentsOf child
        from hHere ▸ hParent)
  | @tail parent child _ hParent ih =>
      have hHere := hSame child hNode
      have hOlder := hGraph.parent_lt child parent hParent
      exact (ih (Nat.lt_trans hOlder hNode)).tail
        (show parent ∈ graph'.parentsOf child from hHere ▸ hParent)

/-- Later nodes do not change the ancestors of a node. -/
private theorem isAncestor_take {reduce : Bool} {parents : List (List Nat)}
    (h : OlderParents parents) {count ancestor node : Nat}
    (hNode : node < count) :
    (ofParents reduce (parents.take count)).IsAncestor ancestor node ↔
      (ofParents reduce parents).IsAncestor ancestor node := by
  have hSame : ∀ node < count,
      (ofParents reduce (parents.take count)).parentsOf node =
      (ofParents reduce parents).parentsOf node := by
    intro node hNode
    cases hGet : parents[node]? with
    | none =>
        have hLength := List.getElem?_eq_none_iff.mp hGet
        rw [parentsOf_of_size_le, parentsOf_of_size_le]
        · rwa [size_ofParents]
        · rw [size_ofParents, List.length_take]
          omega
    | some given =>
        have hTaken : (parents.take count)[node]? = some given := by
          rw [List.getElem?_take, if_pos hNode, hGet]
        rw [parentsOf_ofParents hTaken, parentsOf_ofParents hGet,
          List.take_take, Nat.min_eq_left (Nat.le_of_lt hNode)]
  exact ⟨IsAncestor.congr
    (ofParents_wellFormed (h.take count)).toMirrored hSame hNode,
    IsAncestor.congr (ofParents_wellFormed h).toMirrored (fun node hNode =>
      (hSame node hNode).symm) hNode⟩

/-- Reduction leaves the ancestors as they are. -/
theorem isAncestor_reduce {parents : List (List Nat)} (h : OlderParents parents)
    {reduce reduce' : Bool} {ancestor node : Nat}
    (hPath : (ofParents reduce parents).IsAncestor ancestor node) :
    (ofParents reduce' parents).IsAncestor ancestor node := by
  have hEdge : ∀ {parent node : Nat},
      (ofParents reduce parents).IsParent parent node →
      (ofParents reduce' parents).IsAncestor parent node := by
    intro parent node hParent
    obtain ⟨given, hGet, hMem⟩ := mem_given_of_mem_parentsOf hParent
    exact ancestor_of_given h hGet hMem
  induction hPath with
  | single hParent => exact hEdge hParent
  | tail _ hParent ih => exact ih.trans (hEdge hParent)

/-- A graph that is built with reduction, with the walk or with searches alike,
has for each node exactly those of the given parents that are no ancestors, over
the edges that are given, of another one of them, in decreasing order. The
ancestors of all nodes are those over the edges that are given, and the
children, in increasing order, mirror the parents. -/
theorem ofParents_exact {parents : List (List Nat)} (h : OlderParents parents) :
    (∃ stamps, StampedGraph.ofParents true parents =
      some ⟨ofParents true parents, stamps⟩) ∧
    (ofParents true parents).size = parents.length ∧
    (∀ node given, parents[node]? = some given →
      (ofParents false parents).parentsOf node = given ∧
      (∀ parent, parent ∈ (ofParents true parents).parentsOf node ↔
        parent ∈ given ∧
          ¬ ∃ other ∈ given,
            (ofParents false parents).IsAncestor parent other) ∧
      ((ofParents true parents).parentsOf node).Pairwise (· > ·)) ∧
    (∀ ancestor node, (ofParents true parents).IsAncestor ancestor node ↔
      (ofParents false parents).IsAncestor ancestor node) ∧
    (∀ node child, child ∈ (ofParents true parents).childrenOf node ↔
      node ∈ (ofParents true parents).parentsOf child) ∧
    ∀ node,
      ((ofParents true parents).childrenOf node).toList.Pairwise (· < ·) := by
  have hReduced : (ofParents true parents).WellFormed := ofParents_wellFormed h
  obtain ⟨stamps, hStamped, -⟩ := @StampedGraph.ofParents_eq true parents h
  refine ⟨⟨stamps, hStamped⟩, size_ofParents, fun node given hGet =>
    ⟨?_, fun parent => ?_, ?_⟩, fun ancestor node => ⟨isAncestor_reduce h,
    isAncestor_reduce h⟩, hReduced.mem_childrenOf, childrenOf_increasing h⟩
  · rw [parentsOf_ofParents hGet]
    rfl
  · obtain ⟨hGiven, hOlder⟩ := h node given hGet
    have hBefore : (ofParents true (parents.take node)).WellFormed :=
      ofParents_wellFormed (h.take node)
    have hAncestor : ∀ other ∈ given,
        ((ofParents true (parents.take node)).IsAncestor parent other ↔
          (ofParents false parents).IsAncestor parent other) := by
      intro other hOther
      rw [isAncestor_take h (hOlder other hOther)]
      exact ⟨isAncestor_reduce h, isAncestor_reduce h⟩
    rw [parentsOf_ofParents hGet]
    refine (mem_maximalParents_iff hBefore hGiven).trans
      (and_congr_right fun _ => not_congr ?_)
    exact exists_congr fun other => and_congr_right (hAncestor other)
  · exact hReduced.decreasing node

/-- Two nodes on top of one, a node that is given all three, and a node that is
given that one and two nodes below it. -/
def crossedParents : List (List Nat) := [[], [0], [0], [2, 1, 0], [3, 1, 0]]

/-- The fourth node keeps two parents, neither of which is above the other. The
fifth keeps one, although the edge from the first node to the fourth, by which
it is implied, was left out. -/
theorem ofParents_exact_crossed : OlderParents crossedParents ∧
    (ofParents true crossedParents).parentsOf 3 = [2, 1] ∧
    (ofParents true crossedParents).parentsOf 4 = [3] ∧
    (∃ stamps, StampedGraph.ofParents true crossedParents =
      some ⟨ofParents true crossedParents, stamps⟩) ∧
    (∃ other ∈ [2, 1, 0], (ofParents false crossedParents).IsAncestor 0 other) ∧
    ¬ ∃ other ∈ [3, 1, 0],
      (ofParents false crossedParents).IsAncestor 3 other := by
  have hOlder : OlderParents crossedParents := by decide
  have hFourth : (ofParents true crossedParents).parentsOf 3 = [2, 1] := by
    decide
  have hFifth : (ofParents true crossedParents).parentsOf 4 = [3] := by decide
  obtain ⟨hStamped, -, hParents, -, -, -⟩ := ofParents_exact hOlder
  have hZero := (hParents 3 [2, 1, 0] rfl).2.1 0
  have hThree := (hParents 4 [3, 1, 0] rfl).2.1 3
  rw [hFourth] at hZero
  rw [hFifth] at hThree
  refine ⟨hOlder, hFourth, hFifth, hStamped, ?_, (hThree.mp (by simp)).2⟩
  by_contra hNone
  exact absurd (hZero.mpr ⟨by simp, hNone⟩) (by simp)

end DependencyGraph

end RankOne
