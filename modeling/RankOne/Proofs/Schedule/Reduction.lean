import Mathlib.Data.List.Induction
import Mathlib.Data.List.TakeWhile
import Mathlib.Logic.Relation
import RankOne.Schedule.Graph

/-!
# The dependency graph and its reduction

Edges go from older to newer nodes, parents are listed in decreasing order, and
the lists of children mirror the lists of parents. A graph built with reduction
may leave out a parent that is given for a node, but only one from which another
path leads to the node, so that both graphs have the same ancestors.
-/

namespace RankOne

/-! ## Decreasing lists -/

private theorem le_of_mem_dropWhile {xs : List Nat} {node x : Nat}
    (h : xs.Pairwise (· > ·)) (hx : x ∈ xs.dropWhile (node < ·)) :
    x ≤ node := by
  induction xs with
  | nil => simp at hx
  | cons first rest ih =>
      obtain ⟨hFirst, hRest⟩ := List.pairwise_cons.mp h
      rw [List.dropWhile_cons] at hx
      split at hx
      · exact ih hRest hx
      · next hStop =>
          have hBound : first ≤ node := by simpa using hStop
          rcases List.mem_cons.mp hx with rfl | hx
          · exact hBound
          · have hLess := hFirst x hx
            omega

private theorem lt_of_mem_dropWhile_eq {xs : List Nat} {node x : Nat}
    (h : xs.Pairwise (· > ·)) (hBound : ∀ y ∈ xs, y ≤ node)
    (hx : x ∈ xs.dropWhile (· == node)) : x < node := by
  cases xs with
  | nil => simp at hx
  | cons first rest =>
      obtain ⟨hFirst, hRest⟩ := List.pairwise_cons.mp h
      have hFirstBound := hBound first List.mem_cons_self
      rw [List.dropWhile_cons] at hx
      split at hx
      · next hSame =>
          have hEq : first = node := by simpa using hSame
          have hMem := (List.dropWhile_sublist _).subset hx
          have hLess := hFirst x hMem
          omega
      · next hOther =>
          have hNe : first ≠ node := by simpa using hOther
          rcases List.mem_cons.mp hx with rfl | hx
          · omega
          · have hLess := hFirst x hx
            omega

/-! ## Work lists -/

/-- What is in a merged work list was in the work list or has been reached. -/
private theorem mem_of_mem_mergeReached {work : List (Nat × Bool)}
    {reached : List Nat} {x : Nat} {implied : Bool}
    (h : (x, implied) ∈ mergeReached work reached) :
    (x, implied) ∈ work ∨ implied = true ∧ x ∈ reached := by
  induction work generalizing reached with
  | nil =>
      unfold mergeReached at h
      obtain ⟨y, hy, hPair⟩ := List.mem_map.mp h
      injection hPair with hNode hImplied
      exact Or.inr ⟨hImplied.symm, hNode ▸ hy⟩
  | cons head work ih =>
      obtain ⟨node, marked⟩ := head
      unfold mergeReached at h
      rcases List.mem_append.mp h with hNewer | hRest
      · obtain ⟨y, hy, hPair⟩ := List.mem_map.mp hNewer
        injection hPair with hNode hImplied
        exact Or.inr ⟨hImplied.symm,
          hNode ▸ (List.takeWhile_sublist _).subset hy⟩
      · rcases List.mem_cons.mp hRest with hHead | hRest
        · injection hHead with hNode hImplied
          cases hMarked : marked with
          | true =>
              rw [hMarked, Bool.true_or] at hImplied
              exact Or.inl (by rw [hNode, hImplied]; exact List.mem_cons_self)
          | false =>
              rw [hMarked, Bool.false_or] at hImplied
              cases hReached :
                (reached.dropWhile (node < ·)).head? == some node with
              | true =>
                  have hFirst := List.mem_of_head? (beq_iff_eq.mp hReached)
                  rw [hReached] at hImplied
                  exact Or.inr ⟨hImplied,
                    hNode ▸ (List.dropWhile_sublist _).subset hFirst⟩
              | false =>
                  rw [hReached] at hImplied
                  exact Or.inl
                    (by rw [hNode, hImplied]; exact List.mem_cons_self)
        · rcases ih hRest with hWork | ⟨hImplied, hReached⟩
          · exact Or.inl (List.mem_cons_of_mem _ hWork)
          · have hMem := (List.dropWhile_sublist _).subset hReached
            exact Or.inr ⟨hImplied, (List.dropWhile_sublist _).subset hMem⟩

/-- No node is lost in a merge. -/
theorem exists_mem_mergeReached {work : List (Nat × Bool)} (reached : List Nat)
    {x : Nat} {implied : Bool} (h : (x, implied) ∈ work) :
    ∃ implied', (x, implied') ∈ mergeReached work reached := by
  induction work generalizing reached with
  | nil => simp at h
  | cons head work ih =>
      obtain ⟨node, marked⟩ := head
      unfold mergeReached
      rcases List.mem_cons.mp h with hHead | hWork
      · injection hHead with hNode hImplied
        refine ⟨marked || (reached.dropWhile (node < ·)).head? == some node, ?_⟩
        exact List.mem_append_right _ (hNode ▸ List.mem_cons_self)
      · obtain ⟨implied', hMem⟩ :=
          ih ((reached.dropWhile (node < ·)).dropWhile (· == node)) hWork
        exact ⟨implied', List.mem_append_right _ (List.mem_cons_of_mem _ hMem)⟩

/-- Work lists are decreasing. -/
def WorkDecreasing (work : List (Nat × Bool)) : Prop :=
  work.Pairwise (fun x y => x.1 > y.1)

theorem workDecreasing_map {nodes : List Nat} (implied : Bool)
    (h : nodes.Pairwise (· > ·)) : WorkDecreasing (nodes.map (·, implied)) :=
  List.pairwise_map.mpr h

private theorem WorkDecreasing.mergeReached {work : List (Nat × Bool)}
    {reached : List Nat} (hWork : WorkDecreasing work)
    (hReached : reached.Pairwise (· > ·)) :
    WorkDecreasing (mergeReached work reached) := by
  induction work generalizing reached with
  | nil => exact workDecreasing_map true hReached
  | cons head work ih =>
      obtain ⟨node, marked⟩ := head
      obtain ⟨hHead, hRest⟩ := List.pairwise_cons.mp hWork
      have hDropped := hReached.sublist (List.dropWhile_sublist (node < ·))
      have hLess : ∀ x implied, (x, implied) ∈ RankOne.mergeReached work
          ((reached.dropWhile (node < ·)).dropWhile (· == node)) →
            x < node := by
        intro x implied hMem
        rcases mem_of_mem_mergeReached hMem with hOld | ⟨-, hNew⟩
        · exact hHead (x, implied) hOld
        · exact lt_of_mem_dropWhile_eq hDropped (fun y hy =>
            le_of_mem_dropWhile hReached hy) hNew
      unfold RankOne.mergeReached
      refine List.pairwise_append.mpr ⟨?_, List.pairwise_cons.mpr ⟨?_, ?_⟩, ?_⟩
      · exact workDecreasing_map true
          (hReached.sublist (List.takeWhile_sublist _))
      · rintro ⟨x, implied⟩ hMem
        exact hLess x implied hMem
      · exact ih hRest (hDropped.sublist (List.dropWhile_sublist _))
      · rintro ⟨x, implied⟩ hNewer ⟨y, implied'⟩ hOther
        obtain ⟨x', hTaken, hPair⟩ := List.mem_map.mp hNewer
        injection hPair with hSame
        have hAbove : node < x := by
          rw [← hSame]
          simpa using List.mem_takeWhile_imp hTaken
        show x > y
        rcases List.mem_cons.mp hOther with hNode | hOther
        · injection hNode with hNode
          omega
        · have hBelow := hLess y implied' hOther
          omega

namespace DependencyGraph

/-- One node is a parent of another. -/
def IsParent (graph : DependencyGraph) (parent node : Nat) : Prop :=
  parent ∈ graph.parentsOf node

/-- A path leads from one node to another. -/
def IsAncestor (graph : DependencyGraph) : Nat → Nat → Prop :=
  Relation.TransGen graph.IsParent

/-- Edges go from older to newer nodes, and can be followed both ways. -/
structure Mirrored (graph : DependencyGraph) : Prop where
  size_children : graph.children.size = graph.size
  parent_lt : ∀ node, ∀ parent ∈ graph.parentsOf node, parent < node
  mem_childrenOf : ∀ node child, child ∈ graph.childrenOf node ↔
    node ∈ graph.parentsOf child

/-- The shape of a graph. -/
structure WellFormed (graph : DependencyGraph) :
    Prop extends graph.Mirrored where
  decreasing : ∀ node, (graph.parentsOf node).Pairwise (· > ·)

theorem parentsOf_of_size_le {graph : DependencyGraph} {node : Nat}
    (h : graph.size ≤ node) :
    graph.parentsOf node = [] := by
  unfold parentsOf
  rw [Array.getD_eq_getD_getElem?, Array.getElem?_eq_none h]
  rfl

theorem lt_size_of_mem_parentsOf {graph : DependencyGraph} {parent node : Nat}
    (h : parent ∈ graph.parentsOf node) : node < graph.size := by
  apply Nat.lt_of_not_le
  intro hSize
  rw [parentsOf_of_size_le hSize] at h
  simp at h

/-- Parents are nodes of the graph. -/
theorem Mirrored.parent_lt_size {graph : DependencyGraph} (h : graph.Mirrored)
    {parent node : Nat} (hParent : parent ∈ graph.parentsOf node) :
    parent < graph.size :=
  Nat.lt_trans (h.parent_lt node parent hParent)
    (lt_size_of_mem_parentsOf hParent)

/-- Ancestors are older. -/
theorem Mirrored.lt_of_isAncestor {graph : DependencyGraph} (h : graph.Mirrored)
    {ancestor node : Nat} (hPath : graph.IsAncestor ancestor node) :
    ancestor < node := by
  induction hPath with
  | single hParent => exact h.parent_lt _ _ hParent
  | tail _ hParent ih => exact Nat.lt_trans ih (h.parent_lt _ _ hParent)

/-! ## The walk -/

section Walk

variable {graph : DependencyGraph} {floor : Nat}

/-- The nodes that the walk collects were in the work list, not yet reached. -/
theorem mem_work_of_mem_unreached {steps : Nat} {work : List (Nat × Bool)}
    {x : Nat} (h : x ∈ graph.unreached floor steps work) :
    (x, false) ∈ work := by
  induction steps generalizing work with
  | zero => simp [unreached] at h
  | succ steps ih =>
      cases work with
      | nil => simp [unreached] at h
      | cons head work =>
          obtain ⟨node, implied⟩ := head
          have hLater : x ∈ graph.unreached floor steps
              (mergeReached work
                ((graph.parentsOf node).takeWhile (floor ≤ ·))) →
                (x, false) ∈ (node, implied) :: work := by
            intro hRest
            rcases mem_of_mem_mergeReached (ih hRest) with hWork | ⟨hFalse, -⟩
            · exact List.mem_cons_of_mem _ hWork
            · cases hFalse
          unfold unreached at h
          dsimp only at h
          split at h
          · exact hLater h
          · next hImplied =>
              rcases List.mem_cons.mp h with rfl | hRest
              · rw [Bool.not_eq_true] at hImplied
                exact hImplied ▸ List.mem_cons_self
              · exact hLater hRest

variable (hGraph : graph.WellFormed)
include hGraph

/-- Everything still to be looked at lies below the head of the work list. -/
private theorem lt_of_mem_next {node x : Nat} {implied implied' : Bool}
    {work : List (Nat × Bool)}
    (hWork : WorkDecreasing ((node, implied) :: work))
    (h : (x, implied') ∈
      mergeReached work ((graph.parentsOf node).takeWhile (floor ≤ ·))) :
    x < node := by
  rcases mem_of_mem_mergeReached h with hOld | ⟨-, hReached⟩
  · exact (List.pairwise_cons.mp hWork).1 (x, implied') hOld
  · exact hGraph.parent_lt node x ((List.takeWhile_sublist _).subset hReached)

theorem next_decreasing (floor : Nat) {node : Nat} {implied : Bool}
    {work : List (Nat × Bool)}
    (hWork : WorkDecreasing ((node, implied) :: work)) :
    WorkDecreasing
      (mergeReached work ((graph.parentsOf node).takeWhile (floor ≤ ·))) :=
  WorkDecreasing.mergeReached (List.pairwise_cons.mp hWork).2
    ((hGraph.decreasing node).sublist (List.takeWhile_sublist _))

private theorem unreached_decreasing {steps : Nat} {work : List (Nat × Bool)}
    (hWork : WorkDecreasing work) :
    (graph.unreached floor steps work).Pairwise (· > ·) := by
  induction steps generalizing work with
  | zero => exact List.Pairwise.nil
  | succ steps ih =>
      cases work with
      | nil => exact List.Pairwise.nil
      | cons head work =>
          obtain ⟨node, implied⟩ := head
          have hRest := ih (next_decreasing hGraph floor hWork)
          unfold unreached
          dsimp only
          split
          · exact hRest
          · refine List.pairwise_cons.mpr ⟨?_, hRest⟩
            intro x hx
            exact lt_of_mem_next hGraph hWork (mem_work_of_mem_unreached hx)

/-- Every node of the work list is collected or is an ancestor of a collected
node, if that holds of those that have been reached before. -/
private theorem unreached_covers (floor steps : Nat) {final : List Nat}
    {work : List (Nat × Bool)} (hWork : WorkDecreasing work)
    (hSteps : ∀ x implied, (x, implied) ∈ work → x < steps)
    (hImplied : ∀ x, (x, true) ∈ work → ∃ kept ∈ final, graph.IsAncestor x kept)
    (hFinal : ∀ x ∈ graph.unreached floor steps work, x ∈ final) :
    ∀ x implied, (x, implied) ∈ work →
      x ∈ final ∨ ∃ kept ∈ final, graph.IsAncestor x kept := by
  induction steps generalizing work with
  | zero =>
      intro x implied hx
      exact absurd (hSteps x implied hx) (Nat.not_lt_zero x)
  | succ steps ih =>
      cases work with
      | nil => simp
      | cons head work =>
          obtain ⟨node, marked⟩ := head
          unfold unreached at hFinal
          dsimp only at hFinal
          have hNode : node ∈ final ∨
              ∃ kept ∈ final, graph.IsAncestor node kept := by
            cases marked with
            | true => exact Or.inr (hImplied node List.mem_cons_self)
            | false => exact Or.inl (hFinal node (by simp))
          have hReached : ∀ x, graph.IsParent x node →
              ∃ kept ∈ final, graph.IsAncestor x kept := by
            intro x hParent
            rcases hNode with hKept | ⟨kept, hKept, hPath⟩
            · exact ⟨node, hKept, Relation.TransGen.single hParent⟩
            · exact ⟨kept, hKept, Relation.TransGen.head hParent hPath⟩
          have hRest := ih (next_decreasing hGraph floor hWork)
            (by
              intro x implied hx
              have hBelow := lt_of_mem_next hGraph hWork hx
              have hHead := hSteps node marked List.mem_cons_self
              omega)
            (by
              intro x hx
              rcases mem_of_mem_mergeReached hx with hOld | ⟨-, hNew⟩
              · exact hImplied x (List.mem_cons_of_mem _ hOld)
              · exact hReached x ((List.takeWhile_sublist _).subset hNew))
            (by
              intro x hx
              apply hFinal
              split
              · exact hx
              · exact List.mem_cons_of_mem _ hx)
          intro x implied hx
          rcases List.mem_cons.mp hx with hHead | hx
          · injection hHead with hSame
            exact hSame ▸ hNode
          · obtain ⟨implied', hNext⟩ := exists_mem_mergeReached
              ((graph.parentsOf node).takeWhile (floor ≤ ·)) hx
            exact hRest x implied' hNext

/-- A given parent that is left out is an ancestor of one that is kept. -/
theorem maximalParents_covers {given : List Nat}
    (hGiven : given.Pairwise (· > ·)) {x : Nat} (hx : x ∈ given) :
    x ∈ graph.maximalParents given ∨
      ∃ kept ∈ graph.maximalParents given, graph.IsAncestor x kept := by
  apply unreached_covers hGraph (given.getLastD 0) (given.headD 0 + 1)
    (workDecreasing_map false hGiven)
  · intro y implied hy
    obtain ⟨y', hMem, hPair⟩ := List.mem_map.mp hy
    injection hPair with hSame
    subst hSame
    cases given with
    | nil => simp at hMem
    | cons first rest =>
        rw [List.headD_cons]
        rcases List.mem_cons.mp hMem with rfl | hMem
        · omega
        · have hLess := (List.pairwise_cons.mp hGiven).1 y' hMem
          omega
  · intro y hy
    obtain ⟨y', -, hPair⟩ := List.mem_map.mp hy
    injection hPair with _ hFalse
    cases hFalse
  · intro y hy
    exact hy
  · exact List.mem_map.mpr ⟨x, hx, rfl⟩

end Walk

/-! ## Building -/

/-- The parents that are entered for a node. -/
def parentsToEnter (reduce : Bool) (graph : DependencyGraph)
    (given : List Nat) : List Nat :=
  if reduce then graph.maximalParents given else given

theorem size_addNode {reduce : Bool} {graph : DependencyGraph}
    {given : List Nat} :
    (graph.addNode reduce given).size = graph.size + 1 := by
  simp [addNode, size]

theorem parentsOf_addNode {reduce : Bool} {graph : DependencyGraph}
    {given : List Nat} {node : Nat} :
    (graph.addNode reduce given).parentsOf node =
      if node = graph.size then graph.parentsToEnter reduce given
        else graph.parentsOf node := by
  show (graph.parents.push (graph.parentsToEnter reduce given)).getD node [] = _
  unfold parentsOf
  rw [Array.getD_eq_getD_getElem?, Array.getElem?_push,
    Array.getD_eq_getD_getElem?]
  show (if node = graph.size then _ else _ : Option (List Nat)).getD [] = _
  by_cases hNew : node = graph.size
  · rw [if_pos hNew, if_pos hNew]
    rfl
  · rw [if_neg hNew, if_neg hNew]

private theorem size_enterChild {node : Nat} {parents : List Nat}
    {children : Array (Array Nat)} :
    (parents.foldl (fun children parent => children.modify parent (·.push node))
      children).size = children.size := by
  induction parents generalizing children with
  | nil => rfl
  | cons first rest ih => rw [List.foldl_cons, ih, Array.size_modify]

private theorem getD_modify_push {node x parent : Nat}
    {children : Array (Array Nat)} (hParent : parent < children.size) :
    (children.modify parent (·.push node)).getD x #[] =
      if x = parent then (children.getD x #[]).push node
        else children.getD x #[] := by
  simp only [Array.getD_eq_getD_getElem?, Array.getElem?_modify]
  by_cases hSame : parent = x
  · subst hSame
    simp [hParent]
  · simp [hSame, Ne.symm hSame]

/-- A node without children has the empty list, entered or not. -/
private theorem getD_push_empty {node : Nat} {children : Array (Array Nat)} :
    (children.push #[]).getD node #[] = children.getD node #[] := by
  rw [Array.getD_eq_getD_getElem?, Array.getElem?_push,
    Array.getD_eq_getD_getElem?]
  split
  · next hLast =>
      rw [Array.getElem?_eq_none (Nat.le_of_eq hLast.symm)]
      rfl
  · rfl

/-- Entering a node under different parents adds it once to the children of
each. -/
private theorem getD_enterChild {node x : Nat} {parents : List Nat}
    {children : Array (Array Nat)} (hNodup : parents.Nodup)
    (hParents : ∀ parent ∈ parents, parent < children.size) :
    (parents.foldl (fun children parent => children.modify parent (·.push node))
        children).getD x #[] =
      if x ∈ parents then (children.getD x #[]).push node
        else children.getD x #[] := by
  induction parents generalizing children with
  | nil => simp
  | cons first rest ih =>
      obtain ⟨hFirst, hRest⟩ := List.nodup_cons.mp hNodup
      have hBound := hParents first List.mem_cons_self
      rw [List.foldl_cons, ih hRest, getD_modify_push hBound]
      · by_cases hSame : x = first
        · subst hSame
          simp [hFirst]
        · simp [hSame]
      · intro parent hMem
        rw [Array.size_modify]
        exact hParents parent (List.mem_cons_of_mem _ hMem)

/-- Entering a node under its parents, which may be listed in any order, adds it
to the children of each. -/
private theorem mem_enterChild {node child x : Nat} {parents : List Nat}
    {children : Array (Array Nat)}
    (hParents : ∀ parent ∈ parents, parent < children.size) :
    child ∈ (parents.foldl (fun children parent =>
      children.modify parent (·.push node))
        children).getD x #[] ↔
      child ∈ children.getD x #[] ∨ child = node ∧ x ∈ parents := by
  induction parents generalizing children with
  | nil => simp
  | cons first rest ih =>
      have hBound := hParents first List.mem_cons_self
      have hStep : child ∈ (children.modify first (·.push node)).getD x #[] ↔
          child ∈ children.getD x #[] ∨ child = node ∧ x = first := by
        rw [getD_modify_push hBound]
        by_cases hSame : x = first
        · simp [hSame]
        · simp [hSame]
      rw [List.foldl_cons, ih, hStep, List.mem_cons]
      · tauto
      · intro parent hMem
        rw [Array.size_modify]
        exact hParents parent (List.mem_cons_of_mem _ hMem)

section Building

variable {reduce : Bool} {graph : DependencyGraph} {given : List Nat}

theorem mem_given_of_mem_maximalParents {parent : Nat}
    (h : parent ∈ graph.maximalParents given) : parent ∈ given := by
  obtain ⟨parent', hMem, hPair⟩ := List.mem_map.mp (mem_work_of_mem_unreached h)
  injection hPair with hSame
  exact hSame ▸ hMem

private theorem mem_given_of_mem_parentsToEnter {parent : Nat}
    (h : parent ∈ graph.parentsToEnter reduce given) : parent ∈ given := by
  unfold parentsToEnter at h
  split at h
  · exact mem_given_of_mem_maximalParents h
  · exact h

private theorem isAncestor_addNode {x y : Nat} (h : graph.IsAncestor x y) :
    (graph.addNode reduce given).IsAncestor x y := by
  refine Relation.TransGen.mono ?_ x y h
  intro parent node hParent
  show parent ∈ (graph.addNode reduce given).parentsOf node
  have hSize := lt_size_of_mem_parentsOf hParent
  rw [parentsOf_addNode, if_neg (Nat.ne_of_lt hSize)]
  exact hParent

/-- The new node mirrors its parents, in whatever order they are given. -/
theorem addNode_mirrored (hGraph : graph.Mirrored)
    (hOlder : ∀ parent ∈ given, parent < graph.size) :
    (graph.addNode reduce given).Mirrored where
  size_children := by
    rw [size_addNode, ← hGraph.size_children]
    unfold addNode
    rw [Array.size_push, size_enterChild]
  parent_lt := by
    intro node parent hParent
    rw [parentsOf_addNode] at hParent
    split at hParent
    · next hNew =>
        have hBound := hOlder parent (mem_given_of_mem_parentsToEnter hParent)
        omega
    · exact hGraph.parent_lt node parent hParent
  mem_childrenOf := by
    intro node child
    have hChildren : child ∈ (graph.addNode reduce given).childrenOf node ↔
        child ∈ graph.childrenOf node ∨
          child = graph.size ∧ node ∈ graph.parentsToEnter reduce given := by
      show child ∈ (((graph.parentsToEnter reduce given).foldl
        (fun children parent => children.modify parent (·.push graph.size))
          graph.children).push #[]).getD node #[] ↔ _
      rw [getD_push_empty, mem_enterChild]
      · rfl
      · intro parent hParent
        rw [hGraph.size_children]
        exact hOlder parent (mem_given_of_mem_parentsToEnter hParent)
    rw [hChildren, hGraph.mem_childrenOf, parentsOf_addNode]
    by_cases hNew : child = graph.size
    · subst hNew
      rw [if_pos rfl, parentsOf_of_size_le (Nat.le_refl _)]
      simp
    · rw [if_neg hNew]
      simp [hNew]

variable (hGraph : graph.WellFormed) (hDecreasing : given.Pairwise (· > ·))
include hGraph hDecreasing

theorem parentsToEnter_decreasing :
    (graph.parentsToEnter reduce given).Pairwise (· > ·) := by
  unfold parentsToEnter
  split
  · exact unreached_decreasing hGraph (workDecreasing_map false hDecreasing)
  · exact hDecreasing

/-- The new node comes last among the children of its parents. -/
private theorem childrenOf_addNode
    (hOlder : ∀ parent ∈ given, parent < graph.size) (node : Nat) :
    (graph.addNode reduce given).childrenOf node =
      if node ∈ graph.parentsToEnter reduce given then
        (graph.childrenOf node).push graph.size
      else graph.childrenOf node := by
  have hNodup : (graph.parentsToEnter reduce given).Nodup :=
    (parentsToEnter_decreasing hGraph hDecreasing).imp Nat.ne_of_gt
  have hBound : ∀ parent ∈ graph.parentsToEnter reduce given,
      parent < graph.children.size := by
    intro parent hParent
    rw [hGraph.size_children]
    exact hOlder parent (mem_given_of_mem_parentsToEnter hParent)
  unfold childrenOf
  rw [← getD_enterChild hNodup hBound]
  exact getD_push_empty

private theorem addNode_wellFormed
    (hOlder : ∀ parent ∈ given, parent < graph.size) :
    (graph.addNode reduce given).WellFormed where
  toMirrored := addNode_mirrored hGraph.toMirrored hOlder
  decreasing := by
    intro node
    rw [parentsOf_addNode]
    split
    · exact parentsToEnter_decreasing hGraph hDecreasing
    · exact hGraph.decreasing node

/-- What is given for the new node is above it, be it entered or left out. -/
private theorem isAncestor_new (reduce : Bool) {parent : Nat}
    (h : parent ∈ given) :
    (graph.addNode reduce given).IsAncestor parent graph.size := by
  have hEntered : ∀ kept ∈ graph.parentsToEnter reduce given,
      (graph.addNode reduce given).IsParent kept graph.size := by
    intro kept hKept
    show kept ∈ (graph.addNode reduce given).parentsOf graph.size
    rw [parentsOf_addNode, if_pos rfl]
    exact hKept
  cases hReduce : reduce with
  | false =>
      apply Relation.TransGen.single
      subst hReduce
      exact hEntered parent h
  | true =>
      subst hReduce
      rcases maximalParents_covers hGraph hDecreasing h
        with hKept | ⟨kept, hKept, hPath⟩
      · exact Relation.TransGen.single (hEntered parent hKept)
      · exact (isAncestor_addNode hPath).tail (hEntered kept hKept)

end Building

/-- The parents given for each of a list of nodes are older and listed in
decreasing order. -/
def OlderParents (parents : List (List Nat)) : Prop :=
  ∀ (node : Nat) (given : List Nat), parents[node]? = some given →
    given.Pairwise (· > ·) ∧ ∀ parent ∈ given, parent < node

instance (parents : List (List Nat)) : Decidable (OlderParents parents) :=
  decidable_of_iff
    (∀ node : Fin parents.length, parents[node].Pairwise (· > ·) ∧
      ∀ parent ∈ parents[node], parent < node) <| by
    constructor
    · intro h node given hGet
      obtain ⟨hNode, rfl⟩ := List.getElem?_eq_some_iff.mp hGet
      exact h ⟨node, hNode⟩
    · intro h node
      exact h node parents[node] (List.getElem?_eq_getElem node.isLt)

theorem OlderParents.of_append {parents : List (List Nat)} {given : List Nat}
    (h : OlderParents (parents ++ [given])) :
    OlderParents parents ∧ given.Pairwise (· > ·) ∧
      ∀ parent ∈ given, parent < parents.length := by
  constructor
  · intro node given' hGet
    have hNode := (List.getElem?_eq_some_iff.mp hGet).1
    exact h node given' (by rw [List.getElem?_append_left hNode]; exact hGet)
  · exact h parents.length given (by simp)

theorem ofParents_append {reduce : Bool} {parents : List (List Nat)}
    {given : List Nat} :
    ofParents reduce (parents ++ [given]) =
      (ofParents reduce parents).addNode reduce given := by
  unfold ofParents
  rw [List.foldl_append]
  rfl

theorem size_ofParents {reduce : Bool} {parents : List (List Nat)} :
    (ofParents reduce parents).size = parents.length := by
  induction parents using List.reverseRecOn with
  | nil => rfl
  | append_singleton parents given ih =>
      rw [ofParents_append, size_addNode, ih, List.length_append,
        List.length_singleton]

theorem wellFormed_empty : WellFormed {} where
  size_children := rfl
  parent_lt := by simp [parentsOf]
  decreasing := by simp [parentsOf]
  mem_childrenOf := by simp [parentsOf, childrenOf]

theorem ofParents_wellFormed {reduce : Bool} {parents : List (List Nat)}
    (h : OlderParents parents) : (ofParents reduce parents).WellFormed := by
  induction parents using List.reverseRecOn with
  | nil => exact wellFormed_empty
  | append_singleton parents given ih =>
      obtain ⟨hRest, hDecreasing, hOlder⟩ := h.of_append
      rw [ofParents_append]
      exact addNode_wellFormed (ih hRest) hDecreasing (size_ofParents ▸ hOlder)

/-- The children of a node are listed in increasing order. -/
theorem childrenOf_increasing {reduce : Bool} {parents : List (List Nat)}
    (h : OlderParents parents) (node : Nat) :
    ((ofParents reduce parents).childrenOf node).toList.Pairwise (· < ·) := by
  induction parents using List.reverseRecOn with
  | nil => simp [ofParents, childrenOf]
  | append_singleton parents given ih =>
      obtain ⟨hRest, hDecreasing, hOlder⟩ := h.of_append
      have hGraph : (ofParents reduce parents).WellFormed :=
        ofParents_wellFormed hRest
      rw [ofParents_append,
        childrenOf_addNode hGraph hDecreasing (size_ofParents ▸ hOlder)]
      split
      · rw [Array.toList_push]
        refine List.pairwise_append.mpr ⟨ih hRest,
          List.pairwise_singleton _ _, ?_⟩
        intro child hChild new hNew
        rw [List.mem_singleton.mp hNew]
        exact lt_size_of_mem_parentsOf
          ((hGraph.mem_childrenOf node child).mp
            (Array.mem_toList_iff.mp hChild))
      · exact ih hRest

/-- With or without reduction, what is given as a parent of a node is an
ancestor of it. -/
theorem ancestor_of_given {reduce : Bool} {parents : List (List Nat)}
    (h : OlderParents parents) {node parent : Nat} {given : List Nat}
    (hGet : parents[node]? = some given) (hParent : parent ∈ given) :
    (ofParents reduce parents).IsAncestor parent node := by
  induction parents using List.reverseRecOn with
  | nil => simp at hGet
  | append_singleton parents last ih =>
      obtain ⟨hRest, hDecreasing, -⟩ := h.of_append
      rw [ofParents_append]
      have hGraph : (ofParents reduce parents).WellFormed :=
        ofParents_wellFormed hRest
      have hNode := (List.getElem?_eq_some_iff.mp hGet).1
      rw [List.length_append, List.length_singleton] at hNode
      by_cases hOld : node < parents.length
      · rw [List.getElem?_append_left hOld] at hGet
        exact isAncestor_addNode (ih hRest hGet)
      · have hLast : node = parents.length := by omega
        subst hLast
        rw [List.getElem?_concat_length] at hGet
        injection hGet with hGet
        subst hGet
        have hNew := isAncestor_new hGraph hDecreasing reduce hParent
        rwa [size_ofParents] at hNew

/-- The parents of a node are among those given for it. -/
theorem mem_given_of_mem_parentsOf {reduce : Bool} {parents : List (List Nat)}
    {node parent : Nat}
    (h : parent ∈ (ofParents reduce parents).parentsOf node) :
    ∃ given, parents[node]? = some given ∧ parent ∈ given := by
  induction parents using List.reverseRecOn with
  | nil => simp [ofParents, parentsOf] at h
  | append_singleton parents last ih =>
      rw [ofParents_append, parentsOf_addNode, size_ofParents] at h
      split at h
      · next hNew =>
          subst hNew
          exact ⟨last, List.getElem?_concat_length,
            mem_given_of_mem_parentsToEnter h⟩
      · obtain ⟨given, hGet, hMem⟩ := ih h
        have hOld := (List.getElem?_eq_some_iff.mp hGet).1
        exact ⟨given, by rw [List.getElem?_append_left hOld, hGet], hMem⟩

end DependencyGraph

end RankOne
