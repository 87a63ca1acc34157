import Mathlib.Data.Finset.Card
import RankOne.Proofs.Schedule.LongestPath

/-!
# The sweep comes to an end

Rounds follow each other as long as there is a frontier, and frontiers need not
get shorter: a node comes into them once for each of its parents, and again when
it is deferred. What gets fewer are the nodes that are left. The oldest of them
waits for nothing, and it is in the frontier, since a frontier contains every
node that is left and has a parent that is placed. So every round places a node,
and a round without a frontier has nothing left to place.

`placeRounds` counts its rounds down from the number of nodes. `Sweep` is the
loop without the count, in which a round may follow every round; it has the same
end.

## Main results

* `Swept.step` — what holds between two rounds;
* `Swept.exists_ready` — as long as a node is left, a round finds one that is
  ready;
* `Swept.placeRounds_total` — the rounds end, and place all nodes that are left;
* `Mirrored.levels_total` — a graph has levels, and the loop has no other end.
-/

namespace RankOne

namespace DependencyGraph

variable {graph : DependencyGraph} {placed : Std.TreeSet Nat}
  {frontier : Array Nat}

/-! ## Nodes that are left -/

/-- All parents of a node are placed. -/
def ready (graph : DependencyGraph) (placed : Std.TreeSet Nat) (node : Nat) :
    Bool :=
  (graph.parentsOf node).all placed.contains

theorem ready_iff {node : Nat} :
    graph.ready placed node = true ↔
      ∀ parent ∈ graph.parentsOf node, placed.contains parent = true :=
  List.all_eq_true

/-- The nodes that are left. -/
def left (graph : DependencyGraph) (placed : Std.TreeSet Nat) : Finset Nat :=
  (Finset.range graph.size).filter fun node => placed.contains node ≠ true

private theorem mem_left {node : Nat} :
    node ∈ graph.left placed ↔ node < graph.size ∧
      placed.contains node ≠ true := by
  rw [left, Finset.mem_filter, Finset.mem_range]

private theorem mem_left_insert {members : List Nat} {node : Nat} :
    node ∈ graph.left (members.foldl (·.insert ·) placed) ↔
      node ∈ graph.left placed ∧ node ∉ members := by
  rw [mem_left, mem_left, Ne, contains_foldl_insert, not_or, and_assoc]

/-- Fewer nodes are left when one of them is placed. -/
private theorem card_left_insert {members : List Nat} {node : Nat}
    (hNode : node ∈ graph.left placed) (hMember : node ∈ members) :
    (graph.left (members.foldl (·.insert ·) placed)).card <
      (graph.left placed).card := by
  refine Finset.card_lt_card
    (Finset.ssubset_iff_of_subset ?_ |>.mpr ⟨node, hNode, ?_⟩)
  · exact fun other hOther => (mem_left_insert.mp hOther).1
  · exact fun hStill => (mem_left_insert.mp hStill).2 hMember

/-! ## Between two rounds -/

/-- What holds between two rounds. -/
structure Swept (graph : DependencyGraph) (placed : Std.TreeSet Nat)
    (frontier : Array Nat) : Prop where
  entries : ∀ node < graph.size, graph.parentsOf node = [] →
    placed.contains node = true
  closed : ∀ node, placed.contains node = true →
    ∀ parent ∈ graph.parentsOf node, placed.contains parent = true
  unplaced : ∀ node ∈ frontier.toList, node ∈ graph.left placed
  reached : ∀ node, placed.contains node ≠ true →
    ∀ parent ∈ graph.parentsOf node,
    placed.contains parent = true → node ∈ frontier.toList

namespace Swept

/-- The nodes without parents are placed before the first round. -/
private theorem start (hGraph : graph.Mirrored) :
    graph.Swept (graph.entryNodes.foldl (·.insert ·) ∅)
      (graph.entryNodes.foldl (fun frontier node =>
        frontier ++ graph.childrenOf node) #[]) where
  entries := fun node hNode hNone =>
    contains_entryNodes.mpr (mem_entryNodes.mpr ⟨hNode, hNone⟩)
  closed := by
    intro node hNode parent hParent
    rw [contains_entryNodes, mem_entryNodes] at hNode
    rw [hNode.2] at hParent
    cases hParent
  unplaced := by
    intro node hNode
    obtain ⟨parent, -, hParent⟩ := (mem_firstFrontier hGraph).mp hNode
    refine mem_left.mpr ⟨lt_size_of_mem_parentsOf hParent, fun hEntry => ?_⟩
    rw [contains_entryNodes, mem_entryNodes] at hEntry
    rw [hEntry.2] at hParent
    cases hParent
  reached := fun node _ parent hParent hEntry =>
    (mem_firstFrontier hGraph).mpr ⟨parent,
      contains_entryNodes.mp hEntry, hParent⟩

variable (hGraph : graph.Mirrored) (h : graph.Swept placed frontier)
include hGraph h

/-- As long as nodes are left, one in the frontier is ready. -/
theorem exists_ready {node : Nat} (hNode : node ∈ graph.left placed) :
    ∃ next ∈ frontier.toList, next ∈ graph.left placed ∧
      graph.ready placed next = true := by
  induction node using Nat.strongRecOn with
  | ind node ih =>
      obtain ⟨hBound, hLeft⟩ := mem_left.mp hNode
      by_cases hReady : graph.ready placed node = true
      · have hSome : graph.parentsOf node ≠ [] :=
          fun hNone => hLeft (h.entries node hBound hNone)
        obtain ⟨parent, hParent⟩ := List.exists_mem_of_ne_nil _ hSome
        have hPlaced := ready_iff.mp hReady parent hParent
        exact ⟨node, h.reached node hLeft parent hParent hPlaced, hNode, hReady⟩
      · rw [ready_iff] at hReady
        push Not at hReady
        obtain ⟨parent, hParent, hWaits⟩ := hReady
        have hOlder := hGraph.parent_lt node parent hParent
        exact ih parent hOlder
          (mem_left.mpr ⟨Nat.lt_trans hOlder hBound, hWaits⟩)

/-- Without a frontier no node is left. -/
private theorem left_eq_empty (hFrontier : frontier.isEmpty = true) :
    graph.left placed = ∅ := by
  rw [Finset.eq_empty_iff_forall_notMem]
  intro node hNode
  obtain ⟨next, hNext, -⟩ := h.exists_ready hGraph hNode
  rw [Array.isEmpty_iff.mp hFrontier] at hNext
  cases hNext

section Round

variable {round : Round}
  (hRound : round = frontier.toList.foldl (graph.visit placed) {})
include hRound

private theorem fair : round.Fair graph placed := by
  subst hRound
  apply Round.Fair.start.visitAll hGraph
  exact fun node hNode => (mem_left.mp (h.unplaced node hNode)).1

/-- A round leaves behind what the next one needs. -/
theorem step :
    graph.Swept (round.members.toList.foldl (·.insert ·) placed)
      round.next where
  entries := fun node hNode hNone =>
    (contains_foldl_insert _ _ _).mpr (Or.inl (h.entries node hNode hNone))
  closed := by
    intro node hNode parent hParent
    rw [contains_foldl_insert] at hNode ⊢
    rcases hNode with hOld | hMember
    · exact Or.inl (h.closed node hOld parent hParent)
    · exact Or.inl ((h.fair hGraph hRound).ready node hMember parent hParent)
  unplaced := by
    -- A node that comes next has a parent that was not placed, so it was not
    -- placed itself.
    intro node hNode
    have hFair := h.fair hGraph hRound
    obtain ⟨parent, hParent, hWaits⟩ := hFair.waiting node hNode
    refine mem_left_insert.mpr ⟨mem_left.mpr ⟨hFair.next node hNode,
      fun hOld => ?_⟩, fun hMember => ?_⟩
    · exact hWaits (h.closed node hOld parent hParent)
    · exact hWaits (hFair.ready node hMember parent hParent)
  reached := fun _ hLeft _ hParent hPlaced =>
    reached_next hGraph h.reached hRound hLeft hParent hPlaced

/-- A round with a frontier places a node that is left. -/
private theorem exists_member (hFrontier : frontier.isEmpty = false) :
    ∃ node ∈ graph.left placed, node ∈ round.members.toList := by
  rw [← Array.isEmpty_toList, List.isEmpty_eq_false_iff] at hFrontier
  obtain ⟨node, hNode⟩ := List.exists_mem_of_ne_nil _ hFrontier
  obtain ⟨next, hNext, hLeft, hReady⟩ :=
    h.exists_ready hGraph (h.unplaced node hNode)
  refine ⟨next, hLeft, ?_⟩
  refine (placed_or_deferred hGraph hRound hNext
    (mem_left.mp hLeft).2).resolve_right ?_
  rintro ⟨-, parent, hParent, hWaits⟩
  exact hWaits (ready_iff.mp hReady parent hParent)

end Round

/-! ## All rounds -/

/-- As many rounds as nodes are left come to an end, and place them all. -/
theorem placeRounds_total {rounds : Nat}
    (hRounds : (graph.left placed).card ≤ rounds) :
    ∃ later, graph.placeRounds rounds placed frontier = .ok later ∧
      ∀ node ∈ graph.left placed, node ∈ later.flatten := by
  induction rounds generalizing placed frontier with
  | zero =>
      have hNone : graph.left placed = ∅ :=
        Finset.card_eq_zero.mp (Nat.le_zero.mp hRounds)
      have hFrontier : frontier.isEmpty = true := by
        rw [← Array.isEmpty_toList, List.isEmpty_iff,
          List.eq_nil_iff_forall_not_mem]
        intro node hNode
        have hLeft := h.unplaced node hNode
        rw [hNone] at hLeft
        exact Finset.notMem_empty node hLeft
      refine ⟨[], ?_, ?_⟩
      · rw [placeRounds, hFrontier, if_pos rfl]
      · rw [hNone]
        exact fun node hNode => absurd hNode (Finset.notMem_empty node)
  | succ rounds ih =>
      unfold placeRounds
      cases hFrontier : frontier.isEmpty with
      | true =>
          refine ⟨[], if_pos rfl, ?_⟩
          rw [h.left_eq_empty hGraph hFrontier]
          exact fun node hNode => absurd hNode (Finset.notMem_empty node)
      | false =>
          rw [if_neg Bool.false_ne_true, ← Array.foldl_toList]
          dsimp only
          generalize hRound :
            frontier.toList.foldl (graph.visit placed) {} = round
          obtain ⟨node, hLeft, hMember⟩ :=
            h.exists_member hGraph hRound.symm hFrontier
          have hProgress : round.members.isEmpty = false := by
            rw [← Array.isEmpty_toList, List.isEmpty_eq_false_iff]
            exact List.ne_nil_of_mem hMember
          have hFewer := card_left_insert hLeft hMember
          obtain ⟨later, hLater, hRest⟩ :=
            ih (h.step hGraph hRound.symm) (by omega)
          rw [hProgress, if_neg Bool.false_ne_true,
            ← Array.foldl_toList, hLater]
          refine ⟨_, rfl, fun other hOther => ?_⟩
          rw [List.flatten_cons, List.mem_append]
          by_cases hHere : other ∈ round.members.toList
          · exact Or.inl hHere
          · exact Or.inr (hRest other (mem_left_insert.mpr ⟨hOther, hHere⟩))

end Swept

/-! ## The loop without a count -/

/-- The rounds one after the other, for as long as there is a frontier. The last
argument is how they end: with the levels that they place, or with a round that
places nothing. -/
inductive Sweep (graph : DependencyGraph) :
    Std.TreeSet Nat → Array Nat → Except Fault (List (List Nat)) → Prop
  | ended {placed : Std.TreeSet Nat} {frontier : Array Nat}
      (hEnded : frontier.isEmpty = true) :
      graph.Sweep placed frontier (.ok [])
  | stuck {placed : Std.TreeSet Nat} {frontier : Array Nat}
      (hSome : frontier.isEmpty = false)
      (hStuck : (frontier.foldl (graph.visit placed) {}).members.isEmpty =
        true) :
      graph.Sweep placed frontier (.error .cyclicDependencies)
  | round {placed : Std.TreeSet Nat} {frontier : Array Nat} {round : Round}
      {outcome : Except Fault (List (List Nat))}
      (hSome : frontier.isEmpty = false)
      (hRound : frontier.foldl (graph.visit placed) {} = round)
      (hProgress : round.members.isEmpty = false)
      (hRest : graph.Sweep
        (round.members.foldl (·.insert ·) placed) round.next outcome) :
      graph.Sweep placed frontier (outcome.map (round.members.toList :: ·))

namespace Sweep

variable {outcome outcome' : Except Fault (List (List Nat))}

/-- The loop has one end at most. -/
private theorem unique (h : graph.Sweep placed frontier outcome)
    (h' : graph.Sweep placed frontier outcome') : outcome = outcome' := by
  induction h generalizing outcome' with
  | ended hEnded =>
      cases h' with
      | ended => rfl
      | stuck hSome => exact absurd hEnded (by simp [hSome])
      | round hSome => exact absurd hEnded (by simp [hSome])
  | stuck hSome hStuck =>
      cases h' with
      | ended hEnded => exact absurd hEnded (by simp [hSome])
      | stuck => rfl
      | round _ hRound hProgress =>
          subst hRound
          exact absurd hStuck (by simp [hProgress])
  | round hSome hRound hProgress _ ih =>
      cases h' with
      | ended hEnded => exact absurd hEnded (by simp [hSome])
      | stuck _ hStuck =>
          subst hRound
          exact absurd hStuck (by simp [hProgress])
      | round _ hRound' _ hRest' =>
          subst hRound hRound'
          rw [ih hRest']

/-- Rounds that come to an end before the count does are those of the loop. -/
private theorem of_placeRounds {rounds : Nat} {later : List (List Nat)}
    (h : graph.placeRounds rounds placed frontier = .ok later) :
    graph.Sweep placed frontier (.ok later) := by
  induction rounds generalizing placed frontier later with
  | zero =>
      unfold placeRounds at h
      split at h
      · next hEnded =>
          injection h with h
          exact h ▸ .ended hEnded
      · cases h
  | succ rounds ih =>
      unfold placeRounds at h
      split at h
      · next hEnded =>
          injection h with h
          exact h ▸ .ended hEnded
      next hSome =>
      dsimp only at h
      split at h
      · cases h
      next hProgress =>
      split at h
      · cases h
      next following hFollowing =>
      injection h with h
      subst h
      exact .round (Bool.eq_false_of_not_eq_true hSome) rfl
        (Bool.eq_false_of_not_eq_true hProgress) (ih hFollowing)

end Sweep

/-! ## Levels -/

/-- When the rounds place all nodes that are left, these are the levels. -/
private theorem levels_eq_of_placeRounds (hGraph : graph.Mirrored)
    {later : List (List Nat)}
    (h : graph.placeRounds graph.size (graph.entryNodes.foldl (·.insert ·) ∅)
      (graph.entryNodes.foldl (fun frontier node =>
      frontier ++ graph.childrenOf node) #[]) = .ok later)
    (hAll : ∀ node ∈ graph.left (graph.entryNodes.foldl (·.insert ·) ∅),
      node ∈ later.flatten) :
    graph.levels =
      .ok (if graph.entryNodes.isEmpty then later
        else graph.entryNodes :: later) := by
  have hLevelled := entryNodes_levelled hGraph h
  have hFlatten : (if graph.entryNodes.isEmpty then later
      else graph.entryNodes :: later).flatten =
        graph.entryNodes ++ later.flatten := by
    split
    · next hEmpty => rw [List.isEmpty_iff.mp hEmpty, List.nil_append]
    · rw [List.flatten_cons]
  unfold levels
  dsimp only
  rw [h]
  dsimp only
  generalize (if graph.entryNodes.isEmpty then later
    else graph.entryNodes :: later) = chosen at hLevelled hFlatten ⊢
  have hPerm : chosen.flatten.Perm (List.range graph.size) := by
    rw [List.perm_ext_iff_of_nodup hLevelled.nodup List.nodup_range]
    intro node
    rw [List.mem_range]
    refine ⟨fun hNode => (hLevelled.fresh node hNode).2, fun hNode => ?_⟩
    rw [hFlatten, List.mem_append]
    by_cases hEntry : node ∈ graph.entryNodes
    · exact Or.inl hEntry
    · exact Or.inr (hAll node (mem_left.mpr
        ⟨hNode, fun hPlaced => hEntry (contains_entryNodes.mp hPlaced)⟩))
  exact if_pos (by rw [hPerm.length_eq, List.length_range])

/-- The sweep of a graph comes to an end, at which every node is placed once. -/
def SweptOut (graph : DependencyGraph) : Prop :=
  ∃ later : List (List Nat),
    (∀ outcome, graph.Sweep (graph.entryNodes.foldl (·.insert ·) ∅)
      (graph.entryNodes.foldl (fun frontier node =>
        frontier ++ graph.childrenOf node) #[]) outcome ↔ outcome = .ok later) ∧
    ∃ levels, graph.levels = .ok levels ∧
      levels = (if graph.entryNodes.isEmpty then later
        else graph.entryNodes :: later) ∧
      levels.flatten.Perm (List.range graph.size)

/-- As long as parents are older, the sweep comes to its end. -/
theorem Mirrored.sweptOut (hGraph : graph.Mirrored) : graph.SweptOut := by
  have hCount : (graph.left (graph.entryNodes.foldl (·.insert ·) ∅)).card ≤
      graph.size := by
    refine (Finset.card_filter_le _ _).trans ?_
    rw [Finset.card_range]
  obtain ⟨later, hLater, hAll⟩ :=
    (Swept.start hGraph).placeRounds_total hGraph hCount
  have hSweep := Sweep.of_placeRounds hLater
  have hLevels := levels_eq_of_placeRounds hGraph hLater hAll
  refine ⟨later, fun outcome => ⟨fun h => h.unique hSweep, ?_⟩, _, hLevels, rfl,
    (levels_levelled hGraph hLevels).2⟩
  rintro rfl
  exact hSweep

/-- A graph whose parents are older has levels. -/
theorem Mirrored.levels_total (hGraph : graph.Mirrored) :
    ∃ levels, graph.levels = .ok levels := by
  obtain ⟨-, -, levels, hLevels, -⟩ := hGraph.sweptOut
  exact ⟨levels, hLevels⟩

end DependencyGraph

end RankOne
