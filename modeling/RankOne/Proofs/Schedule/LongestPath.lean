import RankOne.Proofs.Schedule.Cost
import RankOne.Proofs.Schedule.Levels

/-!
# Constraints are scheduled as early as possible

Every constraint comes one level after the last of those it waits for. That it
comes later than all of them is what makes a schedule ordered; that it comes no
later than needed is due to the frontier. When a round begins, the frontier
contains every node that is left and has a parent that is placed. So a node all
of whose parents were placed before the last round would have been placed in the
last round, and every node has a parent in the level before its own.

With reduction the rounds follow fewer edges, but an edge is only left out when
another path leads the same way.

## Main results

* `DependencyGraph.Follows` — every node has a parent in the level before its
  own;
* `DependencyGraph.levels_follow` — the levels of a graph are of this kind;
* `Schedule.LongestPath` — a constraint comes one level after the last for which
  it waits;
* `Schedule.ofSystem_longestPath` — every schedule is of this kind, whatever the
  settings.
-/

namespace RankOne

namespace DependencyGraph

variable {graph : DependencyGraph}

/-! ## Rounds -/

/-- A round loses no node: what it has seen is placed, or deferred because of a
parent that is not placed, and the children of what it has placed come next. -/
structure Round.Thorough (graph : DependencyGraph) (placed : Std.TreeSet Nat)
    (round : Round) : Prop where
  seen : ∀ node, round.seen.contains node = true → node ∈ round.members.toList ∨
    node ∈ round.next.toList ∧
      ∃ parent ∈ graph.parentsOf node, placed.contains parent ≠ true
  children : ∀ node ∈ round.members.toList, ∀ child,
    node ∈ graph.parentsOf child →
    child ∈ round.next.toList

namespace Round.Thorough

variable {placed : Std.TreeSet Nat} {round : Round}

private theorem start : Round.Thorough graph placed {} where
  seen := by simp
  children := by simp

/-- Looking at a candidate loses no node, and leaves the candidate placed or
seen. -/
private theorem visit (hGraph : graph.Mirrored)
    (h : round.Thorough graph placed) (node : Nat) :
    (graph.visit placed round node).Thorough graph placed ∧
      (placed.contains node = true ∨
        (graph.visit placed round node).seen.contains node = true) ∧
      ∀ other, round.seen.contains other = true →
        (graph.visit placed round node).seen.contains other = true := by
  unfold DependencyGraph.visit
  split
  · next hOld =>
      rw [Bool.or_eq_true] at hOld
      exact ⟨h, hOld.symm, fun _ hOther => hOther⟩
  dsimp only
  have hInsert : ∀ other, (round.seen.insert node).contains other = true ↔
      node = other ∨ round.seen.contains other = true := by
    intro other
    rw [Std.TreeSet.contains_insert]
    simp
  split
  · refine ⟨?_, Or.inr ((hInsert node).mpr (Or.inl rfl)),
      fun other hOther => (hInsert other).mpr (Or.inr hOther)⟩
    exact
      { seen := by
          intro other hOther
          simp only [Array.toList_push, Array.toList_append, List.mem_append,
            List.mem_singleton]
          rcases (hInsert other).mp hOther with rfl | hOld
          · exact Or.inl (Or.inr rfl)
          · rcases h.seen other hOld with hMember | ⟨hNext, hWaits⟩
            · exact Or.inl (Or.inl hMember)
            · exact Or.inr ⟨Or.inl hNext, hWaits⟩
        children := by
          intro member hMember child hParent
          simp only [Array.toList_push, Array.toList_append, List.mem_append,
            List.mem_singleton] at hMember ⊢
          rcases hMember with hOld | rfl
          · exact Or.inl (h.children member hOld child hParent)
          · have hChild := (hGraph.mem_childrenOf member child).mpr hParent
            exact Or.inr (Array.mem_toList_iff.mpr hChild) }
  · next hWaits =>
      refine ⟨?_, Or.inr ((hInsert node).mpr (Or.inl rfl)),
        fun other hOther => (hInsert other).mpr (Or.inr hOther)⟩
      exact
        { seen := by
            intro other hOther
            simp only [Array.toList_push, List.mem_append, List.mem_singleton]
            rcases (hInsert other).mp hOther with rfl | hOld
            · refine Or.inr ⟨Or.inr rfl, ?_⟩
              rw [List.all_eq_true] at hWaits
              push Not at hWaits
              exact hWaits
            · rcases h.seen other hOld with hMember | ⟨hNext, hLeft⟩
              · exact Or.inl hMember
              · exact Or.inr ⟨Or.inl hNext, hLeft⟩
          children := by
            intro member hMember child hParent
            simp only [Array.toList_push, List.mem_append, List.mem_singleton]
            exact Or.inl (h.children member hMember child hParent) }

private theorem visitAll (hGraph : graph.Mirrored)
    (h : round.Thorough graph placed) (nodes : List Nat) :
    (nodes.foldl (graph.visit placed) round).Thorough graph placed ∧
      (∀ node ∈ nodes, placed.contains node = true ∨
        (nodes.foldl (graph.visit placed) round).seen.contains node = true) ∧
      ∀ other, round.seen.contains other = true →
        (nodes.foldl (graph.visit placed) round).seen.contains other =
          true := by
  induction nodes generalizing round with
  | nil => exact ⟨h, by simp, fun _ hOther => hOther⟩
  | cons first rest ih =>
      rw [List.foldl_cons]
      obtain ⟨hFirst, hSeen, hKeeps⟩ := h.visit hGraph first
      obtain ⟨hRest, hAll, hKeepsAll⟩ := ih hFirst
      refine ⟨hRest, ?_,
        fun other hOther => hKeepsAll other (hKeeps other hOther)⟩
      intro node hNode
      rcases List.mem_cons.mp hNode with rfl | hNode
      · exact hSeen.imp_right (hKeepsAll node)
      · exact hAll node hNode

end Round.Thorough

/-! ## Levels -/

/-- Levels that follow a level: none is empty, and every node has a parent in
the level before its own. -/
def Follows (graph : DependencyGraph) : List Nat → List (List Nat) → Prop
  | _, [] => True
  | previous, level :: later =>
      level ≠ [] ∧
        (∀ node ∈ level, ∃ parent ∈ graph.parentsOf node, parent ∈ previous) ∧
        graph.Follows level later

/-- What is left when a round begins. -/
structure Pending (graph : DependencyGraph) (placed : Std.TreeSet Nat)
    (previous : List Nat) (frontier : Array Nat) : Prop where
  reached : ∀ node, placed.contains node ≠ true →
    ∀ parent ∈ graph.parentsOf node,
    placed.contains parent = true → node ∈ frontier.toList
  unready : ∀ node < graph.size, placed.contains node ≠ true →
    ∃ parent ∈ graph.parentsOf node,
    placed.contains parent ≠ true ∨ parent ∈ previous

/-- A round places or defers every node of its frontier that is left; deferred,
a node has a parent that was not placed. -/
theorem placed_or_deferred (hGraph : graph.Mirrored) {placed : Std.TreeSet Nat}
    {frontier : Array Nat} {round : Round}
    (hRound : round = frontier.toList.foldl (graph.visit placed) {})
    {node : Nat} (hNode : node ∈ frontier.toList)
    (hUnplaced : placed.contains node ≠ true) :
    node ∈ round.members.toList ∨ node ∈ round.next.toList ∧
      ∃ parent ∈ graph.parentsOf node, placed.contains parent ≠ true := by
  have hStart : Round.Thorough graph placed {} := Round.Thorough.start
  obtain ⟨hThorough, hVisited, -⟩ := hStart.visitAll hGraph frontier.toList
  rw [← hRound] at hThorough hVisited
  exact hThorough.seen node ((hVisited node hNode).resolve_left hUnplaced)

/-- When the frontier contains what is left and has a parent that is placed, so
does the next one. -/
theorem reached_next (hGraph : graph.Mirrored) {placed : Std.TreeSet Nat}
    {frontier : Array Nat}
    (hReached : ∀ node, placed.contains node ≠ true →
      ∀ parent ∈ graph.parentsOf node, placed.contains parent = true →
      node ∈ frontier.toList) {round : Round}
    (hRound : round = frontier.toList.foldl (graph.visit placed) {})
    {node parent : Nat}
    (hLeft : (round.members.toList.foldl (·.insert ·) placed).contains node ≠
      true) (hParent : parent ∈ graph.parentsOf node)
    (hPlaced :
      (round.members.toList.foldl (·.insert ·) placed).contains parent = true) :
    node ∈ round.next.toList := by
  have hStart : Round.Thorough graph placed {} := Round.Thorough.start
  obtain ⟨hThorough, -, -⟩ := hStart.visitAll hGraph frontier.toList
  rw [← hRound] at hThorough
  rw [Ne, contains_foldl_insert, not_or] at hLeft
  rcases (contains_foldl_insert _ _ _).mp hPlaced with hOld | hMember
  · have hFrontier := hReached node hLeft.1 parent hParent hOld
    exact ((placed_or_deferred hGraph hRound hFrontier hLeft.1).resolve_left
      hLeft.2).1
  · exact hThorough.children parent hMember node hParent

/-- What is left after a round. -/
private theorem Pending.step (hGraph : graph.Mirrored)
    {placed : Std.TreeSet Nat} {previous : List Nat} {frontier : Array Nat}
    (h : graph.Pending placed previous frontier) {round : Round}
    (hRound : round = frontier.toList.foldl (graph.visit placed) {}) :
    graph.Pending
      (round.members.toList.foldl (·.insert ·) placed) round.members.toList
      round.next := by
  constructor
  · intro node hLeft parent hParent hPlaced
    exact reached_next hGraph h.reached hRound hLeft hParent hPlaced
  · intro node hNode hLeft
    rw [Ne, contains_foldl_insert, not_or] at hLeft
    by_contra hReady
    push Not at hReady
    -- All parents were placed before this round, so the node was in its
    -- frontier and ready.
    have hParents : ∀ parent ∈ graph.parentsOf node,
        placed.contains parent = true := by
      intro parent hParent
      obtain ⟨hPlaced, hNew⟩ := hReady parent hParent
      exact ((contains_foldl_insert _ _ _).mp hPlaced).resolve_right hNew
    obtain ⟨parent, hParent, -⟩ := h.unready node hNode hLeft.1
    have hFrontier :=
      h.reached node hLeft.1 parent hParent (hParents parent hParent)
    obtain ⟨-, other, hOther, hUnplaced⟩ :=
      (placed_or_deferred hGraph hRound hFrontier hLeft.1).resolve_left hLeft.2
    exact hUnplaced (hParents other hOther)

/-- Rounds place every node one level after one of its parents. -/
private theorem placeRounds_follow (hGraph : graph.Mirrored) {rounds : Nat}
    {placed : Std.TreeSet Nat} {previous : List Nat} {frontier : Array Nat}
    {later : List (List Nat)}
    (hFrontier : ∀ node ∈ frontier.toList, node < graph.size)
    (hPending : graph.Pending placed previous frontier)
    (h : graph.placeRounds rounds placed frontier = .ok later) :
    graph.Follows previous later := by
  induction rounds generalizing placed previous frontier later with
  | zero =>
      unfold placeRounds at h
      split at h
      · injection h with h
        exact h ▸ trivial
      · cases h
  | succ rounds ih =>
      unfold placeRounds at h
      split at h
      · injection h with h
        exact h ▸ trivial
      dsimp only at h
      split at h
      · cases h
      next hProgress =>
      split at h
      · cases h
      next following hFollowing =>
      injection h with h
      subst h
      rw [← Array.foldl_toList] at hFollowing hProgress ⊢
      rw [← Array.foldl_toList] at hFollowing
      generalize hRound : frontier.toList.foldl (graph.visit placed) {} = round
        at hFollowing hProgress ⊢
      have hFair : round.Fair graph placed :=
        hRound ▸ Round.Fair.start.visitAll hGraph hFrontier
      refine ⟨?_, ?_,
        ih hFair.next (hPending.step hGraph hRound.symm) hFollowing⟩
      · intro hEmpty
        simp [Array.toList_eq_nil_iff.mp hEmpty] at hProgress
      · intro node hNode
        obtain ⟨parent, hParent, hLast⟩ :=
          hPending.unready node (hFair.bounded node hNode)
            (hFair.fresh node hNode)
        exact ⟨parent, hParent,
          hLast.resolve_left
            (not_not.mpr (hFair.ready node hNode parent hParent))⟩

private theorem Follows.getElem? {previous : List Nat} {later : List (List Nat)}
    (h : graph.Follows previous later) {number : Nat} {level : List Nat}
    (hLevel : later[number]? = some level) :
    level ≠ [] ∧ ∀ node ∈ level, ∃ parent ∈ graph.parentsOf node,
      ∃ before, (previous :: later)[number]? = some before ∧
        parent ∈ before := by
  induction later generalizing previous number with
  | nil => cases hLevel
  | cons first rest ih =>
      obtain ⟨hNonempty, hParents, hRest⟩ := h
      cases number with
      | zero =>
          injection hLevel with hLevel
          subst hLevel
          refine ⟨hNonempty, fun node hNode => ?_⟩
          obtain ⟨parent, hParent, hMem⟩ := hParents node hNode
          exact ⟨parent, hParent, previous, rfl, hMem⟩
      | succ number => exact ih hRest hLevel

/-- Without a frontier there are no more levels. -/
private theorem placeRounds_nil {rounds : Nat} {placed : Std.TreeSet Nat}
    {later : List (List Nat)}
    (h : graph.placeRounds rounds placed #[] = .ok later) : later = [] := by
  unfold placeRounds at h
  split at h
  all_goals
    rw [Array.isEmpty_empty, if_pos rfl] at h
    injection h with h
    exact h.symm

/-- No level of a graph is empty, and every node of a later level has a parent
in the level before its own. -/
theorem levels_follow (hGraph : graph.Mirrored) {levels : List (List Nat)}
    (h : graph.levels = .ok levels) {number : Nat} {level : List Nat}
    (hLevel : levels[number]? = some level) :
    level ≠ [] ∧ ∀ before, number = before + 1 → ∀ node ∈ level,
      ∃ parent ∈ graph.parentsOf node, ∃ earlier,
        levels[before]? = some earlier ∧
        parent ∈ earlier := by
  obtain ⟨later, hLater, hChosen, -⟩ := levels_eq_ok h
  have hPending :
      graph.Pending (graph.entryNodes.foldl (·.insert ·) ∅) graph.entryNodes
        (graph.entryNodes.foldl (fun frontier node =>
          frontier ++ graph.childrenOf node) #[]) := by
    constructor
    · intro node _ parent hParent hEntry
      exact (mem_firstFrontier hGraph).mpr ⟨parent,
        contains_entryNodes.mp hEntry, hParent⟩
    · intro node hNode hLeft
      rw [Ne, contains_entryNodes, mem_entryNodes, not_and] at hLeft
      obtain ⟨parent, hParent⟩ := List.exists_mem_of_ne_nil _ (hLeft hNode)
      refine ⟨parent, hParent, ?_⟩
      rw [Ne, contains_entryNodes]
      exact (em _).symm
  have hFollows := placeRounds_follow hGraph
    (fun node hNode => by
      obtain ⟨parent, -, hParent⟩ := (mem_firstFrontier hGraph).mp hNode
      exact lt_size_of_mem_parentsOf hParent)
    hPending hLater
  cases hEntry : graph.entryNodes with
  | nil =>
      -- Nothing is in the first frontier, so that there are no levels at all.
      have hNone : later = [] := by
        rw [hEntry, List.foldl_nil, List.foldl_nil] at hLater
        exact placeRounds_nil hLater
      rw [hChosen, hEntry, hNone, List.isEmpty_nil, if_pos rfl] at hLevel
      cases hLevel
  | cons first rest =>
      rw [hEntry, if_neg (by simp)] at hChosen
      rw [hEntry] at hFollows
      subst hChosen
      cases number with
      | zero =>
          injection hLevel with hLevel
          exact ⟨by simp [← hLevel], fun before hBefore => by omega⟩
      | succ number =>
          obtain ⟨hNonempty, hParents⟩ := hFollows.getElem? hLevel
          refine ⟨hNonempty, fun before hBefore => ?_⟩
          obtain rfl : number = before := by omega
          exact hParents

/-- A parent that is given for a node has an earlier level, and one of them has
the level before the node's own. -/
theorem level_of_given {reduce : Bool} {parents : List (List Nat)}
    (hParents : OlderParents parents) {levels : List (List Nat)}
    (hLevels : (ofParents reduce parents).levels = .ok levels)
    {number node : Nat} {level given : List Nat}
    (hLevel : levels[number]? = some level) (hNode : node ∈ level)
    (hGiven : parents[node]? = some given) :
    (∀ parent ∈ given, ∃ (before : Nat) (earlier : List Nat), before < number ∧
      levels[before]? = some earlier ∧ parent ∈ earlier) ∧
    ∀ before, number = before + 1 → ∃ parent ∈ given, ∃ earlier : List Nat,
      levels[before]? = some earlier ∧ parent ∈ earlier := by
  have hGraph : (ofParents reduce parents).Mirrored :=
    (ofParents_wellFormed hParents).toMirrored
  obtain ⟨hNumber, rfl⟩ := List.getElem?_eq_some_iff.mp hLevel
  constructor
  · intro parent hParent
    have hSplit : levels = levels.take number ++
        levels[number] :: levels.drop (number + 1) := by
      rw [← List.drop_eq_getElem_cons hNumber, List.take_append_drop]
    have hBefore := (levels_levelled hGraph hLevels).1.ancestor hSplit hNode
      (ancestor_of_given hParents hGiven hParent)
    obtain ⟨earlier, hEarlier, hMem⟩ := List.mem_flatten.mp hBefore
    obtain ⟨before, hGet⟩ := List.mem_iff_getElem?.mp hEarlier
    rw [List.getElem?_take] at hGet
    split at hGet
    · next hLess => exact ⟨before, earlier, hLess, hGet, hMem⟩
    · cases hGet
  · intro before hBefore
    obtain ⟨parent, hParent, earlier, hGet, hMem⟩ :=
      (levels_follow hGraph hLevels hLevel).2 before hBefore node hNode
    obtain ⟨given', hGiven', hMemGiven⟩ := mem_given_of_mem_parentsOf hParent
    rw [hGiven] at hGiven'
    injection hGiven' with hSame
    exact ⟨parent, hSame ▸ hMemGiven, earlier, hGet, hMem⟩

end DependencyGraph

/-! ## Tasks -/

namespace Task

variable {maxWeight : Nat} {weightOf : Nat → Nat} {custom : Nat → Bool}

private theorem nodes_ne_nil_of_mem_packAfter {weight : Nat} {lastCustom : Bool}
    {nodes : List Nat} {task : Task}
    (h : task ∈
      (packAfter maxWeight weightOf custom weight lastCustom nodes).2) :
    task.nodes ≠ [] := by
  induction nodes generalizing weight lastCustom with
  | nil => cases h
  | cons node rest ih =>
      unfold packAfter at h
      split at h
      · rcases List.mem_cons.mp h with rfl | hMem
        · exact List.cons_ne_nil _ _
        · exact ih hMem
      · exact ih h

/-- Packing makes no empty task. -/
private theorem nodes_ne_nil_of_mem_pack {nodes : List Nat} {task : Task}
    (h : task ∈ pack maxWeight weightOf custom nodes) : task.nodes ≠ [] := by
  cases nodes with
  | nil => cases h
  | cons node rest =>
      rcases List.mem_cons.mp h with rfl | hMem
      · exact List.cons_ne_nil _ _
      · exact nodes_ne_nil_of_mem_packAfter hMem

private theorem pack_ne_nil {nodes : List Nat} (h : nodes ≠ []) :
    pack maxWeight weightOf custom nodes ≠ [] := by
  cases nodes with
  | nil => exact absurd rfl h
  | cons node rest => exact List.cons_ne_nil _ _

end Task

namespace Schedule

/-! ## Level numbers -/

/-- Writes the number of a level at its nodes. -/
def numberLevel (numbers : Array Nat) (nodes : List Nat) (number : Nat) :
    Array Nat :=
  nodes.foldl (fun numbers node => numbers.setIfInBounds node number) numbers

private theorem size_numberLevel {numbers : Array Nat} {nodes : List Nat}
    {number : Nat} :
    (numberLevel numbers nodes number).size = numbers.size := by
  unfold numberLevel
  induction nodes generalizing numbers with
  | nil => rfl
  | cons first rest ih => rw [List.foldl_cons, ih, Array.size_setIfInBounds]

private theorem getElem?_numberLevel {numbers : Array Nat} {nodes : List Nat}
    {number node : Nat} :
    (numberLevel numbers nodes number)[node]? =
      if node ∈ nodes ∧ node < numbers.size then some number
        else numbers[node]? := by
  unfold numberLevel
  induction nodes generalizing numbers with
  | nil => simp
  | cons first rest ih =>
      rw [List.foldl_cons, ih, Array.size_setIfInBounds,
        Array.getElem?_setIfInBounds]
      by_cases hFirst : first = node
      · subst hFirst
        by_cases hBound : first < numbers.size <;> simp [hBound]
      · simp [hFirst, Ne.symm hFirst]

/-- Writes the numbers of levels that are counted from `start` at their
nodes. -/
def numberFrom (start : Nat) (levels : List (List Nat)) (numbers : Array Nat) :
    Array Nat :=
  (levels.zipIdx start).foldl (fun numbers entry =>
    numberLevel numbers entry.1 entry.2) numbers

private theorem numberFrom_cons {start : Nat} {level : List Nat}
    {later : List (List Nat)} {numbers : Array Nat} :
    numberFrom start (level :: later) numbers =
      numberFrom (start + 1) later (numberLevel numbers level start) := by
  unfold numberFrom
  rw [List.zipIdx_cons, List.foldl_cons]

private theorem levelNumbers_eq_numberFrom {size : Nat}
    {levels : List (List Nat)} :
    levelNumbers size levels = numberFrom 0 levels (Array.replicate size 0) :=
      rfl

private theorem size_numberFrom {start : Nat} {levels : List (List Nat)}
    {numbers : Array Nat} :
    (numberFrom start levels numbers).size = numbers.size := by
  induction levels generalizing start numbers with
  | nil => rfl
  | cons level later ih => rw [numberFrom_cons, ih, size_numberLevel]

private theorem getElem?_numberFrom_of_notMem {start : Nat}
    {levels : List (List Nat)} {numbers : Array Nat} {node : Nat}
    (h : node ∉ levels.flatten) :
    (numberFrom start levels numbers)[node]? = numbers[node]? := by
  induction levels generalizing start numbers with
  | nil => rfl
  | cons level later ih =>
      rw [List.flatten_cons, List.mem_append, not_or] at h
      rw [numberFrom_cons, ih h.2, getElem?_numberLevel,
        if_neg (fun hHere => h.1 hHere.1)]

/-- When no node is listed twice, the number of its level is not overwritten. -/
private theorem getElem?_numberFrom {start number node : Nat}
    {levels : List (List Nat)} {level : List Nat} {numbers : Array Nat}
    (hNodup : levels.flatten.Nodup) (hLevel : levels[number]? = some level)
    (hNode : node ∈ level) (hSize : node < numbers.size) :
    (numberFrom start levels numbers)[node]? = some (start + number) := by
  induction levels generalizing start number numbers with
  | nil => cases hLevel
  | cons first later ih =>
      rw [List.flatten_cons] at hNodup
      obtain ⟨-, hLater, hDisjoint⟩ := List.nodup_append.mp hNodup
      rw [numberFrom_cons]
      cases number with
      | zero =>
          injection hLevel with hLevel
          subst hLevel
          rw [getElem?_numberFrom_of_notMem (fun hMem =>
            hDisjoint node hNode node hMem rfl), getElem?_numberLevel,
            if_pos ⟨hNode, hSize⟩, Nat.add_zero]
      | succ number =>
          rw [ih hLater hLevel (by rwa [size_numberLevel]), Nat.add_right_comm,
            Nat.add_assoc]

/-- Levels that list no node twice number each node by its level. -/
private theorem getElem?_levelNumbers {size : Nat} {levels : List (List Nat)}
    (hNodup : levels.flatten.Nodup)
    (hBound : ∀ node ∈ levels.flatten, node < size) {number node : Nat}
    {level : List Nat} (hLevel : levels[number]? = some level)
    (hNode : node ∈ level) :
    (levelNumbers size levels)[node]? = some number := by
  have hSize : node < (Array.replicate size 0).size := by
    rw [Array.size_replicate]
    exact hBound node (List.mem_flatten.mpr ⟨level,
      List.mem_of_getElem? hLevel, hNode⟩)
  rw [levelNumbers_eq_numberFrom, getElem?_numberFrom hNodup hLevel hNode hSize,
    Nat.zero_add]

private theorem size_levelNumbers {size : Nat} {levels : List (List Nat)} :
    (levelNumbers size levels).size = size := by
  rw [levelNumbers_eq_numberFrom, size_numberFrom, Array.size_replicate]

/-! ## Schedules -/

/-- The number of the level of a node: zero if it waits for none, and one more
than the greatest of their numbers if it waits for others. -/
def IsLevelAfter (levelOf : Array Nat) (waits : Nat → Prop) (number : Nat) :
    Prop :=
  (∀ other, ¬ waits other) ∧ number = 0 ∨
    ∃ last top, waits last ∧ levelOf[last]? = some top ∧ number = top + 1 ∧
      ∀ other, waits other → ∃ below ≤ top, levelOf[other]? = some below

/-- Nodes `0`, …, `size - 1` are scheduled, each as early as what it waits for
allows. -/
structure LongestPath (schedule : Schedule) (size : Nat)
    (waits : Nat → Nat → Prop) : Prop where
  perm : (schedule.levels.flatMap Level.nodes).Perm (List.range size)
  tasks_ne_nil : ∀ level ∈ schedule.levels, level.tasks ≠ []
  nodes_ne_nil : ∀ level ∈ schedule.levels, ∀ task ∈ level.tasks,
    task.nodes ≠ []
  size_levelOf : schedule.levelOf.size = size
  levelOf : ∀ (number : Nat) (level : Level),
    schedule.levels[number]? = some level →
    ∀ node ∈ level.nodes, schedule.levelOf[node]? = some number
  longest : ∀ node < size, ∃ number, schedule.levelOf[node]? = some number ∧
    IsLevelAfter schedule.levelOf (waits node) number

private theorem LongestPath.congr {schedule : Schedule} {size : Nat}
    {waits waits' : Nat → Nat → Prop} (h : schedule.LongestPath size waits)
    (hSame : ∀ node < size, ∀ other, waits node other ↔ waits' node other) :
    schedule.LongestPath size waits' := by
  refine { h with longest := ?_ }
  intro node hNode
  unfold IsLevelAfter
  simp only [← hSame node hNode]
  exact h.longest node hNode

/-- A node of a graph waits for the parents that are given for it. -/
private theorem isLevelAfter_given {reduce : Bool} {parents : List (List Nat)}
    (hParents : DependencyGraph.OlderParents parents) {levels : List (List Nat)}
    (hLevels : (DependencyGraph.ofParents reduce parents).levels = .ok levels)
    {levelOf : Array Nat}
    (hNumber : ∀ (number : Nat) (level : List Nat), levels[number]? =
      some level → ∀ node ∈ level, levelOf[node]? = some number)
    {number node : Nat} {level given : List Nat}
    (hLevel : levels[number]? = some level) (hNode : node ∈ level)
    (hGiven : parents[node]? = some given) :
    IsLevelAfter levelOf (· ∈ given) number := by
  obtain ⟨hEarlier, hLast⟩ :=
    DependencyGraph.level_of_given hParents hLevels hLevel hNode hGiven
  cases number with
  | zero =>
      refine Or.inl ⟨fun other hOther => ?_, rfl⟩
      obtain ⟨before, -, hBefore, -⟩ := hEarlier other hOther
      exact absurd hBefore (Nat.not_lt_zero before)
  | succ top =>
      obtain ⟨last, hWaited, earlier, hGet, hMem⟩ := hLast top rfl
      refine Or.inr ⟨last, top, hWaited,
        hNumber top earlier hGet last hMem, rfl, ?_⟩
      intro other hOther
      obtain ⟨below, earlier', hBelow, hGet', hMem'⟩ := hEarlier other hOther
      exact ⟨below, Nat.lt_succ_iff.mp hBelow,
        hNumber below earlier' hGet' other hMem'⟩

private theorem ofCosts_longestPath {settings : SchedulerSettings}
    {costs : List NodeCost} {schedule : Schedule}
    (hCosts : DependencyGraph.OlderParents (costs.map NodeCost.dependencies))
    (h : ofCosts settings costs = .ok schedule) :
    schedule.LongestPath costs.length fun node other =>
      ∃ cost, costs[node]? = some cost ∧ other ∈ cost.dependencies := by
  have hOrdered := ofCosts_ordered hCosts h
  obtain ⟨levels, weightOf, custom, hLevels, hTasks, hNumbers⟩ :=
    ofCosts_eq_ok h
  have hGraph : (DependencyGraph.ofParents settings.reduceTransitiveEdges
      (costs.map NodeCost.dependencies)).Mirrored :=
    (DependencyGraph.ofParents_wellFormed hCosts).toMirrored
  obtain ⟨hLevelled, hPerm⟩ := DependencyGraph.levels_levelled hGraph hLevels
  rw [DependencyGraph.size_ofParents, List.length_map] at hPerm
  have hNumber : ∀ (number : Nat) (level : List Nat),
      levels[number]? = some level →
      ∀ node ∈ level, schedule.levelOf[node]? = some number := by
    intro number level hLevel node hNode
    rw [hNumbers]
    exact getElem?_levelNumbers hLevelled.nodup
      (fun node hMem => List.mem_range.mp (hPerm.mem_iff.mp hMem)) hLevel hNode
  refine
    { perm := hOrdered.perm
      tasks_ne_nil := ?_
      nodes_ne_nil := ?_
      size_levelOf := by rw [hNumbers, size_levelNumbers]
      levelOf := ?_
      longest := ?_ }
  · intro level hLevel
    rw [hTasks] at hLevel
    obtain ⟨nodes, hNodes, rfl⟩ := List.mem_map.mp hLevel
    obtain ⟨number, hGet⟩ := List.mem_iff_getElem?.mp hNodes
    exact Task.pack_ne_nil (DependencyGraph.levels_follow hGraph hLevels hGet).1
  · intro level hLevel task hTask
    rw [hTasks] at hLevel
    obtain ⟨nodes, -, rfl⟩ := List.mem_map.mp hLevel
    exact Task.nodes_ne_nil_of_mem_pack hTask
  · intro number level hLevel node hNode
    rw [hTasks, List.getElem?_map, Option.map_eq_some_iff] at hLevel
    obtain ⟨nodes, hGet, rfl⟩ := hLevel
    have hMem : node ∈
        (Task.pack settings.maxTaskWeight weightOf custom nodes).flatMap
        Task.nodes := hNode
    rw [Task.nodes_pack] at hMem
    exact hNumber number nodes hGet node hMem
  · intro node hNode
    obtain ⟨level, hLevel, hMem⟩ :=
      List.mem_flatten.mp (hPerm.mem_iff.mpr (List.mem_range.mpr hNode))
    obtain ⟨number, hGet⟩ := List.mem_iff_getElem?.mp hLevel
    have hCost : costs[node]? = some costs[node] :=
      List.getElem?_eq_getElem hNode
    have hGiven : (costs.map NodeCost.dependencies)[node]? =
        some costs[node].dependencies := by
      rw [List.getElem?_map, hCost, Option.map_some]
    refine ⟨number, hNumber number level hGet node hMem, ?_⟩
    simp only [hCost, Option.some.injEq, exists_eq_left']
    exact isLevelAfter_given hCosts hLevels hNumber hGet hMem hGiven

/-- Whatever the settings, the schedule of a valid system gives every constraint
to one task of one level, and the level of a constraint is one more than the
last of those for which it waits. -/
theorem ofSystem_longestPath {p : Nat} {settings : SchedulerSettings}
    {flat : FlatSystem p} {system : ValidSystem p} {schedule : Schedule}
    (hValid : flat.validate = .ok system)
    (hSchedule : ofSystem settings system = .ok schedule) :
    ∃ resolution, system.resolution = .ok resolution ∧
      schedule.LongestPath system.constraints.size fun node other =>
        ∃ c, system.constraints[node]? = some c ∧
          system.WaitsFor resolution.resolver node c other := by
  obtain ⟨-, hSystem⟩ := FlatSystem.validate_wellFormed hValid
  obtain ⟨resolution, hResolution, hCosts, hOfCosts⟩ :=
    ofSystem_eq_ok hSystem hSchedule
  have hLength :=
    (ValidSystem.resolution_sound hSystem hResolution).length_costs
  refine ⟨resolution, hResolution, ?_⟩
  rw [← hLength]
  refine (ofCosts_longestPath hCosts hOfCosts).congr ?_
  intro node hNode other
  have hCost : resolution.costs[node]? = some resolution.costs[node] :=
    List.getElem?_eq_getElem hNode
  have hBound : node < system.constraints.size := hLength ▸ hNode
  have hGet := Array.getElem?_eq_getElem hBound
  have hCharged := ValidSystem.resolution_charged hSystem hResolution hGet hCost
  simp only [hCost, hGet, Option.some.injEq, exists_eq_left',
    hCharged.dependencies]

end Schedule

/-- Powers of a secret, modulo 17. The wires are one, the secret `x`, and the
internal `y`, `z`, `u` and `v`; the constraints are `x · x = y`, `y · x = z`,
`z · y = u` and `x · 1 = v`. The third waits for the first two, of which the
second waits for the first. -/
def powerSystem : FlatSystem 17 where
  layout := ⟨1, 1, 4⟩
  constraints := #[
    ⟨[⟨0, 1⟩], [⟨0, 1⟩], [⟨0, 2⟩]⟩,
    ⟨[⟨0, 2⟩], [⟨0, 1⟩], [⟨0, 3⟩]⟩,
    ⟨[⟨0, 3⟩], [⟨0, 2⟩], [⟨0, 4⟩]⟩,
    ⟨[⟨0, 1⟩], [⟨0, 0⟩], [⟨0, 5⟩]⟩]
  coefficients := #[1]
  hints := #[]

/-- With reduction and the tightest bound, the powers are found one level after
the other. -/
theorem ofSystem_longestPath_powers :
    ∃ (system : ValidSystem 17) (schedule : Schedule),
    powerSystem.validate = .ok system ∧
      Schedule.ofSystem ⟨0, true⟩ system = .ok schedule ∧
      schedule.levelOf = #[0, 1, 2, 0] ∧
      ∃ resolution, system.resolution = .ok resolution ∧
        schedule.LongestPath system.constraints.size fun node other =>
          ∃ c, system.constraints[node]? = some c ∧
            system.WaitsFor resolution.resolver node c other := by
  have hRun : (powerSystem.validate.toOption.any fun system =>
      (Schedule.ofSystem ⟨0, true⟩ system).toOption.any fun schedule =>
        decide (schedule.levelOf = #[0, 1, 2, 0])) = true := by
    decide +kernel
  simp only [Option.any_eq_true, toOption_eq_some, decide_eq_true_eq] at hRun
  obtain ⟨system, hValid, schedule, hSchedule, hNumbers⟩ := hRun
  exact ⟨system, schedule, hValid, hSchedule, hNumbers,
    Schedule.ofSystem_longestPath hValid hSchedule⟩

end RankOne
