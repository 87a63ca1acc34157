import Mathlib.Data.List.Perm.Subperm
import Mathlib.Data.List.Range
import RankOne.Constraint.CompiledSystem
import RankOne.Proofs.Schedule.Reduction
import RankOne.Proofs.Schedule.Resolution

/-!
# What a schedule guarantees

The levels of a graph list every node once, and all ancestors of a node come in
earlier levels. Cutting a level into tasks keeps its nodes in order, so that a
schedule has every constraint once, after all constraints it depends on.

## Main results

* `DependencyGraph.levels_levelled` — the levels of a graph;
* `Schedule.Ordered` — what a schedule guarantees;
* `Schedule.ofCosts_ordered` — every schedule does, whatever the settings;
* `CompiledSystem.compile_eq_ok` — what it takes for a system to compile;
* `CompiledSystem.compile_planned` — a compiled system is valid, resolved and
  scheduled.
-/

namespace RankOne

namespace DependencyGraph

variable {graph : DependencyGraph}

/-! ## Rounds -/

theorem contains_foldl_insert (nodes : List Nat) (placed : Std.TreeSet Nat)
    (node : Nat) :
    (nodes.foldl (·.insert ·) placed).contains node = true ↔
      placed.contains node = true ∨ node ∈ nodes := by
  induction nodes generalizing placed with
  | nil => simp
  | cons first rest ih =>
      rw [List.foldl_cons, ih, Std.TreeSet.contains_insert, List.mem_cons]
      simp only [Bool.or_eq_true, Nat.compare_eq_eq, beq_iff_eq]
      constructor
      · rintro ((hSame | hOld) | hRest)
        · exact Or.inr (Or.inl hSame.symm)
        · exact Or.inl hOld
        · exact Or.inr (Or.inr hRest)
      · rintro (hOld | hSame | hRest)
        · exact Or.inl (Or.inr hOld)
        · exact Or.inl (Or.inl hSame.symm)
        · exact Or.inr hRest

/-- A round places new nodes of the graph, each once and after its parents. -/
structure Round.Fair (graph : DependencyGraph) (placed : Std.TreeSet Nat)
    (round : Round) : Prop where
  nodup : round.members.toList.Nodup
  seen : ∀ node ∈ round.members.toList, round.seen.contains node = true
  fresh : ∀ node ∈ round.members.toList, placed.contains node ≠ true
  bounded : ∀ node ∈ round.members.toList, node < graph.size
  ready : ∀ node ∈ round.members.toList, ∀ parent ∈ graph.parentsOf node,
    placed.contains parent = true
  waiting : ∀ node ∈ round.next.toList, ∃ parent ∈ graph.parentsOf node,
    placed.contains parent ≠ true

/-- The next frontier lists nodes of the graph. -/
theorem Round.Fair.next {placed : Std.TreeSet Nat} {round : Round}
    (h : round.Fair graph placed) :
    ∀ node ∈ round.next.toList, node < graph.size := by
  intro node hNode
  obtain ⟨parent, hParent, -⟩ := h.waiting node hNode
  exact lt_size_of_mem_parentsOf hParent

theorem Round.Fair.start {placed : Std.TreeSet Nat} :
    Round.Fair graph placed {} where
  nodup := List.nodup_nil
  seen := by simp
  fresh := by simp
  bounded := by simp
  ready := by simp
  waiting := by simp

private theorem Round.Fair.visit {placed : Std.TreeSet Nat} {round : Round}
    {node : Nat} (hGraph : graph.Mirrored) (h : round.Fair graph placed)
    (hNode : node < graph.size) :
    (graph.visit placed round node).Fair graph placed := by
  unfold DependencyGraph.visit
  split
  · exact h
  next hNew =>
  rw [Bool.or_eq_true, not_or] at hNew
  obtain ⟨hUnseen, hUnplaced⟩ := hNew
  have hSeen : ∀ x ∈ round.members.toList,
      (round.seen.insert node).contains x = true := by
    intro x hx
    rw [Std.TreeSet.contains_insert, h.seen x hx, Bool.or_true]
  dsimp only
  split
  · next hReady =>
      have hNotMember : node ∉ round.members.toList :=
        fun hMem => hUnseen (h.seen node hMem)
      have hMember : ∀ {x : Nat}, x ∈ (round.members.push node).toList →
          x ∈ round.members.toList ∨ x = node := by
        intro x hx
        rwa [Array.toList_push, List.mem_append, List.mem_singleton] at hx
      exact
        { nodup := by
            rw [Array.toList_push]
            refine List.nodup_append.mpr ⟨h.nodup, by simp, ?_⟩
            intro x hx y hy hSame
            rw [List.mem_singleton] at hy
            exact hNotMember (hy ▸ hSame ▸ hx)
          seen := by
            intro x hx
            rcases hMember hx with hOld | rfl
            · exact hSeen x hOld
            · rw [Std.TreeSet.contains_insert]
              simp
          fresh := by
            intro x hx
            rcases hMember hx with hOld | rfl
            · exact h.fresh x hOld
            · exact hUnplaced
          bounded := by
            intro x hx
            rcases hMember hx with hOld | rfl
            · exact h.bounded x hOld
            · exact hNode
          ready := by
            intro x hx
            rcases hMember hx with hOld | rfl
            · exact h.ready x hOld
            · exact List.all_eq_true.mp hReady
          waiting := by
            intro x hx
            rw [Array.toList_append, List.mem_append] at hx
            rcases hx with hOld | hChild
            · exact h.waiting x hOld
            · exact ⟨node, (hGraph.mem_childrenOf node x).mp
                (Array.mem_toList_iff.mp hChild), hUnplaced⟩ }
  · next hWaits =>
      exact
        { h with
          seen := hSeen
          waiting := by
            intro x hx
            rw [Array.toList_push, List.mem_append, List.mem_singleton] at hx
            rcases hx with hOld | rfl
            · exact h.waiting x hOld
            · rw [List.all_eq_true] at hWaits
              push Not at hWaits
              exact hWaits }

theorem Round.Fair.visitAll {placed : Std.TreeSet Nat} {nodes : List Nat}
    {round : Round} (hGraph : graph.Mirrored) (h : round.Fair graph placed)
    (hNodes : ∀ node ∈ nodes, node < graph.size) :
    (nodes.foldl (graph.visit placed) round).Fair graph placed := by
  induction nodes generalizing round with
  | nil => exact h
  | cons first rest ih =>
      rw [List.foldl_cons]
      exact ih (h.visit hGraph (hNodes first List.mem_cons_self))
        (fun node hMem => hNodes node (List.mem_cons_of_mem _ hMem))

/-! ## Levels -/

/-- Levels that list new nodes, each once and after its parents. -/
structure Levelled (graph : DependencyGraph) (placed : Nat → Prop)
    (levels : List (List Nat)) : Prop where
  nodup : levels.flatten.Nodup
  fresh : ∀ node ∈ levels.flatten, ¬ placed node ∧ node < graph.size
  ready : ∀ before level after, levels = before ++ level :: after →
    ∀ node ∈ level,
    ∀ parent ∈ graph.parentsOf node, placed parent ∨ parent ∈ before.flatten

private theorem Levelled.nil {placed : Nat → Prop} :
    graph.Levelled placed [] where
  nodup := List.nodup_nil
  fresh := by simp
  ready := by simp

private theorem Levelled.cons {placed : Nat → Prop} {level : List Nat}
    {later : List (List Nat)} (hNodup : level.Nodup)
    (hFresh : ∀ node ∈ level, ¬ placed node ∧ node < graph.size)
    (hReady : ∀ node ∈ level, ∀ parent ∈ graph.parentsOf node, placed parent)
    (h : graph.Levelled (fun node => placed node ∨ node ∈ level) later) :
    graph.Levelled placed (level :: later) where
  nodup := by
    rw [List.flatten_cons]
    refine List.nodup_append.mpr ⟨hNodup, h.nodup, ?_⟩
    intro node hNode other hOther hSame
    exact (h.fresh other hOther).1 (Or.inr (hSame ▸ hNode))
  fresh := by
    intro node hNode
    rw [List.flatten_cons, List.mem_append] at hNode
    rcases hNode with hHere | hLater
    · exact hFresh node hHere
    · obtain ⟨hNew, hBound⟩ := h.fresh node hLater
      exact ⟨fun hPlaced => hNew (Or.inl hPlaced), hBound⟩
  ready := by
    intro before current after hSplit node hNode parent hParent
    cases before with
    | nil =>
        injection hSplit with hHead hTail
        exact Or.inl (hReady node (hHead ▸ hNode) parent hParent)
    | cons first before =>
        injection hSplit with hHead hTail
        subst hHead
        rw [List.flatten_cons, List.mem_append]
        rcases h.ready before current after hTail node hNode parent hParent with
          (hPlaced | hHere) | hBefore
        · exact Or.inl hPlaced
        · exact Or.inr (Or.inl hHere)
        · exact Or.inr (Or.inr hBefore)

private theorem Levelled.congr {placed placed' : Nat → Prop}
    {levels : List (List Nat)} (h : graph.Levelled placed levels)
    (hSame : ∀ node, placed node ↔ placed' node) :
    graph.Levelled placed' levels := by
  have hEq : placed = placed' := funext fun node => propext (hSame node)
  exact hEq ▸ h

private theorem placeRounds_levelled (hGraph : graph.Mirrored) {rounds : Nat}
    {placed : Std.TreeSet Nat} {frontier : Array Nat} {later : List (List Nat)}
    (hFrontier : ∀ node ∈ frontier.toList, node < graph.size)
    (h : graph.placeRounds rounds placed frontier = .ok later) :
    graph.Levelled (fun node => placed.contains node = true) later := by
  induction rounds generalizing placed frontier later with
  | zero =>
      unfold placeRounds at h
      split at h
      · injection h with h
        exact h ▸ Levelled.nil
      · cases h
  | succ rounds ih =>
      unfold placeRounds at h
      split at h
      · injection h with h
        exact h ▸ Levelled.nil
      dsimp only at h
      split at h
      · cases h
      split at h
      · cases h
      next following hFollowing =>
      injection h with h
      subst h
      rw [← Array.foldl_toList] at hFollowing ⊢
      have hRound :
          (frontier.toList.foldl (graph.visit placed) {}).Fair graph placed :=
        Round.Fair.start.visitAll hGraph hFrontier
      rw [← Array.foldl_toList] at hFollowing
      refine Levelled.cons hRound.nodup ?_ hRound.ready ?_
      · intro node hNode
        exact ⟨hRound.fresh node hNode, hRound.bounded node hNode⟩
      · exact (ih hRound.next hFollowing).congr
          (fun node => contains_foldl_insert _ placed node)

theorem mem_entryNodes {node : Nat} :
    node ∈ graph.entryNodes ↔ node < graph.size ∧
      graph.parentsOf node = [] := by
  unfold entryNodes
  rw [List.mem_filter, List.mem_range, List.isEmpty_iff]

theorem contains_entryNodes {node : Nat} :
    (graph.entryNodes.foldl (·.insert ·) (∅ : Std.TreeSet Nat)).contains node =
      true ↔
      node ∈ graph.entryNodes := by
  rw [contains_foldl_insert]
  simp

/-- The first frontier lists the children of the nodes without parents. -/
theorem mem_firstFrontier (hGraph : graph.Mirrored) {node : Nat} :
    node ∈ (graph.entryNodes.foldl
      (fun frontier node => frontier ++ graph.childrenOf node) #[]).toList ↔
        ∃ parent ∈ graph.entryNodes, parent ∈ graph.parentsOf node := by
  have hFold : ∀ (nodes : List Nat) (frontier : Array Nat),
      node ∈
        (nodes.foldl (fun frontier node => frontier ++ graph.childrenOf node)
        frontier).toList ↔
          node ∈ frontier.toList ∨
            ∃ parent ∈ nodes, parent ∈ graph.parentsOf node := by
    intro nodes
    induction nodes with
    | nil => simp
    | cons first rest ih =>
        intro frontier
        rw [List.foldl_cons, ih, Array.toList_append, List.mem_append,
          ← Array.mem_def, ← Array.mem_def, hGraph.mem_childrenOf]
        simp only [List.mem_cons, exists_eq_or_imp, or_assoc]
  rw [hFold]
  simp

/-- The levels of a graph are the nodes without parents, if there are any, and
what the rounds place; together they are as many nodes as the graph has. -/
theorem levels_eq_ok {levels : List (List Nat)}
    (h : graph.levels = .ok levels) :
    ∃ later,
      graph.placeRounds graph.size (graph.entryNodes.foldl (·.insert ·) ∅)
        (graph.entryNodes.foldl (fun frontier node =>
          frontier ++ graph.childrenOf node) #[]) =
          .ok later ∧
      levels = (if graph.entryNodes.isEmpty then later
        else graph.entryNodes :: later) ∧
      levels.flatten.length = graph.size := by
  unfold DependencyGraph.levels at h
  dsimp only at h
  split at h
  · cases h
  next later hLater =>
  refine ⟨later, hLater, ?_⟩
  generalize (if graph.entryNodes.isEmpty then later
    else graph.entryNodes :: later) = chosen at h ⊢
  split at h
  · next hCount =>
      injection h with h
      exact h ▸ ⟨rfl, hCount⟩
  · cases h

/-- The nodes without parents and what the rounds place after them are
levels. -/
theorem entryNodes_levelled (hGraph : graph.Mirrored) {rounds : Nat}
    {later : List (List Nat)}
    (h : graph.placeRounds rounds (graph.entryNodes.foldl (·.insert ·) ∅)
      (graph.entryNodes.foldl (fun frontier node =>
      frontier ++ graph.childrenOf node) #[]) = .ok later) :
    graph.Levelled (fun _ => False)
      (if graph.entryNodes.isEmpty then later
        else graph.entryNodes :: later) := by
  have hRest :
      graph.Levelled (fun node => False ∨ node ∈ graph.entryNodes) later := by
    refine (placeRounds_levelled hGraph ?_ h).congr ?_
    · intro node hNode
      obtain ⟨parent, -, hParent⟩ := (mem_firstFrontier hGraph).mp hNode
      exact lt_size_of_mem_parentsOf hParent
    · intro node
      rw [contains_foldl_insert]
      simp
  split
  · next hEmpty =>
      apply hRest.congr
      intro node
      rw [List.isEmpty_iff.mp hEmpty]
      simp
  · refine Levelled.cons (List.nodup_range.filter _) ?_ ?_ hRest
    · intro node hNode
      exact ⟨fun hFalse => hFalse, (mem_entryNodes.mp hNode).1⟩
    · intro node hNode parent hParent
      rw [(mem_entryNodes.mp hNode).2] at hParent
      simp at hParent

/-- The levels of a graph list all its nodes, each once and after its
parents. -/
theorem levels_levelled (hGraph : graph.Mirrored) {levels : List (List Nat)}
    (h : graph.levels = .ok levels) :
    graph.Levelled (fun _ => False) levels ∧
      levels.flatten.Perm (List.range graph.size) := by
  obtain ⟨later, hLater, hChosen, hCount⟩ := levels_eq_ok h
  have hLevels : graph.Levelled (fun _ => False) levels :=
    hChosen ▸ entryNodes_levelled hGraph hLater
  refine ⟨hLevels, ?_⟩
  have hSubset : levels.flatten ⊆ List.range graph.size := by
    intro node hNode
    rw [List.mem_range]
    exact (hLevels.fresh node hNode).2
  apply (List.subperm_of_subset hLevels.nodup hSubset).perm_of_length_le
  rw [List.length_range, hCount]

/-- All ancestors of a node come in earlier levels. -/
theorem Levelled.ancestor {levels : List (List Nat)}
    (h : graph.Levelled (fun _ => False) levels)
    {before after : List (List Nat)} {level : List Nat}
    (hSplit : levels = before ++ level :: after) {node ancestor : Nat}
    (hNode : node ∈ level) (hPath : graph.IsAncestor ancestor node) :
    ancestor ∈ before.flatten := by
  induction hPath using Relation.TransGen.head_induction_on with
  | single hParent =>
      exact (h.ready before level after hSplit node hNode
        _ hParent).resolve_left id
  | head hParent _ ih =>
      obtain ⟨level', hLevel', hMem⟩ := List.mem_flatten.mp ih
      obtain ⟨before', after', hSplit'⟩ := List.append_of_mem hLevel'
      have hWhole :
          levels = before' ++ level' :: (after' ++ level :: after) := by
        rw [hSplit, hSplit']
        simp
      have hEarlier :=
        (h.ready before' level' _ hWhole _ hMem _ hParent).resolve_left id
      rw [hSplit', List.flatten_append]
      exact List.mem_append_left _ hEarlier

end DependencyGraph

/-! ## Tasks -/

namespace Task

variable {maxWeight : Nat} {weightOf : Nat → Nat} {custom : Nat → Bool}

private theorem nodes_packAfter {weight : Nat} {lastCustom : Bool}
    {nodes : List Nat} :
    (packAfter maxWeight weightOf custom weight lastCustom nodes).1.nodes ++
        (packAfter maxWeight weightOf custom weight lastCustom nodes).2.flatMap
          Task.nodes =
      nodes := by
  induction nodes generalizing weight lastCustom with
  | nil => rfl
  | cons node rest ih =>
      unfold packAfter
      split
      · dsimp only [Task.cons]
        rw [List.nil_append, List.flatMap_cons, List.cons_append, ih]
      · dsimp only [Task.cons]
        rw [List.cons_append, ih]

/-- Cutting keeps all nodes in order. -/
theorem nodes_pack {nodes : List Nat} :
    (pack maxWeight weightOf custom nodes).flatMap Task.nodes = nodes := by
  cases nodes with
  | nil => rfl
  | cons node rest =>
      unfold pack
      dsimp only [Task.cons]
      rw [List.flatMap_cons, List.cons_append, nodes_packAfter]

end Task

/-! ## Schedules -/

namespace Schedule

/-- What a schedule of constraints with the given costs guarantees. -/
structure Ordered (schedule : Schedule) (costs : List NodeCost) : Prop where
  perm : (schedule.levels.flatMap Level.nodes).Perm (List.range costs.length)
  earlier : ∀ before level after, schedule.levels = before ++ level :: after →
    ∀ node ∈ level.nodes, ∀ cost, costs[node]? = some cost →
      ∀ dependency ∈ cost.dependencies, dependency ∈ before.flatMap Level.nodes

/-- A schedule cuts the levels of the graph of its costs into tasks. -/
theorem ofCosts_eq_ok {settings : SchedulerSettings} {costs : List NodeCost}
    {schedule : Schedule} (h : ofCosts settings costs = .ok schedule) :
    ∃ (levels : List (List Nat)) (weightOf : Nat → Nat) (custom : Nat → Bool),
      (DependencyGraph.ofParents settings.reduceTransitiveEdges
        (costs.map NodeCost.dependencies)).levels = .ok levels ∧
      schedule.levels = levels.map (fun nodes =>
        ⟨Task.pack settings.maxTaskWeight weightOf custom nodes⟩) ∧
      schedule.levelOf = levelNumbers costs.length levels := by
  unfold ofCosts at h
  dsimp only at h
  rw [DependencyGraph.size_ofParents, List.length_map] at h
  split at h
  · cases h
  next levels hLevels =>
  injection h with h
  exact ⟨levels, _, _, hLevels, by rw [← h], by rw [← h]⟩

theorem ofCosts_ordered {settings : SchedulerSettings} {costs : List NodeCost}
    {schedule : Schedule}
    (hCosts : DependencyGraph.OlderParents (costs.map NodeCost.dependencies))
    (h : ofCosts settings costs = .ok schedule) : schedule.Ordered costs := by
  obtain ⟨levels, weightOf, custom, hLevels, hTasks, -⟩ := ofCosts_eq_ok h
  obtain ⟨hLevelled, hPerm⟩ :=
    DependencyGraph.levels_levelled
      (DependencyGraph.ofParents_wellFormed hCosts).toMirrored hLevels
  have hNodes : ∀ levels : List (List Nat),
      (levels.map fun nodes =>
        (⟨Task.pack settings.maxTaskWeight weightOf custom nodes⟩ :
          Level)).flatMap Level.nodes =
          levels.flatten := by
    intro levels
    rw [List.flatMap_map, List.flatten_eq_flatMap]
    congr
    funext nodes
    exact Task.nodes_pack
  refine ⟨?_, ?_⟩
  · rw [hTasks, hNodes]
    rwa [DependencyGraph.size_ofParents, List.length_map] at hPerm
  · intro before level after hSplit node hNode cost hCost dependency hDependency
    rw [hTasks] at hSplit
    obtain ⟨before', rest, hSplit', hBefore, hRest⟩ :=
      List.map_eq_append_iff.mp hSplit
    obtain ⟨level', after', hRest', hLevel, -⟩ := List.map_eq_cons_iff.mp hRest
    subst hBefore
    subst hLevel
    subst hRest'
    have hMem : node ∈ level' := by
      have hPacked : node ∈ (Task.pack _ _ _ level').flatMap Task.nodes := hNode
      rwa [Task.nodes_pack] at hPacked
    rw [hNodes]
    apply hLevelled.ancestor hSplit' hMem
    refine DependencyGraph.ancestor_of_given hCosts ?_ hDependency
    rw [List.getElem?_map, hCost]
    rfl

/-- In the costs of a resolution pass constraints depend on earlier ones. -/
theorem olderParents_costs {p : Nat} {system : ValidSystem p}
    (hSystem : system.WellFormed) {resolution : Resolution}
    (hResolution : system.resolution = .ok resolution) :
    DependencyGraph.OlderParents
      (resolution.costs.map NodeCost.dependencies) := by
  have hSound := ValidSystem.resolution_sound hSystem hResolution
  intro node given hGet
  rw [List.getElem?_map, Option.map_eq_some_iff] at hGet
  obtain ⟨cost, hCost, rfl⟩ := hGet
  obtain ⟨c, hConstraint⟩ := hSound.exists_constraint hCost
  have hNodeSound := hSound.node node c cost hConstraint hCost
  exact ⟨hNodeSound.decreasing, hNodeSound.earlier⟩

/-- The schedule of a system is that of the costs of its resolution pass, in
which constraints depend on earlier ones. -/
theorem ofSystem_eq_ok {p : Nat} {settings : SchedulerSettings}
    {system : ValidSystem p} (hSystem : system.WellFormed) {schedule : Schedule}
    (h : ofSystem settings system = .ok schedule) :
    ∃ resolution, system.resolution = .ok resolution ∧
      DependencyGraph.OlderParents
        (resolution.costs.map NodeCost.dependencies) ∧
      ofCosts settings resolution.costs = .ok schedule := by
  unfold ofSystem at h
  split at h
  · cases h
  next resolution hResolution =>
  exact ⟨resolution, hResolution, olderParents_costs hSystem hResolution, h⟩

/-- The schedule of a system orders the constraints by what they wait for. -/
private theorem ofSystem_ordered {p : Nat} {settings : SchedulerSettings}
    {system : ValidSystem p} (hSystem : system.WellFormed) {schedule : Schedule}
    (h : ofSystem settings system = .ok schedule) :
    ∃ resolution, system.resolution = .ok resolution ∧ resolution.Sound system ∧
      schedule.Ordered resolution.costs := by
  obtain ⟨resolution, hResolution, hCosts, hOfCosts⟩ := ofSystem_eq_ok hSystem h
  exact ⟨resolution, hResolution,
    ValidSystem.resolution_sound hSystem hResolution,
    ofCosts_ordered hCosts hOfCosts⟩

end Schedule

/-! ## Compiled systems -/

namespace CompiledSystem

/-- A compiled system is valid, and its schedule runs its constraints in the
order in which they resolve each other's wires. -/
structure Planned {p : Nat} (system : CompiledSystem p)
    (resolution : Resolution) : Prop where
  wellFormed : system.WellFormed
  resolved : resolution.Sound system.toValidSystem
  ordered : system.schedule.Ordered resolution.costs

/-- A system is compiled when it is valid and can be scheduled. -/
theorem compile_eq_ok {p : Nat} {settings : SchedulerSettings}
    {flat : FlatSystem p} {arithmetic : Arithmetic}
    {system : CompiledSystem p} :
    compile settings flat arithmetic = .ok system ↔
      ∃ valid, flat.validate arithmetic = .ok valid ∧
        ∃ schedule, Schedule.ofSystem settings valid = .ok schedule ∧
          { valid with schedule, digest := flat.digest } = system := by
  unfold compile
  simp only [bind_eq_ok, Outcome.ofFaulty_eq_ok, pure_eq_ok]

/-- The counts of a compiled system add up to a word. -/
theorem fits_of_compile {p : Nat} {settings : SchedulerSettings}
    {flat : FlatSystem p} {system : CompiledSystem p}
    (h : compile settings flat = .ok system) : system.layout.Fits := by
  obtain ⟨valid, hValid, _, -, rfl⟩ := compile_eq_ok.mp h
  obtain ⟨rfl, -⟩ := FlatSystem.validate_wellFormed hValid
  exact FlatSystem.fits_of_validate hValid

/-- A system that cannot be scheduled is not compiled, for the same cause. -/
theorem compile_eq_fault {p : Nat} {settings : SchedulerSettings}
    {flat : FlatSystem p} {valid : ValidSystem p} {cause : Fault}
    (hValid : flat.validate = .ok valid)
    (hCause : Schedule.ofSystem settings valid = .error cause) :
    compile settings flat = .error (.fault cause) :=
  bind_eq_error.mpr (Or.inr ⟨valid, hValid,
    bind_eq_error.mpr
      (Or.inl (Outcome.ofFaulty_eq_error.mpr ⟨cause, rfl, hCause⟩))⟩)

/-- The plan of a compiled system is made from the result of its resolution
pass. -/
theorem compile_resolution {p : Nat} {settings : SchedulerSettings}
    {flat : FlatSystem p} {system : CompiledSystem p}
    (h : compile settings flat = .ok system) :
    ∃ resolution, system.resolution = .ok resolution ∧
      system.Planned resolution := by
  obtain ⟨valid, hValid, schedule, hSchedule, rfl⟩ := compile_eq_ok.mp h
  obtain ⟨-, hSystem⟩ := FlatSystem.validate_wellFormed hValid
  obtain ⟨resolution, hResolution, hSound, hOrdered⟩ :=
    Schedule.ofSystem_ordered hSystem hSchedule
  exact ⟨resolution, hResolution, hSystem, hSound, hOrdered⟩

theorem compile_planned {p : Nat} {settings : SchedulerSettings}
    {flat : FlatSystem p} {system : CompiledSystem p}
    (h : compile settings flat = .ok system) :
    ∃ resolution, system.Planned resolution := by
  obtain ⟨resolution, -, hPlan⟩ := compile_resolution h
  exact ⟨resolution, hPlan⟩

end CompiledSystem

end RankOne
