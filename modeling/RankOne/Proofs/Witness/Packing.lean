import RankOne.Proofs.Schedule.LevelOrder
import RankOne.Proofs.Witness.Interference
import RankOne.Proofs.Witness.Soundness

/-!
# Results do not depend on the settings of the scheduler

The settings decide how the levels are cut into tasks, but neither which levels
there are nor the order of the constraints inside them. The outcome of a
constraint is the same in whatever task it is run. So a level fails with the
failure of the first of its constraints that fails, wherever it is cut, and if
none fails, the records are the same, in the same order.
-/

namespace RankOne

variable {p : Nat}

/-! ## Levels under different settings -/

namespace Schedule

/-- The settings decide neither about the levels nor about the order inside
them. -/
private theorem ofCosts_settings (settings settings' : SchedulerSettings)
    {costs : List NodeCost}
    (hCosts : DependencyGraph.OlderParents (costs.map NodeCost.dependencies)) :
    ∃ schedule schedule', ofCosts settings costs = .ok schedule ∧
      ofCosts settings' costs = .ok schedule' ∧
      schedule'.levels.map Level.nodes = schedule.levels.map Level.nodes := by
  obtain ⟨levels, hLevels⟩ := DependencyGraph.exists_levels hCosts true
  have hSame : ∀ reduce, (DependencyGraph.ofParents reduce
      (costs.map NodeCost.dependencies)).levels = .ok levels := by
    intro reduce
    cases reduce with
    | true => exact hLevels
    | false => rw [← DependencyGraph.levels_reduce hCosts, hLevels]
  have hNodes : ∀ settings : SchedulerSettings, ∃ schedule,
      ofCosts settings costs = .ok schedule ∧
      schedule.levels.map Level.nodes = levels := by
    intro settings
    unfold ofCosts
    dsimp only
    rw [hSame]
    refine ⟨_, rfl, ?_⟩
    rw [List.map_map]
    exact List.map_id'' (fun nodes => Task.nodes_pack) levels
  obtain ⟨schedule, hSchedule, hList⟩ := hNodes settings
  obtain ⟨schedule', hSchedule', hList'⟩ := hNodes settings'
  exact ⟨schedule, schedule', hSchedule, hSchedule', hList'.trans hList.symm⟩

/-- Under different settings a valid system has schedules with the same levels,
or none for the same reason. -/
theorem ofSystem_settings (settings settings' : SchedulerSettings)
    {system : ValidSystem p} (hSystem : system.WellFormed) :
    (∃ cause, ofSystem settings system = .error cause ∧
      ofSystem settings' system = .error cause) ∨
    ∃ schedule schedule', ofSystem settings system = .ok schedule ∧
      ofSystem settings' system = .ok schedule' ∧
      schedule'.levels.map Level.nodes = schedule.levels.map Level.nodes := by
  unfold ofSystem
  cases hResolution : system.resolution with
  | error cause => exact Or.inl ⟨cause, rfl, rfl⟩
  | ok resolution =>
      exact Or.inr (ofCosts_settings settings settings'
        (olderParents_costs hSystem hResolution))

end Schedule

variable [Modulus p]

namespace Solver

variable {solver solver' : Solver p} {resolution : Resolution}
  {known : Array (Option (Fp p))}

/-! ## Tasks -/

/-- Why a constraint fails with what is known before its level. -/
def nodeFailure (solver : Solver p) (known : Array (Option (Fp p)))
    (node : Nat) : Option (Failure SolveError) :=
  match solver.runConstraint { known } node with
  | .error failure => some failure
  | .ok _ => none

/-- What a task comes to: it fails as its first constraint that fails, and if
none does, it leaves their records. -/
theorem runTask_outcome (hAlike : solver.Alike solver')
    (recent : List (Nat × Fp p)) {nodes : List Nat} (hNodup : nodes.Nodup)
    (hTurns : ∀ node ∈ nodes, ∃ c cost, solver.system.constraints[node]? =
      some c ∧ solver.Turn resolution node c cost { known })
    (hRecent : ∀ node ∈ nodes, ∀ wire : Nat,
      resolution.resolver[wire]? = some node → recent.lookup wire = none) :
    (solver'.runTask ⟨known, recent⟩ nodes).failure =
        nodes.findSome? (solver.nodeFailure known) ∧
      ((solver'.runTask ⟨known, recent⟩ nodes).failure = none →
        (solver'.runTask ⟨known, recent⟩ nodes).steps.map Except.ok =
          nodes.map (solver.runConstraint { known })) := by
  induction nodes generalizing recent with
  | nil => exact ⟨rfl, fun _ => rfl⟩
  | cons node rest ih =>
      obtain ⟨hNode, hRest⟩ := List.nodup_cons.mp hNodup
      obtain ⟨c, cost, hGet, hTurn⟩ := hTurns node List.mem_cons_self
      have hHere := hTurn.withRecent (hRecent node List.mem_cons_self)
      have hSame := hTurn.runConstraint_congr hHere (fun _ _ h => h) hAlike hGet
      have hFailure : solver.nodeFailure known node =
          match solver.runConstraint { known } node with
          | .error failure => some failure
          | .ok _ => none := rfl
      rw [List.findSome?_cons, List.map_cons, hFailure]
      unfold runTask
      rw [hSame]
      cases hRun : solver.runConstraint { known } node with
      | error failure => exact ⟨rfl, fun h => by cases h⟩
      | ok step =>
          obtain ⟨hConstraint, hSound⟩ := hTurn.runConstraint_sound hGet hRun
          -- The wires of this constraint concern none of those that follow.
          obtain ⟨hLater, hSteps⟩ := ih (step.writes ++ recent) hRest
            (fun other hOther => hTurns other (List.mem_cons_of_mem _ hOther))
            (by
              intro other hOther wire hOwner
              rw [List.lookup_append,
                hRecent other (List.mem_cons_of_mem _ hOther) wire hOwner,
                Option.or_none]
              exact hSound.unwritten hOwner fun hSame =>
                hNode (hConstraint ▸ hSame ▸ hOther))
          refine ⟨hLater, fun hNone => ?_⟩
          exact congrArg (Except.ok step :: ·) (hSteps hNone)

/-- What tasks that are run side by side come to. -/
private theorem runTasks_outcome (hAlike : solver.Alike solver')
    (tasks : List Task) (hNodup : (tasks.flatMap Task.nodes).Nodup)
    (hTurns : ∀ node ∈ tasks.flatMap Task.nodes, ∃ c cost,
      solver.system.constraints[node]? = some c ∧
      solver.Turn resolution node c cost { known }) :
    (tasks.map fun task =>
      solver'.runTask { known } task.nodes).findSome? TaskRun.failure =
        (tasks.flatMap Task.nodes).findSome? (solver.nodeFailure known) ∧
      ((tasks.map fun task => solver'.runTask { known } task.nodes).findSome?
          TaskRun.failure = none →
        ((tasks.map fun task => solver'.runTask { known } task.nodes).flatMap
            TaskRun.steps).map Except.ok =
          (tasks.flatMap Task.nodes).map (solver.runConstraint { known })) := by
  induction tasks with
  | nil => exact ⟨rfl, fun _ => rfl⟩
  | cons task rest ih =>
      rw [List.flatMap_cons] at hNodup hTurns ⊢
      obtain ⟨hHere, hRest, -⟩ := List.nodup_append.mp hNodup
      obtain ⟨hFailure, hSteps⟩ := runTask_outcome hAlike [] hHere
        (fun node hNode =>
          hTurns node (List.mem_append_left _ hNode)) (fun _ _ _ _ => rfl)
      obtain ⟨hLater, hLaterSteps⟩ := ih hRest
        (fun node hNode => hTurns node (List.mem_append_right _ hNode))
      rw [List.map_cons, List.findSome?_append, ← hFailure, ← hLater,
        List.findSome?_cons]
      cases hTask : (solver'.runTask { known } task.nodes).failure with
      | some failure => exact ⟨rfl, fun h => by cases h⟩
      | none =>
          refine ⟨rfl, fun hNone => ?_⟩
          rw [List.flatMap_cons, List.map_append, List.map_append, hSteps hTask,
            hLaterSteps hNone]

/-! ## Levels -/

/-- A level may be cut into tasks in any way. -/
private theorem runLevel_congr (hAlike : solver.Alike solver')
    {level level' : Level} (hSame : level'.nodes = level.nodes)
    (hNodup : level.nodes.Nodup)
    (hTurns : ∀ node ∈ level.nodes, ∃ c cost, solver.system.constraints[node]? =
      some c ∧ solver.Turn resolution node c cost { known }) :
    (level'.tasks.map fun task =>
      solver'.runTask { known } task.nodes).findSome?
        TaskRun.failure =
      (level.tasks.map fun task =>
        solver.runTask { known } task.nodes).findSome? TaskRun.failure ∧
    ((level.tasks.map fun task => solver.runTask { known } task.nodes).findSome?
        TaskRun.failure = none →
      (level'.tasks.map fun task =>
        solver'.runTask { known } task.nodes).flatMap TaskRun.steps =
        (level.tasks.map fun task =>
          solver.runTask { known } task.nodes).flatMap TaskRun.steps) := by
  obtain ⟨hFailure, hSteps⟩ :=
    runTasks_outcome ⟨rfl, rfl⟩ level.tasks hNodup hTurns
  obtain ⟨hFailure', hSteps'⟩ := runTasks_outcome hAlike level'.tasks
    (show level'.nodes.Nodup from hSame ▸ hNodup)
    (fun node (hNode : node ∈ level'.nodes) => hTurns node (hSame ▸ hNode))
  have hSameTasks :
      level'.tasks.flatMap Task.nodes = level.tasks.flatMap Task.nodes := hSame
  rw [hSameTasks] at hFailure' hSteps'
  refine ⟨hFailure'.trans hFailure.symm, fun hNone => ?_⟩
  have hRecords := (hSteps' ((hFailure'.trans hFailure.symm).trans hNone)).trans
    (hSteps hNone).symm
  exact List.map_injective_iff.mpr (fun _ _ h => Except.ok.inj h) hRecords

/-- Levels may be cut into tasks in any way: there is the same failure, or the
whole run is the same. -/
theorem runLevels_congr (hPlan : solver.system.Planned resolution)
    (hInputs : solver.system.layout.numInputs ≤ solver.system.layout.numWires)
    (hAlike : solver.Alike solver') {before levels levels' : List Level}
    (hSplit : solver.system.schedule.levels = before ++ levels)
    (hSame : levels'.map Level.nodes = levels.map Level.nodes)
    (hKnows : Knows solver.system.toValidSystem resolution.resolver
      (before.flatMap Level.nodes) known) :
    (solver'.runLevels levels' known).failure =
      (solver.runLevels levels known).failure ∧
      ((solver.runLevels levels known).failure = none →
        solver'.runLevels levels' known = solver.runLevels levels known) := by
  induction levels generalizing before levels' known with
  | nil =>
      obtain rfl := List.map_eq_nil_iff.mp (hSame.trans List.map_nil)
      exact ⟨rfl, fun _ => rfl⟩
  | cons level rest ih =>
      obtain ⟨level', rest', rfl, hLevel, hRest⟩ :=
        List.map_eq_cons_iff.mp hSame
      obtain ⟨hNodup, -, hTurns⟩ := level_turns hPlan hInputs hSplit hKnows
      obtain ⟨hFailure, hSteps⟩ := runLevel_congr hAlike hLevel hNodup hTurns
      unfold runLevels
      dsimp only
      rw [hFailure]
      cases hHere : (level.tasks.map fun task =>
        solver.runTask { known } task.nodes).findSome?
          TaskRun.failure with
      | some failure => exact ⟨rfl, fun h => by cases h⟩
      | none =>
          rw [hSteps hHere]
          generalize hRun : (level.tasks.map fun task =>
            solver.runTask { known } task.nodes).flatMap TaskRun.steps = steps
          obtain ⟨-, hCommitted, -, -⟩ :=
            runLevel_sound hPlan hInputs hSplit hKnows hHere hRun
          have hNext :
              solver.system.schedule.levels = (before ++ [level]) ++ rest := by
            rw [hSplit, List.append_assoc, List.singleton_append]
          obtain ⟨hLater, hLaterRun⟩ := ih hNext hRest hCommitted
          refine ⟨hLater, fun hNone => ?_⟩
          rw [hLaterRun hNone]

/-! ## Solving -/

namespace Alike

variable (h : solver.Alike solver') (publicInputs secretInputs : List (Fp p))
include h

omit [Modulus p] in
private theorem checkInputs : solver'.checkInputs publicInputs secretInputs =
    solver.checkInputs publicInputs secretInputs := by
  unfold Solver.checkInputs
  rw [h.system]

private theorem initialValues :
    solver'.initialValues publicInputs secretInputs =
    solver.initialValues publicInputs secretInputs := by
  unfold Solver.initialValues
  rw [h.system]

private theorem solutionOf (witness : List (Fp p)) (steps : List (Step p)) :
    solver'.solutionOf witness steps = solver.solutionOf witness steps := by
  unfold Solver.solutionOf
  rw [h.system]

end Alike

/-- Solvers for one system with schedules of the same levels run them to the
same end. -/
private theorem trace_congr (hPlan : solver.system.Planned resolution)
    (hAlike : solver.Alike solver')
    (hSame : solver'.system.schedule.levels.map Level.nodes =
      solver.system.schedule.levels.map Level.nodes)
    {publicInputs secretInputs : List (Fp p)}
    (hCounts : solver.system.countsFit = true)
    (hInputs : solver.checkInputs publicInputs secretInputs = .ok ()) :
    (solver'.trace publicInputs secretInputs).failure =
        (solver.trace publicInputs secretInputs).failure ∧
      ((solver.trace publicInputs secretInputs).failure = none →
        solver'.trace publicInputs secretInputs =
          solver.trace publicInputs secretInputs) := by
  have hFit := ValidSystem.countsFit_spec hCounts
  have hKnows := knows_initialValues hPlan hFit hInputs
  unfold trace
  rw [hAlike.initialValues]
  exact runLevels_congr hPlan hFit.inputs_le hAlike
    (List.nil_append _).symm hSame hKnows

/-- Solvers for one system with schedules of the same levels come to the same
result on all inputs. -/
theorem solve_congr (hPlan : solver.system.Planned resolution)
    (hAlike : solver.Alike solver')
    (hSame : solver'.system.schedule.levels.map Level.nodes =
      solver.system.schedule.levels.map Level.nodes)
    (publicInputs secretInputs : List (Fp p)) :
    solver'.solve publicInputs secretInputs =
      solver.solve publicInputs secretInputs := by
  unfold solve
  rw [hAlike.checkInputs, hAlike.system]
  refine bind_congr_ok fun _ hInputs => ?_
  rw [Outcome.ofExcept_eq_ok] at hInputs
  cases hCounts : solver.system.countsFit with
  | false => simp only [Bool.not_false, if_true]
  | true =>
      obtain ⟨hFailure, hRun⟩ := trace_congr hPlan hAlike hSame hCounts hInputs
      dsimp only
      rw [hFailure]
      cases hNone : (solver.trace publicInputs secretInputs).failure with
      | some failure => dsimp only
      | none =>
          rw [hRun hNone]
          simp only [hAlike.solutionOf]

end Solver

end RankOne
