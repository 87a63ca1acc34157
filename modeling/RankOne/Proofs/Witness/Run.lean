import RankOne.Proofs.Schedule.Levels
import RankOne.Proofs.Witness.ConstraintRun

/-!
# Running a schedule

Levels are run in order, and what the constraints of a level write becomes known
after it. Before each level exactly the inputs are known and the wires that the
constraints of earlier levels resolve. So every constraint is run in its turn,
and since the constraints of a schedule are distinct and each writes only what
it resolves, no wire that is known is ever written again.

## Main results

* `Knows` — which wires are known when given constraints have been run;
* `Solver.runTask_taken`, `Solver.runLevel_sound` — what a task and a level do;
* `Solver.runLevels_sound` — what a run that comes to its end has done;
* `Solver.reached_turns` — at each level that a run comes to, the turn of its
  constraints has come;
* `Solver.runLevels_taken` — a run that fails has run its constraints in their
  turn until then.
-/

namespace RankOne

variable {p : Nat}

/-! ## Commits -/

namespace Solver

private theorem size_commitStep (known : Array (Option (Fp p)))
    (step : Step p) :
    (commitStep known step).size = known.size := by
  unfold commitStep
  induction step.writes with
  | nil => rfl
  | cons write rest ih => rw [List.foldr_cons, Array.size_setIfInBounds, ih]

theorem getElem?_commitStep (known : Array (Option (Fp p))) (step : Step p)
    (wire : Nat) :
    (commitStep known step)[wire]? =
      known[wire]?.map fun old => (step.writes.lookup wire).or old := by
  have hSize := size_commitStep known step
  unfold commitStep at hSize ⊢
  generalize step.writes = writes at hSize ⊢
  induction writes with
  | nil => simp
  | cons write rest ih =>
      obtain ⟨other, value⟩ := write
      rw [List.foldr_cons, Array.size_setIfInBounds] at hSize
      rw [List.foldr_cons, Array.getElem?_setIfInBounds,
        List.lookup_cons, hSize]
      by_cases hSame : other = wire
      · subst hSame
        rw [if_pos rfl, beq_self_eq_true]
        split
        · next hBound =>
            rw [Array.getElem?_eq_getElem hBound]
            rfl
        · next hBound =>
            rw [Array.getElem?_eq_none (Nat.le_of_not_lt hBound)]
            rfl
      · rw [if_neg hSame, ih hSize, beq_false_of_ne (Ne.symm hSame)]

theorem size_commitSteps (known : Array (Option (Fp p)))
    (steps : List (Step p)) :
    (steps.foldl commitStep known).size = known.size := by
  induction steps generalizing known with
  | nil => rfl
  | cons step rest ih => rw [List.foldl_cons, ih, size_commitStep]

theorem getElem?_commitSteps_of_unwritten {known : Array (Option (Fp p))}
    {steps : List (Step p)} {wire : Nat}
    (h : ∀ step ∈ steps, step.writes.lookup wire = none) :
    (steps.foldl commitStep known)[wire]? = known[wire]? := by
  induction steps generalizing known with
  | nil => rfl
  | cons step rest ih =>
      rw [List.foldl_cons,
        ih fun other hOther => h other (List.mem_cons_of_mem _ hOther),
        getElem?_commitStep, h step List.mem_cons_self]
      simp

end Solver

/-- The steps of distinct constraints write what the constraints resolve. -/
structure StepsOwn (resolver : Std.TreeMap Nat Nat) (steps : List (Step p)) :
    Prop where
  nodup : (steps.map Step.constraint).Nodup
  writes : ∀ step ∈ steps, ∀ wire,
    (step.writes.lookup wire).isSome ↔ resolver[wire]? = some step.constraint

namespace StepsOwn

variable {resolver : Std.TreeMap Nat Nat} {step : Step p}
  {steps : List (Step p)}

private theorem tail (h : StepsOwn resolver (step :: steps)) :
    StepsOwn resolver steps where
  nodup := (List.nodup_cons.mp h.nodup).2
  writes := fun other hOther => h.writes other (List.mem_cons_of_mem _ hOther)

private theorem unwritten (h : StepsOwn resolver (step :: steps)) {wire : Nat}
    (hWire : (step.writes.lookup wire).isSome) :
    ∀ other ∈ steps, other.writes.lookup wire = none := by
  intro other hOther
  rw [← Option.not_isSome_iff_eq_none]
  intro hWritten
  have hOwner := (h.writes step List.mem_cons_self wire).mp hWire
  have hOwner' :=
    (h.writes other (List.mem_cons_of_mem _ hOther) wire).mp hWritten
  rw [hOwner] at hOwner'
  injection hOwner' with hSame
  apply (List.nodup_cons.mp h.nodup).1
  rw [hSame]
  exact List.mem_map_of_mem hOther

/-- What one of the steps writes is known once all are committed. -/
private theorem getElem?_commitSteps (h : StepsOwn resolver steps)
    {known : Array (Option (Fp p))} (hStep : step ∈ steps) {wire : Nat}
    {value : Fp p} (hBound : wire < known.size)
    (hWritten : step.writes.lookup wire = some value) :
    (steps.foldl Solver.commitStep known)[wire]? = some (some value) := by
  induction steps generalizing known with
  | nil => simp at hStep
  | cons first rest ih =>
      rw [List.foldl_cons]
      rcases List.mem_cons.mp hStep with rfl | hStep
      · have hRest := h.unwritten (by rw [hWritten]; rfl)
        rw [Solver.getElem?_commitSteps_of_unwritten hRest,
          Solver.getElem?_commitStep, hWritten,
          Array.getElem?_eq_getElem hBound]
        rfl
      · apply ih h.tail hStep
        rwa [Solver.size_commitStep]

end StepsOwn

/-! ## What is known -/

/-- Which wires are known when the constraints in `done` have been run: the
inputs, and the wires that these constraints resolve. -/
structure Knows (system : ValidSystem p) (resolver : Std.TreeMap Nat Nat)
    (done : List Nat) (known : Array (Option (Fp p))) : Prop where
  size : known.size = system.layout.numWires
  knows : ∀ wire < system.layout.numWires,
    (∃ value, known[wire]? = some (some value)) ↔
      wire < system.layout.numInputs ∨
        ∃ node ∈ done, resolver[wire]? = some node

/-- Known wires stay known, with their values. -/
def KnownGrow (known known' : Array (Option (Fp p))) : Prop :=
  ∀ (wire : Nat) (value : Fp p), known[wire]? = some (some value) →
    known'[wire]? = some (some value)

namespace Knows

variable {solver : Solver p} {resolution : Resolution} {done nodes : List Nat}
  {known : Array (Option (Fp p))}

/-- The turn of a constraint comes when all it depends on has been run. -/
private theorem turn
    (hKnows : Knows solver.system.toValidSystem resolution.resolver done known)
    (hPlan : solver.system.Planned resolution)
    (hInputs : solver.system.layout.numInputs ≤ solver.system.layout.numWires)
    {node : Nat} {c : Constraint} {cost : NodeCost}
    (hGet : solver.system.constraints[node]? = some c)
    (hCost : resolution.costs[node]? = some cost) (hNew : node ∉ done)
    (hReady : ∀ dependency ∈ cost.dependencies, dependency ∈ done) :
    solver.Turn resolution node c cost { known } where
  wellFormed := hPlan.wellFormed
  resolved := hPlan.resolved
  nodeResolved := hPlan.resolved.node node c cost hGet hCost
  others := by
    intro wire hSettled hOther
    rcases hSettled with hInput | ⟨owner, hOwner, rfl | hDependency⟩
    · exact (hKnows.knows wire (by omega)).mpr (Or.inl hInput)
    · exact absurd hOwner hOther
    · have hBound := (hPlan.resolved.bounded wire owner hOwner).2.2
      exact (hKnows.knows wire hBound).mpr (Or.inr ⟨owner,
        hReady owner hDependency, hOwner⟩)
  own := by
    intro wire hOwner
    obtain ⟨-, hLow, hHigh⟩ := hPlan.resolved.bounded wire node hOwner
    refine ⟨?_, rfl⟩
    have hBound : wire < known.size := hKnows.size.symm ▸ hHigh
    cases hValue : known[wire] with
    | none => exact Array.getElem?_eq_some_iff.mpr ⟨hBound, hValue⟩
    | some value =>
        rcases (hKnows.knows wire hHigh).mp
          ⟨value, Array.getElem?_eq_some_iff.mpr ⟨hBound, hValue⟩⟩ with
          hInput | ⟨node', hDone, hOwner'⟩
        · omega
        · rw [hOwner] at hOwner'
          injection hOwner' with hSame
          exact absurd (hSame ▸ hDone) hNew

section Commit

variable {steps : List (Step p)}
  (hKnows : Knows solver.system.toValidSystem resolution.resolver done known)
  (hResolution : resolution.Sound solver.system.toValidSystem)
  (hOwn : StepsOwn resolution.resolver steps)
  (hNew : ∀ step ∈ steps, step.constraint ∉ done)
include hKnows hResolution hOwn hNew

/-- Further constraints write no wire that is known. -/
private theorem unwritten {wire : Nat} {value : Fp p}
    (hValue : known[wire]? = some (some value)) :
    ∀ step ∈ steps, step.writes.lookup wire = none := by
  have hBound : wire < solver.system.layout.numWires := by
    rw [← hKnows.size]
    exact (Array.getElem?_eq_some_iff.mp hValue).1
  intro step hStep
  rw [← Option.not_isSome_iff_eq_none]
  intro hWritten
  have hOwner := (hOwn.writes step hStep wire).mp hWritten
  rcases (hKnows.knows wire hBound).mp ⟨value, hValue⟩
    with hInput | ⟨node, hNode, hOwner'⟩
  · have hLow := (hResolution.bounded wire _ hOwner).2.1
    omega
  · rw [hOwner] at hOwner'
    injection hOwner' with hSame
    exact hNew step hStep (hSame ▸ hNode)

private theorem grow_commit :
    KnownGrow known (steps.foldl Solver.commitStep known) := by
  intro wire value hValue
  rw [Solver.getElem?_commitSteps_of_unwritten
    (hKnows.unwritten hResolution hOwn hNew hValue)]
  exact hValue

/-- Committing the steps of further constraints makes known what they
resolve. -/
private theorem commit :
    Knows solver.system.toValidSystem resolution.resolver
      (done ++ steps.map Step.constraint)
      (steps.foldl Solver.commitStep known) where
  size := by
    rw [Solver.size_commitSteps]
    exact hKnows.size
  knows := by
    intro wire hBound
    have hBefore := hKnows.knows wire hBound
    have hGrow := hKnows.grow_commit hResolution hOwn hNew
    constructor
    · rintro ⟨value, hValue⟩
      by_cases hWritten : ∃ step ∈ steps, (step.writes.lookup wire).isSome
      · obtain ⟨step, hStep, hWire⟩ := hWritten
        refine Or.inr ⟨step.constraint, ?_,
          (hOwn.writes step hStep wire).mp hWire⟩
        exact List.mem_append_right _ (List.mem_map_of_mem hStep)
      · have hNone : ∀ step ∈ steps, step.writes.lookup wire = none := by
          intro step hStep
          rw [← Option.not_isSome_iff_eq_none]
          exact fun hWire => hWritten ⟨step, hStep, hWire⟩
        rw [Solver.getElem?_commitSteps_of_unwritten hNone] at hValue
        rcases hBefore.mp ⟨value, hValue⟩ with hInput | ⟨node, hNode, hOwner⟩
        · exact Or.inl hInput
        · exact Or.inr ⟨node, List.mem_append_left _ hNode, hOwner⟩
    · rintro (hInput | ⟨node, hNode, hOwner⟩)
      · obtain ⟨value, hValue⟩ := hBefore.mpr (Or.inl hInput)
        exact ⟨value, hGrow wire value hValue⟩
      · rcases List.mem_append.mp hNode with hDone | hHere
        · obtain ⟨value, hValue⟩ := hBefore.mpr (Or.inr ⟨node, hDone, hOwner⟩)
          exact ⟨value, hGrow wire value hValue⟩
        · obtain ⟨step, hStep, rfl⟩ := List.mem_map.mp hHere
          obtain ⟨value, hValue⟩ :=
            Option.isSome_iff_exists.mp
              ((hOwn.writes step hStep wire).mpr hOwner)
          exact ⟨value,
            hOwn.getElem?_commitSteps hStep (hKnows.size.symm ▸ hBound) hValue⟩

end Commit

end Knows

/-! ## Tasks and levels -/

variable [Modulus p]

/-- A constraint writes nothing that another one resolves. -/
theorem Step.Sound.unwritten {solver : Solver p} {resolution : Resolution}
    {c : Constraint} {step : Step p} {known : Array (Option (Fp p))}
    (h : step.Sound solver resolution known c) {wire other : Nat}
    (hOwner : resolution.resolver[wire]? = some other)
    (hOther : step.constraint ≠ other) : step.writes.lookup wire = none := by
  rw [← Option.not_isSome_iff_eq_none]
  intro hWritten
  have hOwner' := (h.writes wire).mp hWritten
  rw [hOwner] at hOwner'
  injection hOwner' with hSame
  exact hOther hSame.symm

/-- The record of a constraint that was run in its turn. -/
def Step.Taken (solver : Solver p) (resolution : Resolution)
    (known : Array (Option (Fp p))) (c : Constraint) (step : Step p) : Prop :=
  solver.system.constraints[step.constraint]? = some c ∧ ∃ cost recent,
    solver.Turn resolution step.constraint c cost ⟨known, recent⟩ ∧
      solver.runConstraint ⟨known, recent⟩ step.constraint = .ok step

theorem Step.Taken.sound {solver : Solver p} {resolution : Resolution}
    {c : Constraint} {step : Step p} {known : Array (Option (Fp p))}
    (h : step.Taken solver resolution known c) :
    step.Sound solver resolution known c := by
  obtain ⟨hGet, cost, recent, hTurn, hRun⟩ := h
  exact (hTurn.runConstraint_sound hGet hRun).2

namespace Solver

variable {solver : Solver p} {resolution : Resolution}

omit [Modulus p] in
/-- What the constraints of a task write before it makes no difference to the
turn of a constraint. -/
theorem Turn.withRecent {node : Nat} {c : Constraint} {cost : NodeCost}
    {known : Array (Option (Fp p))} {recent : List (Nat × Fp p)}
    (h : solver.Turn resolution node c cost { known })
    (hRecent : ∀ wire : Nat, resolution.resolver[wire]? = some node →
      recent.lookup wire = none) :
    solver.Turn resolution node c cost ⟨known, recent⟩ :=
  { h with own := fun wire hOwner => ⟨(h.own wire hOwner).1,
      hRecent wire hOwner⟩ }

/-- The record of a constraint has its number. -/
private theorem constraint_of_runConstraint {view : View p} {node : Nat}
    {step : Step p} (h : solver.runConstraint view node = .ok step) :
    step.constraint = node := by
  cases hGet : solver.system.constraints[node]? with
  | none =>
      unfold runConstraint at h
      rw [hGet] at h
      cases h
  | some c => exact (runConstraint_eq_ok hGet h).1

/-- A task that comes to its end has run its constraints in order. -/
private theorem runTask_constraints {view : View p} {nodes : List Nat}
    (h : (solver.runTask view nodes).failure = none) :
    (solver.runTask view nodes).steps.map Step.constraint = nodes := by
  induction nodes generalizing view with
  | nil => rfl
  | cons node rest ih =>
      unfold runTask at h ⊢
      split at h
      · cases h
      next step hStep =>
      dsimp only at h ⊢
      rw [List.map_cons, constraint_of_runConstraint hStep, ih h]

/-- The constraints of a task that are run, be it to its end or not, are run in
their turn, if it was their turn when the task began: what they write meanwhile
concerns none of the others. -/
theorem runTask_taken {known : Array (Option (Fp p))}
    {recent : List (Nat × Fp p)} {nodes : List Nat} (hNodup : nodes.Nodup)
    (hTurns : ∀ node ∈ nodes, ∃ c cost, solver.system.constraints[node]? =
      some c ∧ solver.Turn resolution node c cost { known })
    (hRecent : ∀ node ∈ nodes, ∀ wire : Nat,
      resolution.resolver[wire]? = some node → recent.lookup wire = none) :
    ∀ step ∈ (solver.runTask ⟨known, recent⟩ nodes).steps,
      ∃ c, step.Taken solver resolution known c := by
  induction nodes generalizing recent with
  | nil => simp [runTask]
  | cons node rest ih =>
      obtain ⟨hNode, hRest⟩ := List.nodup_cons.mp hNodup
      obtain ⟨c, cost, hGet, hTurn⟩ := hTurns node List.mem_cons_self
      have hHere := hTurn.withRecent (hRecent node List.mem_cons_self)
      unfold runTask
      split
      · simp
      next step hStep =>
      obtain ⟨hConstraint, hSound⟩ := hHere.runConstraint_sound hGet hStep
      have hNextRecent : ∀ other ∈ rest, ∀ wire : Nat,
          resolution.resolver[wire]? = some other →
          (step.writes ++ recent).lookup wire = none := by
        intro other hOther wire hOwner
        rw [List.lookup_append,
          hRecent other (List.mem_cons_of_mem _ hOther) wire hOwner,
          Option.or_none]
        exact hSound.unwritten hOwner fun hSame =>
          hNode (hConstraint ▸ hSame ▸ hOther)
      intro other hOther
      rcases List.mem_cons.mp hOther with rfl | hOther
      · subst hConstraint
        exact ⟨c, hGet, cost, recent, hHere, hStep⟩
      · exact ih hRest (fun node hNode =>
          hTurns node (List.mem_cons_of_mem _ hNode)) hNextRecent other hOther

/-- The constraints of some tasks that are run are run in their turn. -/
theorem runTasks_taken {known : Array (Option (Fp p))} {tasks : List Task}
    (hNodup : (tasks.flatMap Task.nodes).Nodup)
    (hTurns : ∀ node ∈ tasks.flatMap Task.nodes, ∃ c cost,
      solver.system.constraints[node]? = some c ∧
        solver.Turn resolution node c cost { known }) :
    ∀ step ∈ (tasks.map fun task =>
      solver.runTask { known } task.nodes).flatMap TaskRun.steps,
      ∃ c, step.Taken solver resolution known c := by
  intro step hStep
  obtain ⟨run, hRun, hStep⟩ := List.mem_flatMap.mp hStep
  obtain ⟨task, hTask, rfl⟩ := List.mem_map.mp hRun
  have hNodes : ∀ node ∈ task.nodes, node ∈ tasks.flatMap Task.nodes :=
    fun node hNode => List.mem_flatMap.mpr ⟨task, hTask, hNode⟩
  exact runTask_taken ((List.nodup_flatMap.mp hNodup).1 task hTask)
    (fun node hNode => hTurns node (hNodes node hNode)) (fun _ _ _ _ =>
      rfl) step hStep

/-- When some tasks all come to their end, their constraints have been run in
order. -/
theorem runTasks_constraints {known : Array (Option (Fp p))} {tasks : List Task}
    (h : (tasks.map fun task => solver.runTask { known } task.nodes).findSome?
      TaskRun.failure = none) :
    ((tasks.map fun task => solver.runTask { known } task.nodes).flatMap
        TaskRun.steps).map Step.constraint = tasks.flatMap Task.nodes := by
  induction tasks with
  | nil => rfl
  | cons task rest ih =>
      rw [List.map_cons, List.findSome?_cons] at h
      split at h
      · cases h
      next hFailure =>
      rw [List.map_cons, List.flatMap_cons, List.flatMap_cons, List.map_append,
        runTask_constraints hFailure, ih h]

omit [Modulus p] in
/-- The constraints of a level are distinct and new, and it is their turn. -/
theorem level_turns (hPlan : solver.system.Planned resolution)
    (hInputs : solver.system.layout.numInputs ≤ solver.system.layout.numWires)
    {before rest : List Level} {level : Level}
    (hSplit : solver.system.schedule.levels = before ++ level :: rest)
    {known : Array (Option (Fp p))}
    (hKnows : Knows solver.system.toValidSystem resolution.resolver
      (before.flatMap Level.nodes) known) :
    level.nodes.Nodup ∧
      (∀ node ∈ level.nodes, node ∉ before.flatMap Level.nodes) ∧
      ∀ node ∈ level.nodes, ∃ c cost,
        solver.system.constraints[node]? = some c ∧
        solver.Turn resolution node c cost { known } := by
  have hNodup : ((before ++ level :: rest).flatMap Level.nodes).Nodup :=
    hSplit ▸ hPlan.ordered.perm.symm.nodup List.nodup_range
  rw [List.flatMap_append, List.flatMap_cons] at hNodup
  obtain ⟨-, hHereRest, hApart⟩ := List.nodup_append.mp hNodup
  obtain ⟨hHere, -, -⟩ := List.nodup_append.mp hHereRest
  have hNew : ∀ node ∈ level.nodes, node ∉ before.flatMap Level.nodes := by
    intro node hNode hBefore
    exact hApart node hBefore node (List.mem_append_left _ hNode) rfl
  refine ⟨hHere, hNew, ?_⟩
  intro node hNode
  have hMem : node ∈ List.range resolution.costs.length := by
    rw [← hPlan.ordered.perm.mem_iff, hSplit, List.flatMap_append,
      List.flatMap_cons]
    exact List.mem_append_right _ (List.mem_append_left _ hNode)
  rw [List.mem_range] at hMem
  have hGet := Array.getElem?_eq_getElem (hPlan.resolved.length_costs ▸ hMem)
  have hCost := List.getElem?_eq_getElem hMem
  exact ⟨_, _, hGet, hKnows.turn hPlan hInputs hGet hCost (hNew node hNode)
    (hPlan.ordered.earlier before level rest hSplit node hNode _ hCost)⟩

/-- After a level whose tasks all come to their end, what its constraints
resolve is known, and what was known before still is. -/
theorem runLevel_sound (hPlan : solver.system.Planned resolution)
    (hInputs : solver.system.layout.numInputs ≤ solver.system.layout.numWires)
    {before rest : List Level} {level : Level}
    (hSplit : solver.system.schedule.levels = before ++ level :: rest)
    {known : Array (Option (Fp p))}
    (hKnows : Knows solver.system.toValidSystem resolution.resolver
      (before.flatMap Level.nodes) known)
    (h : (level.tasks.map fun task =>
      solver.runTask { known } task.nodes).findSome? TaskRun.failure = none)
    {steps : List (Step p)}
    (hSteps : (level.tasks.map fun task =>
      solver.runTask { known } task.nodes).flatMap TaskRun.steps = steps) :
    steps.map Step.constraint = level.nodes ∧
      Knows solver.system.toValidSystem resolution.resolver
        ((before ++ [level]).flatMap Level.nodes)
          (steps.foldl commitStep known) ∧
      KnownGrow known (steps.foldl commitStep known) ∧
      ∀ step ∈ steps, (∃ c, step.Taken solver resolution known c) ∧
        ∀ wire value, step.writes.lookup wire = some value →
          (steps.foldl commitStep known)[wire]? = some (some value) := by
  obtain ⟨hHere, hNew, hTurns⟩ := level_turns hPlan hInputs hSplit hKnows
  have hNodes := runTasks_constraints h
  have hTaken := runTasks_taken hHere hTurns
  rw [hSteps] at hNodes hTaken
  have hOwn : StepsOwn resolution.resolver steps :=
    { nodup := hNodes ▸ hHere
      writes := fun step hStep => (hTaken step hStep).choose_spec.sound.writes }
  have hFresh : ∀ step ∈ steps,
      step.constraint ∉ before.flatMap Level.nodes := by
    intro step hStep
    apply hNew
    show step.constraint ∈ level.tasks.flatMap Task.nodes
    rw [← hNodes]
    exact List.mem_map_of_mem hStep
  have hCommitted := hKnows.commit hPlan.resolved hOwn hFresh
  have hGrow := hKnows.grow_commit hPlan.resolved hOwn hFresh
  refine ⟨hNodes, ?_, hGrow, ?_⟩
  · rw [hNodes] at hCommitted
    rw [List.flatMap_append, List.flatMap_singleton]
    exact hCommitted
  · intro step hStep
    obtain ⟨c, hStepTaken⟩ := hTaken step hStep
    refine ⟨⟨c, hStepTaken⟩, ?_⟩
    intro wire value hWritten
    apply hOwn.getElem?_commitSteps hStep _ hWritten
    rw [hKnows.size]
    exact (hPlan.resolved.bounded wire _
      ((hStepTaken.sound.writes wire).mp (by rw [hWritten]; rfl))).2.2

/-- What a run over some levels in a row has done when it comes to its end:
every constraint has been run in its turn, the wires that the constraints
resolve are known, and whatever was known on the way still is. -/
theorem runLevels_sound (hPlan : solver.system.Planned resolution)
    (hInputs : solver.system.layout.numInputs ≤ solver.system.layout.numWires)
    (before : List Level) {levels : List Level}
    (hPrefix : before ++ levels <+: solver.system.schedule.levels)
    {known : Array (Option (Fp p))}
    (hKnows : Knows solver.system.toValidSystem resolution.resolver
      (before.flatMap Level.nodes) known)
    (h : (solver.runLevels levels known).failure = none) :
    (solver.runLevels levels known).steps.map Step.constraint =
      levels.flatMap Level.nodes ∧
      Knows solver.system.toValidSystem resolution.resolver
        ((before ++ levels).flatMap Level.nodes)
          (solver.runLevels levels known).known ∧
      KnownGrow known (solver.runLevels levels known).known ∧
      ∀ step ∈ (solver.runLevels levels known).steps,
        (∃ c known', step.Taken solver resolution known' c ∧
          KnownGrow known' (solver.runLevels levels known).known) ∧
        ∀ wire value, step.writes.lookup wire = some value →
          (solver.runLevels levels known).known[wire]? = some (some value) := by
  induction levels generalizing before known with
  | nil =>
      rw [List.append_nil]
      exact ⟨rfl, hKnows, fun _ _ hValue => hValue,
        fun step hStep => by simp [runLevels] at hStep⟩
  | cons level rest ih =>
      unfold runLevels at h ⊢
      dsimp only at h ⊢
      split at h
      · cases h
      next hFailure =>
      dsimp only at h ⊢
      generalize hSteps : (level.tasks.map fun task =>
        solver.runTask { known } task.nodes).flatMap TaskRun.steps =
          steps at h ⊢
      obtain ⟨after, hSplit⟩ := hPrefix
      rw [List.append_assoc, List.cons_append] at hSplit
      obtain ⟨hNodes, hCommitted, hGrow, hTaken⟩ :=
        runLevel_sound hPlan hInputs hSplit.symm hKnows hFailure hSteps
      have hNext :
          (before ++ [level]) ++ rest <+: solver.system.schedule.levels := by
        refine ⟨after, ?_⟩
        rw [← hSplit, List.append_assoc, List.append_assoc,
          List.singleton_append]
      obtain ⟨hLater, hEnd, hLaterGrow, hLaterTaken⟩ :=
        ih (before ++ [level]) hNext hCommitted h
      have hWholeGrow :
          KnownGrow known
            (solver.runLevels rest (steps.foldl commitStep known)).known :=
        fun wire value hValue => hLaterGrow wire value (hGrow wire value hValue)
      refine ⟨?_, ?_, hWholeGrow, ?_⟩
      · rw [List.map_append, hNodes, hLater, List.flatMap_cons]
      · rw [List.append_assoc, List.singleton_append] at hEnd
        exact hEnd
      · intro step hStep
        rcases List.mem_append.mp hStep with hNow | hThen
        · obtain ⟨⟨c, hStepTaken⟩, hWrites⟩ := hTaken step hNow
          exact ⟨⟨c, known, hStepTaken, hWholeGrow⟩,
            fun wire value hWritten =>
              hLaterGrow wire value (hWrites wire value hWritten)⟩
        · exact hLaterTaken step hThen

/-- A run over two parts fails where the first part does, and if it does not,
where the second one does from what the first has found out. -/
theorem failure_runLevels_append (before rest : List Level)
    (known : Array (Option (Fp p))) :
    (solver.runLevels (before ++ rest) known).failure =
      (solver.runLevels before known).failure.or
        (solver.runLevels rest
          (solver.runLevels before known).known).failure := by
  induction before generalizing known with
  | nil => simp only [List.nil_append, runLevels, Option.none_or]
  | cons level before ih =>
      rw [List.cons_append, runLevels, runLevels]
      dsimp only
      split
      · rfl
      · exact ih _

/-- When the levels before a level have been run without failure, the turn of
its constraints has come. -/
theorem reached_turns (hPlan : solver.system.Planned resolution)
    (hInputs : solver.system.layout.numInputs ≤ solver.system.layout.numWires)
    {before after : List Level} {level : Level}
    (hSplit : solver.system.schedule.levels = before ++ level :: after)
    {known : Array (Option (Fp p))}
    (hKnows : Knows solver.system.toValidSystem resolution.resolver [] known)
    (h : (solver.runLevels before known).failure = none) :
    (solver.runLevels before known).known.size = solver.system.layout.numWires ∧
      level.nodes.Nodup ∧
      ∀ node ∈ level.nodes, ∃ c cost,
        solver.system.constraints[node]? = some c ∧
        solver.Turn resolution node c cost
          { known := (solver.runLevels before known).known } := by
  have hPrefix : before <+: solver.system.schedule.levels :=
    hSplit ▸ List.prefix_append before (level :: after)
  obtain ⟨-, hReached, -, -⟩ :=
    runLevels_sound hPlan hInputs [] hPrefix hKnows h
  obtain ⟨hNodup, -, hTurns⟩ := level_turns hPlan hInputs hSplit hReached
  exact ⟨hReached.size, hNodup, hTurns⟩

/-- Every constraint that a run comes past is run in its turn, whether the run
comes to its end or not. -/
theorem runLevels_taken (hPlan : solver.system.Planned resolution)
    (hInputs : solver.system.layout.numInputs ≤ solver.system.layout.numWires)
    {before levels : List Level}
    (hSplit : solver.system.schedule.levels = before ++ levels)
    {known : Array (Option (Fp p))}
    (hKnows : Knows solver.system.toValidSystem resolution.resolver
      (before.flatMap Level.nodes) known) :
    ∀ step ∈ (solver.runLevels levels known).steps,
      ∃ c known', step.Taken solver resolution known' c := by
  induction levels generalizing before known with
  | nil => simp [runLevels]
  | cons level rest ih =>
      obtain ⟨hHere, -, hTurns⟩ := level_turns hPlan hInputs hSplit hKnows
      have hTaken := runTasks_taken hHere hTurns
      unfold runLevels
      dsimp only
      split
      · intro step hStep
        obtain ⟨c, hStepTaken⟩ := hTaken step hStep
        exact ⟨c, known, hStepTaken⟩
      · next hNone =>
          obtain ⟨-, hCommitted, -, -⟩ :=
            runLevel_sound hPlan hInputs hSplit hKnows hNone rfl
          have hNext :
              solver.system.schedule.levels = (before ++ [level]) ++ rest := by
            rw [hSplit, List.append_assoc, List.singleton_append]
          intro step hStep
          rcases List.mem_append.mp hStep with hNow | hThen
          · obtain ⟨c, hStepTaken⟩ := hTaken step hNow
            exact ⟨c, known, hStepTaken⟩
          · exact ih hNext hCommitted step hThen

end Solver

end RankOne
