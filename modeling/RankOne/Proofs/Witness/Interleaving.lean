import RankOne.Proofs.Witness.Packing

/-!
# The tasks of a level in any order

Workers may take the tasks of a level in any order, and what a task has found
out may become known at any time after it has been run, also before other tasks
of the level are run. It makes no difference. No constraint of a level reads a
wire that another one writes, so that every task runs as if it were the first;
and no two constraints write the same wire or the same row, so that their
records may be committed in any order.

## Main results

* `Level.Due` — it is the turn of a level, and none of its tasks fails;
* `LevelState.Next` — a task of a level is run, or its records are committed;
* `LevelState.Accounts.next` — whatever is done next, tasks run as if they were
  the first;
* `Level.Due.interleave` — in the end the level has come to what the solver
  makes of it.
-/

namespace RankOne

variable {p : Nat}

/-! ## Commits in any order -/

namespace Solver

private theorem commitStep_comm {first second : Step p}
    (h : ∀ wire, (first.writes.lookup wire).isSome →
      second.writes.lookup wire = none) (known : Array (Option (Fp p))) :
    commitStep (commitStep known first) second =
      commitStep (commitStep known second) first := by
  apply Array.ext_getElem?
  intro wire
  rw [getElem?_commitStep, getElem?_commitStep, getElem?_commitStep,
    getElem?_commitStep, Option.map_map, Option.map_map]
  congr 1
  funext old
  cases hFirst : first.writes.lookup wire with
  | none => simp
  | some value => simp [h wire (by rw [hFirst]; rfl)]

/-- Records of distinct constraints may be committed in any order. -/
private theorem commitSteps_perm {resolver : Std.TreeMap Nat Nat}
    {steps steps' : List (Step p)} (hOwn : StepsOwn resolver steps)
    (hPerm : steps.Perm steps') (known : Array (Option (Fp p))) :
    steps.foldl commitStep known = steps'.foldl commitStep known := by
  refine hPerm.foldl_eq' (fun first hFirst second hSecond known => ?_) known
  by_cases hSame : first.constraint = second.constraint
  · rw [List.inj_on_of_nodup_map hOwn.nodup hFirst hSecond hSame]
  · apply commitStep_comm
    intro wire hWritten
    rw [← Option.not_isSome_iff_eq_none]
    intro hWritten'
    have hOwner := (hOwn.writes first hFirst wire).mp hWritten
    rw [(hOwn.writes second hSecond wire).mp hWritten'] at hOwner
    injection hOwner with hOwner
    exact hSame hOwner.symm

/-- So may their rows. -/
private theorem rowsOf_perm [Modulus p] {steps steps' : List (Step p)}
    (hNodup : (steps.map Step.constraint).Nodup) (hPerm : steps.Perm steps')
    (count : Nat) (earlier later : List (Step p)) :
    rowsOf count (earlier ++ steps ++ later) =
      rowsOf count (earlier ++ steps' ++ later) := by
  unfold rowsOf
  simp only [List.foldl_append]
  congr 2
  refine hPerm.foldl_eq' (fun first hFirst second hSecond rows => ?_) _
  by_cases hSame : first.constraint = second.constraint
  · rw [List.inj_on_of_nodup_map hNodup hFirst hSecond hSame]
  · exact Array.setIfInBounds_comm _ _ hSame

end Solver

variable [Modulus p]

/-! ## A task among others -/

section Grown

variable {solver : Solver p} {resolution : Resolution}
  {known known' : Array (Option (Fp p))} (hGrow : KnownGrow known known')
include hGrow

omit [Modulus p] in
/-- It is still the turn of a constraint when more is known, but none of its own
wires. -/
private theorem Solver.Turn.grown {node : Nat} {c : Constraint}
    {cost : NodeCost} (h : solver.Turn resolution node c cost { known })
    (hOwn : ∀ wire : Nat, resolution.resolver[wire]? = some node →
      known'[wire]? = known[wire]?) :
    solver.Turn resolution node c cost { known := known' } :=
  { h with
    others := by
      intro wire hSettled hOther
      obtain ⟨value, hValue⟩ := h.others wire hSettled hOther
      exact ⟨value, hGrow wire value hValue⟩
    own :=
      fun wire hOwner => ⟨(hOwn wire hOwner).trans (h.own wire hOwner).1, rfl⟩ }

/-- A task that does not fail runs in the same way when more is known. -/
private theorem Solver.runTask_grown {nodes : List Nat} (hNodup : nodes.Nodup)
    (hTurns : ∀ node ∈ nodes, ∃ c cost, solver.system.constraints[node]? =
      some c ∧ solver.Turn resolution node c cost { known })
    (hOwn : ∀ node ∈ nodes, ∀ wire : Nat,
      resolution.resolver[wire]? = some node → known'[wire]? = known[wire]?)
    (h : (solver.runTask { known } nodes).failure = none) :
    solver.runTask { known := known' } nodes =
      solver.runTask { known } nodes := by
  have hTurns' : ∀ node ∈ nodes, ∃ c cost,
      solver.system.constraints[node]? = some c ∧
      solver.Turn resolution node c cost { known := known' } := by
    intro node hNode
    obtain ⟨c, cost, hGet, hTurn⟩ := hTurns node hNode
    exact ⟨c, cost, hGet, hTurn.grown hGrow (hOwn node hNode)⟩
  have hSame : ∀ node ∈ nodes,
      solver.runConstraint { known := known' } node =
        solver.runConstraint { known } node := by
    intro node hNode
    obtain ⟨c, cost, hGet, hTurn⟩ := hTurns node hNode
    exact hTurn.runConstraint_congr (hTurn.grown hGrow (hOwn node hNode)) hGrow
      ⟨rfl, rfl⟩ hGet
  obtain ⟨hFailure, hSteps⟩ :=
    runTask_outcome ⟨rfl, rfl⟩ [] hNodup hTurns fun _ _ _ _ => rfl
  obtain ⟨hFailure', hSteps'⟩ :=
    runTask_outcome ⟨rfl, rfl⟩ [] hNodup hTurns' fun _ _ _ _ => rfl
  have hNone : (solver.runTask { known := known' } nodes).failure = none := by
    rw [hFailure', List.findSome?_eq_none_iff]
    intro node hNode
    have hHere :=
      List.findSome?_eq_none_iff.mp (hFailure.symm.trans h) node hNode
    unfold nodeFailure at hHere ⊢
    rw [hSame node hNode, hHere]
  have hRecords :=
    (hSteps' hNone).trans ((List.map_congr_left hSame).trans (hSteps h).symm)
  have hExt : ∀ run run' : TaskRun p, run.steps = run'.steps →
      run.failure = run'.failure →
      run = run' := by
    rintro ⟨steps, failure⟩ ⟨steps', failure'⟩ rfl rfl
    rfl
  exact hExt _ _ (List.map_injective_iff.mpr (fun _ _ h =>
    Except.ok.inj h) hRecords) (hNone.trans h.symm)

end Grown

/-! ## A level whose turn has come -/

namespace Level

/-- The records of a level all of whose tasks see what is known before it. -/
def records (solver : Solver p) (known : Array (Option (Fp p)))
    (level : Level) : List (Step p) :=
  level.tasks.flatMap fun task => (solver.runTask { known } task.nodes).steps

/-- It is the turn of all constraints of a level, and none of its tasks
fails. -/
structure Due (solver : Solver p) (resolution : Resolution)
    (known : Array (Option (Fp p))) (level : Level) : Prop where
  nodup : level.nodes.Nodup
  turns : ∀ node ∈ level.nodes, ∃ c cost,
    solver.system.constraints[node]? = some c ∧
    solver.Turn resolution node c cost { known }
  succeeds : ∀ task ∈ level.tasks,
    (solver.runTask { known } task.nodes).failure = none

namespace Due

variable {solver : Solver p} {resolution : Resolution}
  {known : Array (Option (Fp p))} {level : Level}
  (h : level.Due solver resolution known)
include h

/-- Every part of a level is a level. -/
theorem part {tasks rest : List Task}
    (hPart : (tasks ++ rest).Perm level.tasks) :
    Level.Due solver resolution known ⟨tasks⟩ := by
  have hTasks : ∀ task ∈ tasks, task ∈ level.tasks :=
    fun task hTask => hPart.mem_iff.mp (List.mem_append_left _ hTask)
  exact
    { nodup := by
        have hNodup := (hPart.flatMap_right Task.nodes).nodup_iff.mpr h.nodup
        rw [List.flatMap_append] at hNodup
        exact hNodup.of_append_left
      turns := by
        intro node hNode
        obtain ⟨task, hTask, hMem⟩ := List.mem_flatMap.mp hNode
        exact h.turns node (List.mem_flatMap.mpr ⟨task,
          hTasks task hTask, hMem⟩)
      succeeds := fun task hTask => h.succeeds task (hTasks task hTask) }

private theorem findSome?_eq_none : (level.tasks.map fun task =>
    solver.runTask { known } task.nodes).findSome? Solver.TaskRun.failure =
      none := by
  rw [List.findSome?_eq_none_iff]
  intro run hRun
  obtain ⟨task, hTask, rfl⟩ := List.mem_map.mp hRun
  exact h.succeeds task hTask

/-- There is a record for every constraint, which was run in its turn. -/
theorem records_sound :
    (level.records solver known).map Step.constraint = level.nodes ∧
    ∀ step ∈ level.records solver known, ∃ c,
      step.Taken solver resolution known c := by
  have hConstraints := Solver.runTasks_constraints h.findSome?_eq_none
  have hTaken := Solver.runTasks_taken h.nodup h.turns
  rw [List.flatMap_map] at hConstraints hTaken
  exact ⟨hConstraints, hTaken⟩

/-- The records write what their constraints resolve. -/
private theorem own :
    StepsOwn resolution.resolver (level.records solver known) where
  nodup := h.records_sound.1 ▸ h.nodup
  writes :=
    fun step hStep => (h.records_sound.2 step hStep).choose_spec.sound.writes

/-- A wire that was known before the level is not written. -/
private theorem grow :
    KnownGrow known
      ((level.records solver known).foldl Solver.commitStep known) := by
  intro wire value hValue
  rw [Solver.getElem?_commitSteps_of_unwritten]
  · exact hValue
  intro step hStep
  rw [← Option.not_isSome_iff_eq_none]
  intro hWritten
  obtain ⟨c, -, cost, recent, hTurn, -⟩ := h.records_sound.2 step hStep
  rw [(hTurn.own wire ((h.own.writes step hStep wire).mp hWritten)).1] at hValue
  cases hValue

/-- A task runs in the same way after any other tasks of its level have been
committed. -/
private theorem runTask_eq {tasks rest : List Task} {task : Task}
    (hPart : (tasks ++ task :: rest).Perm level.tasks) :
    solver.runTask
      { known := (records solver known ⟨tasks⟩).foldl Solver.commitStep known }
      task.nodes = solver.runTask { known } task.nodes := by
  have hOthers := h.part hPart
  have hTask : task ∈ level.tasks := hPart.mem_iff.mp (by simp)
  have hNodup := (hPart.flatMap_right Task.nodes).nodup_iff.mpr h.nodup
  rw [List.flatMap_append, List.flatMap_cons] at hNodup
  obtain ⟨-, hHere, hApart⟩ := List.nodup_append.mp hNodup
  refine Solver.runTask_grown hOthers.grow hHere.of_append_left
    (fun node hNode =>
      h.turns node (List.mem_flatMap.mpr ⟨task, hTask, hNode⟩)) ?_
    (h.succeeds task hTask)
  -- The other tasks have other constraints, which do not write the wires of
  -- these.
  intro node hNode wire hOwner
  apply Solver.getElem?_commitSteps_of_unwritten
  intro step hStep
  obtain ⟨c, hTaken⟩ := hOthers.records_sound.2 step hStep
  apply hTaken.sound.unwritten hOwner
  apply hApart _ _ _ (List.mem_append_left _ hNode)
  have hMem := List.mem_map_of_mem (f := Step.constraint) hStep
  rw [hOthers.records_sound.1] at hMem
  exact hMem

/-- What the solver makes of the level: the records are committed at its end. -/
private theorem runLevels_eq : solver.runLevels [level] known =
    { known := (level.records solver known).foldl Solver.commitStep known
      steps := level.records solver known } := by
  unfold Solver.runLevels
  dsimp only
  rw [h.findSome?_eq_none]
  dsimp only
  rw [List.flatMap_map]
  unfold Solver.runLevels
  rw [List.append_nil]
  rfl

end Due

end Level

/-! ## Running and committing in any order -/

/-- A level that is being run: the wires known so far, the tasks that have not
been run, those that have been run and not been committed, and the records of
the others in the order of the commits. -/
structure LevelState (p : Nat) where
  known : Array (Option (Fp p))
  waiting : List Task
  finished : List (Solver.TaskRun p) := []
  steps : List (Step p) := []

namespace LevelState

variable {solver : Solver p} {resolution : Resolution}
  {known : Array (Option (Fp p))} {level : Level}

/-- One of the waiting tasks is run, and sees what is known by then, or one of
the finished tasks is committed. -/
inductive Next (solver : Solver p) : LevelState p → LevelState p → Prop
  | run {state : LevelState p} {task : Task} {before after : List Task}
      (h : state.waiting = before ++ task :: after) :
      Next solver state { state with
        waiting := before ++ after
        finished := state.finished ++
          [solver.runTask { known := state.known } task.nodes] }
  | commit {state : LevelState p} {run : Solver.TaskRun p}
      {before after : List (Solver.TaskRun p)}
      (h : state.finished = before ++ run :: after) :
      Next solver state { state with
        finished := before ++ after
        known := run.steps.foldl Solver.commitStep state.known
        steps := state.steps ++ run.steps }

/-- A level can be in this state on the way from what was known before it. -/
def Reachable (solver : Solver p) (level : Level)
    (known : Array (Option (Fp p))) (state : LevelState p) : Prop :=
  Relation.ReflTransGen (Next solver) { known, waiting := level.tasks } state

/-- All tasks have been run and committed. -/
structure Ended (state : LevelState p) : Prop where
  waiting : state.waiting = []
  finished : state.finished = []

/-- The level has come to what the solver makes of it. -/
structure Agrees (solver : Solver p) (level : Level)
    (known : Array (Option (Fp p))) (state : LevelState p) : Prop where
  values : state.known = (solver.runLevels [level] known).known
  rows : ∀ count earlier later,
    Solver.rowsOf count (earlier ++ state.steps ++ later) = Solver.rowsOf count
      (earlier ++ (solver.runLevels [level] known).steps ++ later)

/-- Whatever has been done so far, all tasks can still be run and committed. -/
theorem exists_end (solver : Solver p) (state : LevelState p) :
    ∃ final, Relation.ReflTransGen (Next solver) state final ∧ final.Ended := by
  obtain ⟨known, waiting, finished, steps⟩ := state
  induction waiting generalizing finished with
  | nil =>
      induction finished generalizing known steps with
      | nil => exact ⟨_, .refl, ⟨rfl, rfl⟩⟩
      | cons run rest ih =>
          obtain ⟨final, hRest, hEnd⟩ :=
            ih (run.steps.foldl Solver.commitStep known) (steps ++ run.steps)
          exact ⟨final, hRest.head (.commit (List.nil_append _).symm), hEnd⟩
  | cons task rest ih =>
      obtain ⟨final, hRest, hEnd⟩ :=
        ih (finished ++ [solver.runTask { known } task.nodes])
      exact ⟨final, hRest.head (.run (List.nil_append _).symm), hEnd⟩

/-- Some tasks of a level have been committed and some are pending, all of which
have run as if they were the first. -/
structure Accounts (solver : Solver p) (level : Level)
    (known : Array (Option (Fp p))) (committed pending : List Task)
    (state : LevelState p) : Prop where
  tasks : (committed ++ (pending ++ state.waiting)).Perm level.tasks
  finished : state.finished = pending.map fun task =>
    solver.runTask { known } task.nodes
  steps : state.steps = Level.records solver known ⟨committed⟩
  known : state.known = state.steps.foldl Solver.commitStep known

namespace Accounts

variable {committed pending : List Task} {state state' : LevelState p}

private theorem start :
    Accounts solver level known [] [] { known, waiting := level.tasks } where
  tasks := List.Perm.refl _
  finished := rfl
  steps := rfl
  known := rfl

/-- A task that is run sees only what has been committed, and runs as if it were
the first. -/
private theorem run (hDue : level.Due solver resolution known)
    (h : state.Accounts solver level known committed pending) {task : Task}
    {before after : List Task}
    (hWaiting : state.waiting = before ++ task :: after) :
    Accounts solver level known committed (pending ++ [task]) { state with
      waiting := before ++ after
      finished := state.finished ++
        [solver.runTask { known := state.known } task.nodes] } := by
  have hTasks := h.tasks
  rw [hWaiting] at hTasks
  have hFront : (committed ++
      task :: (pending ++ (before ++ after))).Perm level.tasks := by
    have hMiddle := @List.perm_middle _ task (pending ++ before) after
    rw [List.append_assoc, List.append_assoc] at hMiddle
    exact (hMiddle.symm.append_left committed).trans hTasks
  exact
    { tasks := by
        rw [List.append_assoc, List.singleton_append]
        exact ((List.perm_middle.symm.append_left pending).append_left
          committed).trans hTasks
      finished := by
        rw [List.map_append, ← h.finished, h.known, h.steps,
          hDue.runTask_eq hFront]
        rfl
      steps := h.steps
      known := h.known }

/-- A task that is committed leaves the records of a first task. -/
private theorem commit (h : state.Accounts solver level known committed pending)
    {run : Solver.TaskRun p} {before after : List (Solver.TaskRun p)}
    (hFinished : state.finished = before ++ run :: after) :
    ∃ task earlier later,
      Accounts solver level known (committed ++ [task]) (earlier ++ later)
      { state with
        finished := before ++ after
        known := run.steps.foldl Solver.commitStep state.known
        steps := state.steps ++ run.steps } := by
  rw [h.finished, List.map_eq_append_iff] at hFinished
  obtain ⟨earlier, others, rfl, rfl, hOthers⟩ := hFinished
  obtain ⟨task, later, rfl, rfl, rfl⟩ := List.map_eq_cons_iff.mp hOthers
  refine ⟨task, earlier, later, ?_⟩
  exact
    { tasks := by
        have hTasks := h.tasks
        rw [List.append_assoc, List.cons_append] at hTasks
        rw [List.append_assoc, List.singleton_append, List.append_assoc]
        exact (List.perm_middle.symm.append_left committed).trans hTasks
      finished := List.map_append.symm
      steps := by
        unfold Level.records
        rw [h.steps, List.flatMap_append, List.flatMap_singleton]
        rfl
      known := by
        dsimp only
        rw [List.foldl_append, ← h.known] }

/-- Whatever is done next, tasks go on to run as if they were the first. -/
theorem next (hDue : level.Due solver resolution known)
    (h : state.Accounts solver level known committed pending)
    (hNext : Next solver state state') :
    ∃ committed' pending',
      state'.Accounts solver level known committed' pending' := by
  cases hNext with
  | @run task before after hWaiting =>
    exact ⟨committed, pending ++ [task], h.run hDue hWaiting⟩
  | @commit run before after hFinished =>
      obtain ⟨task, earlier, later, hCommitted⟩ := h.commit hFinished
      exact ⟨committed ++ [task], earlier ++ later, hCommitted⟩

/-- However a level is run, its tasks run as if they were the first. -/
private theorem exists_of_reachable (hDue : level.Due solver resolution known)
    {state : LevelState p} (h : state.Reachable solver level known) :
    ∃ committed pending,
      state.Accounts solver level known committed pending := by
  induction h with
  | refl => exact ⟨[], [], start⟩
  | tail _ hNext ih =>
      obtain ⟨committed, pending, hState⟩ := ih
      exact hState.next hDue hNext

/-- No task fails on the way. -/
private theorem succeeds (hDue : level.Due solver resolution known)
    (h : state.Accounts solver level known committed pending) :
    ∀ run ∈ state.finished, run.failure = none := by
  intro run hRun
  rw [h.finished] at hRun
  obtain ⟨task, hTask, rfl⟩ := List.mem_map.mp hRun
  apply hDue.succeeds task
  rw [← h.tasks.mem_iff]
  exact List.mem_append_right _ (List.mem_append_left _ hTask)

/-- In the end all records of the level have been committed, in some order. -/
private theorem steps_perm
    (h : state.Accounts solver level known committed pending)
    (hEnded : state.Ended) : state.steps.Perm (level.records solver known) := by
  have hPending := h.finished
  rw [hEnded.finished] at hPending
  have hTasks := h.tasks
  rw [List.map_eq_nil_iff.mp hPending.symm, hEnded.waiting, List.append_nil,
    List.append_nil] at hTasks
  rw [h.steps]
  exact hTasks.flatMap_right _

end Accounts

end LevelState

/-- In whatever order the tasks of a level are run and committed, none of them
fails, and in the end the level has come to what the solver makes of it. -/
theorem Level.Due.interleave {solver : Solver p} {resolution : Resolution}
    {known : Array (Option (Fp p))} {level : Level}
    (hDue : level.Due solver resolution known) {state : LevelState p}
    (h : state.Reachable solver level known) :
    (∀ run ∈ state.finished, run.failure = none) ∧
      (state.Ended → state.Agrees solver level known) := by
  obtain ⟨committed, pending, hState⟩ :=
    LevelState.Accounts.exists_of_reachable hDue h
  refine ⟨hState.succeeds hDue, fun hEnded => ?_⟩
  have hPerm := hState.steps_perm hEnded
  have hOwn : StepsOwn resolution.resolver state.steps :=
    hState.steps ▸ (hDue.part hState.tasks).own
  constructor
  · rw [hDue.runLevels_eq, hState.known]
    exact Solver.commitSteps_perm hOwn hPerm known
  · rw [hDue.runLevels_eq]
    exact fun count earlier later =>
      Solver.rowsOf_perm hOwn.nodup hPerm count earlier later

end RankOne
