import RankOne.Proofs.Schedule.Coherence
import RankOne.Proofs.Witness.Interleaving

/-!
# One resolver for every wire

The solver knows nothing of the resolution pass. At each constraint it finds out
from the wires that are unknown which hints to run and which wire to solve for.
Yet in a run that comes to the end of the last level every wire that is not an
input is written once and every hint is run once, by the constraint that the
pass has recorded: the first one, in the order of the constraints, that has a
use for it. So the constraints of a level do not interfere, and its tasks may be
run and committed in any order.

## Main results

* `ValidSystem.ResolvedFirst` — the pass records the first constraints;
* `Solver.Shares` — each constraint writes and runs what the pass has recorded;
* `Solver.Independent` — the tasks of a level do not interfere;
* `Solver.run_resolved` — all of it, for every run that completes all levels.
-/

namespace RankOne

variable {p : Nat}

/-! ## First constraints -/

/-- The pass has found a resolver for every wire and hint: the first constraint
that mentions a plain wire, and the first that calls for a hint. -/
structure ValidSystem.ResolvedFirst (system : ValidSystem p)
    (resolver : Std.TreeMap Nat Nat) : Prop where
  plain : ∀ wire, system.layout.numInputs ≤ wire →
    wire < system.layout.numWires →
    system.hintFor? wire = none →
      ∃ owner, resolver[wire]? = some owner ∧
        IsLeast {node | system.Mentions node wire} owner
  hint : ∀ (number : Nat) (hint : Hint p), system.hints[number]? = some hint →
    ∃ owner, (∀ wire ∈ hint.wires, resolver[wire]? = some owner) ∧
      IsLeast {node | system.CallsFor resolver number node} owner

/-- The outputs of a hint have one resolver. -/
private theorem Solver.exists_hintResolver {solver : Solver p}
    {resolution : Resolution} (hPlan : solver.system.Planned resolution)
    (hFit : solver.system.CountsFit) {number : Nat} {hint : Hint p}
    (hGet : solver.system.hints[number]? = some hint) :
    ∃ owner, ∀ wire ∈ hint.wires, resolution.resolver[wire]? = some owner := by
  have hFirst := hPlan.wellFormed.firstWire_mem hGet
  obtain ⟨hLow, hHigh⟩ :=
    hPlan.wellFormed.outputs_internal number hint hGet _ hFirst
  obtain ⟨owner, hOwner⟩ := exists_resolver hPlan hFit hLow hHigh
  exact ⟨owner, fun wire hWire =>
    (hPlan.resolved.whole number hint hGet wire hWire _ hFirst).trans hOwner⟩

private theorem Solver.resolvedFirst {solver : Solver p}
    {resolution : Resolution} (hPlan : solver.system.Planned resolution)
    (hFit : solver.system.CountsFit) :
    solver.system.ResolvedFirst resolution.resolver where
  plain := by
    intro wire hLow hHigh hPlain
    obtain ⟨owner, hOwner⟩ := exists_resolver hPlan hFit hLow hHigh
    exact ⟨owner, hOwner,
      hPlan.resolved.coherent.isLeast_plain hPlan.wellFormed hPlain hOwner⟩
  hint := by
    intro number hint hGet
    have hFirst := hPlan.wellFormed.firstWire_mem hGet
    obtain ⟨owner, hOwner⟩ := exists_hintResolver hPlan hFit hGet
    exact ⟨owner, hOwner,
      hPlan.resolved.coherent.isLeast_hint hPlan.wellFormed hGet hFirst
      (hOwner _ hFirst)⟩

/-! ## Each once -/

/-- The wires that a constraint wrote, with repetitions. -/
def Step.written (step : Step p) : List Nat := step.writes.map Prod.fst

/-- Items that belong to the constraints of a run and of which each constraint
lists its own, once, are listed once in all. -/
private theorem perm_flatMap_of_owner (owner : Nat → Option Nat)
    {steps : List (Step p)} {listed : Step p → List Nat} {items : List Nat}
    (hSteps : (steps.map Step.constraint).Nodup)
    (hNodup : ∀ step ∈ steps, (listed step).Nodup)
    (hListed : ∀ step ∈ steps, ∀ item, item ∈ listed step ↔
      owner item = some step.constraint) (hItems : items.Nodup)
    (hOwner : ∀ item, item ∈ items ↔
      ∃ node ∈ steps.map Step.constraint, owner item = some node) :
    (steps.flatMap listed).Perm items := by
  refine (List.perm_ext_iff_of_nodup ?_ hItems).mpr fun item => ?_
  · refine List.nodup_flatMap.mpr ⟨hNodup, ?_⟩
    refine (List.pairwise_map.mp hSteps).imp_of_mem ?_
    intro step other hStep hOther hDistinct item hItem hItem'
    rw [hListed step hStep] at hItem
    rw [hListed other hOther, hItem] at hItem'
    injection hItem' with hSame
    exact hDistinct hSame
  · rw [hOwner item, List.mem_flatMap]
    constructor
    · rintro ⟨step, hStep, hItem⟩
      exact ⟨step.constraint, List.mem_map_of_mem hStep,
        (hListed step hStep item).mp hItem⟩
    · rintro ⟨node, hNode, hItem⟩
      obtain ⟨step, hStep, rfl⟩ := List.mem_map.mp hNode
      exact ⟨step, hStep, (hListed step hStep item).mpr hItem⟩

variable [Modulus p]

namespace Solver

variable {solver : Solver p} {resolution : Resolution}
  {publicInputs secretInputs : List (Fp p)}

/-- How the wires and the hints are shared out among the constraints of a
run. -/
structure Shares (solver : Solver p) (resolver : Std.TreeMap Nat Nat)
    (steps : List (Step p)) : Prop where
  wires : (steps.flatMap Step.written).Perm
    (List.range' solver.system.layout.numInputs
    (solver.system.layout.numWires - solver.system.layout.numInputs))
  hints : (steps.flatMap fun step =>
    step.hints).Perm (List.range solver.system.hints.size)
  writer : ∀ step ∈ steps, ∀ wire ∈ step.written,
    resolver[wire]? = some step.constraint
  runner : ∀ step ∈ steps, ∀ number ∈ step.hints, ∃ hint : Hint p,
    solver.system.hints[number]? = some hint ∧
      ∀ wire ∈ hint.wires, resolver[wire]? = some step.constraint

/-- A run of `solve` that completes all levels: it was given inputs of the right
numbers, no sum of counts wraps around, and no constraint failed. -/
structure Completes (solver : Solver p)
    (publicInputs secretInputs : List (Fp p)) : Prop where
  inputs : solver.checkInputs publicInputs secretInputs = .ok ()
  counts : solver.system.countsFit = true
  levels : (solver.trace publicInputs secretInputs).failure = none

/-- A run that ends with a solution has completed all levels. -/
private theorem completes_of_solve {solution : Solution p}
    (h : solver.solve publicInputs secretInputs = .ok solution) :
    solver.Completes publicInputs secretInputs := by
  obtain ⟨hInputs, hCounts, hLevels, -⟩ := solve_eq_ok h
  exact ⟨hInputs, hCounts, hLevels⟩

private theorem Completes.knows (h : solver.Completes publicInputs secretInputs)
    (hPlan : solver.system.Planned resolution) :
    Knows solver.system.toValidSystem resolution.resolver []
      (solver.initialValues publicInputs secretInputs) :=
  knows_initialValues hPlan (ValidSystem.countsFit_spec h.counts) h.inputs

section Shares

variable {steps : List (Step p)} (hPlan : solver.system.Planned resolution)
  (hFit : solver.system.CountsFit)
  (hPerm : (steps.map Step.constraint).Perm
    (List.range solver.system.constraints.size))
  (hSound : ∀ step ∈ steps, ∃ known c, step.Sound solver resolution known c)
include hPlan

omit [Modulus p] in
include hPerm in
/-- Every resolver has been run. -/
private theorem mem_of_owner {wire owner : Nat}
    (hOwner : resolution.resolver[wire]? = some owner) :
    owner ∈ steps.map Step.constraint := by
  rw [hPerm.mem_iff, List.mem_range]
  exact (hPlan.resolved.bounded wire owner hOwner).1

include hSound

omit hPlan in
private theorem mem_written : ∀ step ∈ steps, ∀ wire,
    wire ∈ step.written ↔
      resolution.resolver[wire]? = some step.constraint := by
  intro step hStep wire
  obtain ⟨known, c, hStepSound⟩ := hSound step hStep
  rw [← hStepSound.writes wire, isSome_lookup_iff]
  rfl

include hFit hPerm

/-- When all constraints have been run, every wire that is no input has been
written once. -/
private theorem written_perm : (steps.flatMap Step.written).Perm
    (List.range' solver.system.layout.numInputs
      (solver.system.layout.numWires - solver.system.layout.numInputs)) := by
  refine perm_flatMap_of_owner (fun wire => resolution.resolver[wire]?)
    (hPerm.nodup_iff.mpr List.nodup_range) ?_
      (mem_written hSound) List.nodup_range' ?_
  · intro step hStep
    obtain ⟨known, c, hStepSound⟩ := hSound step hStep
    exact hStepSound.nodup_writes
  · intro wire
    have hCount := hFit.inputs_le
    rw [List.mem_range'_1]
    constructor
    · rintro ⟨hLow, hHigh⟩
      obtain ⟨owner, hOwner⟩ := exists_resolver hPlan hFit hLow (by omega)
      exact ⟨owner, mem_of_owner hPlan hPerm hOwner, hOwner⟩
    · rintro ⟨owner, -, hOwner⟩
      obtain ⟨-, hLow, hHigh⟩ := hPlan.resolved.bounded wire owner hOwner
      omega

/-- Every hint has been run once. -/
private theorem hints_perm :
    (steps.flatMap fun step =>
      step.hints).Perm (List.range solver.system.hints.size) := by
  refine perm_flatMap_of_owner
    (fun number => (solver.system.hints[number]?).bind fun hint =>
      resolution.resolver[hint.firstWire]?)
    (hPerm.nodup_iff.mpr List.nodup_range) ?_ ?_ List.nodup_range ?_
  · intro step hStep
    obtain ⟨known, c, hStepSound⟩ := hSound step hStep
    exact hStepSound.nodup_hints
  · intro step hStep number
    obtain ⟨known, c, hStepSound⟩ := hSound step hStep
    rw [hStepSound.mem_hints, Option.bind_eq_some_iff]
  · intro number
    rw [List.mem_range]
    constructor
    · intro hNumber
      have hGet := Array.getElem?_eq_getElem hNumber
      obtain ⟨owner, hOutputs⟩ := exists_hintResolver hPlan hFit hGet
      have hOwner := hOutputs _ (hPlan.wellFormed.firstWire_mem hGet)
      exact ⟨owner, mem_of_owner hPlan hPerm hOwner,
        Option.bind_eq_some_iff.mpr ⟨_, hGet, hOwner⟩⟩
    · rintro ⟨owner, -, hOwner⟩
      obtain ⟨hint, hGet, -⟩ := Option.bind_eq_some_iff.mp hOwner
      exact (Array.getElem?_eq_some_iff.mp hGet).1

/-- The constraints share out the wires and hints as the pass has recorded. -/
private theorem shares_of_sound : solver.Shares resolution.resolver steps where
  wires := written_perm hPlan hFit hPerm hSound
  hints := hints_perm hPlan hFit hPerm hSound
  writer :=
    fun step hStep wire hWire => (mem_written hSound step hStep wire).mp hWire
  runner := by
    intro step hStep number hNumber
    obtain ⟨known, c, hStepSound⟩ := hSound step hStep
    obtain ⟨hint, hGet, hOwner⟩ := (hStepSound.mem_hints number).mp hNumber
    refine ⟨hint, hGet, fun wire hWire => ?_⟩
    exact (hPlan.resolved.whole number hint hGet wire hWire _
      (hPlan.wellFormed.firstWire_mem hGet)).trans hOwner

end Shares

private theorem Completes.shares
    (h : solver.Completes publicInputs secretInputs)
    (hPlan : solver.system.Planned resolution) :
    solver.Shares resolution.resolver
      (solver.trace publicInputs secretInputs).steps := by
  have hFit := ValidSystem.countsFit_spec h.counts
  obtain ⟨hConstraints, -, -, hSteps⟩ := runLevels_sound hPlan hFit.inputs_le
    [] List.prefix_rfl (h.knows hPlan) h.levels
  refine shares_of_sound hPlan hFit ?_ fun step hStep => ?_
  · rw [← hPlan.resolved.length_costs]
    exact hConstraints ▸ hPlan.ordered.perm
  · obtain ⟨⟨c, known, hTaken, -⟩, -⟩ := hSteps step hStep
    exact ⟨known, c, hTaken.sound⟩

/-! ## The levels of a run -/

/-- The turn of every level of a run that completes all levels comes, and none
of its tasks fails. -/
private theorem Completes.due (h : solver.Completes publicInputs secretInputs)
    (hPlan : solver.system.Planned resolution) {before after : List Level}
    {level : Level}
    (hSplit : solver.system.schedule.levels = before ++ level :: after) :
    level.Due solver resolution
      (solver.runLevels before
        (solver.initialValues publicInputs secretInputs)).known := by
  have hFit := ValidSystem.countsFit_spec h.counts
  have hLevels := h.levels
  unfold trace at hLevels
  rw [hSplit, failure_runLevels_append, Option.or_eq_none_iff] at hLevels
  obtain ⟨hBefore, hRest⟩ := hLevels
  obtain ⟨-, hNodup, hTurns⟩ :=
    reached_turns hPlan hFit.inputs_le hSplit (h.knows hPlan) hBefore
  refine ⟨hNodup, hTurns, fun task hTask => ?_⟩
  unfold runLevels at hRest
  dsimp only at hRest
  split at hRest
  · cases hRest
  next hFailure =>
  exact List.findSome?_eq_none_iff.mp hFailure _ (List.mem_map_of_mem hTask)

/-! ## The tasks of a level -/

end Solver

/-- A constraint that was run reads a wire, itself or through a hint that it
ran. -/
def Step.Reads (solver : Solver p) (step : Step p) (wire : Nat) : Prop :=
  solver.system.Mentions step.constraint wire ∨
    ∃ number ∈ step.hints, ∃ hint : Hint p,
    solver.system.hints[number]? = some hint ∧
      ∃ term ∈ hint.terms, term.wire = wire

/-- The wires that a task writes. -/
def Solver.written (solver : Solver p) (known : Array (Option (Fp p)))
    (task : Task) : List Nat :=
  (solver.runTask { known } task.nodes).steps.flatMap Step.written

/-- The tasks of a level that is run with what is known before it do not
interfere. -/
structure Solver.Independent (solver : Solver p) (known : Array (Option (Fp p)))
    (level : Level) : Prop where
  writes : level.tasks.Pairwise fun task other =>
    (solver.written known task).Disjoint (solver.written known other)
  reads : ∀ step ∈ level.records solver known,
    ∀ other ∈ level.records solver known,
    step.constraint ≠ other.constraint → ∀ wire, step.Reads solver wire →
      wire ∉ other.written
  /-- The tasks may be run in any order, and be committed in any order and at
  any time after they have been run. None fails, there is always a way to the
  end, and in the end the level has come to what the solver makes of it. -/
  orders : ∀ state : LevelState p, state.Reachable solver level known →
    (∀ run ∈ state.finished, run.failure = none) ∧
      (∃ final, Relation.ReflTransGen (LevelState.Next solver) state final ∧
        final.Ended) ∧
      (state.Ended → state.Agrees solver level known)

namespace Level.Due

variable {solver : Solver p} {resolution : Resolution}
  {known : Array (Option (Fp p))} {level : Level}
  (h : level.Due solver resolution known)
include h

private theorem mem_written : ∀ step ∈ level.records solver known, ∀ wire,
    wire ∈ step.written ↔ resolution.resolver[wire]? = some step.constraint :=
  Solver.mem_written fun step hStep =>
    have ⟨c, hTaken⟩ := h.records_sound.2 step hStep
    ⟨known, c, hTaken.sound⟩

/-- What a constraint of the level reads is settled for it. -/
private theorem settled {step : Step p}
    (hStep : step ∈ level.records solver known) {wire : Nat}
    (hReads : step.Reads solver wire) : ∃ c cost recent,
      solver.Turn resolution step.constraint c cost ⟨known, recent⟩ ∧
        SettledFor solver.system.toValidSystem resolution.resolver
          cost.dependencies step.constraint wire := by
  obtain ⟨c, hTaken⟩ := h.records_sound.2 step hStep
  have ⟨hGet, cost, recent, hTurn, _⟩ := hTaken
  refine ⟨c, cost, recent, hTurn, ?_⟩
  rcases hReads with
    ⟨c', hGet', term, hTerm, rfl⟩ | ⟨number, hNumber, hint, hHint,
      term, hTerm, rfl⟩
  · rw [hGet] at hGet'
    injection hGet' with hSame
    exact hTurn.nodeResolved.settled term (hSame ▸ hTerm)
  · obtain ⟨hint', hHint', hOwner⟩ := (hTaken.sound.mem_hints number).mp hNumber
    rw [hHint] at hHint'
    injection hHint' with hSame
    subst hSame
    exact hTurn.nodeResolved.hintSettled number hint hHint _
      (hTurn.wellFormed.firstWire_mem hHint) hOwner term hTerm

/-- What a constraint reads and does not resolve was known before the level, and
nothing that is known is written. -/
private theorem not_reads {step other : Step p}
    (hStep : step ∈ level.records solver known)
    (hOther : other ∈ level.records solver known)
    (hDistinct : step.constraint ≠ other.constraint) {wire : Nat}
    (hReads : step.Reads solver wire) : wire ∉ other.written := by
  intro hWritten
  have hOwner := (h.mem_written other hOther wire).mp hWritten
  obtain ⟨c, cost, recent, hTurn, hSettled⟩ := h.settled hStep hReads
  obtain ⟨value, hKnown⟩ := hTurn.others wire hSettled (by
    rw [hOwner]
    exact fun hSame => hDistinct (Option.some.inj hSame).symm)
  obtain ⟨c', -, cost', recent', hTurn', -⟩ := h.records_sound.2 other hOther
  rw [(hTurn'.own wire hOwner).1] at hKnown
  cases hKnown

/-- A wire that a task writes is resolved by one of its constraints. -/
private theorem owner_of_written {task : Task} (hTask : task ∈ level.tasks)
    {wire : Nat} (hWire : wire ∈ solver.written known task) :
    ∃ node ∈ task.nodes, resolution.resolver[wire]? = some node := by
  have hAlone :=
    h.part (show ([task] ++ level.tasks.erase task).Perm level.tasks from
      (List.perm_cons_erase hTask).symm)
  have hRecords : Level.records solver known ⟨[task]⟩ =
      (solver.runTask { known } task.nodes).steps := List.flatMap_singleton _ _
  have hNodes : Level.nodes ⟨[task]⟩ = task.nodes := List.flatMap_singleton _ _
  obtain ⟨step, hStep, hMem⟩ := List.mem_flatMap.mp hWire
  rw [← hRecords] at hStep
  refine ⟨step.constraint, ?_, (hAlone.mem_written step hStep wire).mp hMem⟩
  rw [← hNodes, ← hAlone.records_sound.1]
  exact List.mem_map_of_mem hStep

/-- No two tasks write the same wire, since they have no constraint in
common. -/
private theorem pairwise_written : level.tasks.Pairwise fun task other =>
    (solver.written known task).Disjoint (solver.written known other) := by
  refine (List.nodup_flatMap.mp h.nodup).2.imp_of_mem ?_
  intro task other hTask hOther hApart wire hWire hWire'
  obtain ⟨node, hNode, hOwner⟩ := h.owner_of_written hTask hWire
  obtain ⟨node', hNode', hOwner'⟩ := h.owner_of_written hOther hWire'
  rw [hOwner] at hOwner'
  injection hOwner' with hSame
  exact hApart hNode (hSame ▸ hNode')

private theorem independent : solver.Independent known level where
  writes := h.pairwise_written
  reads := fun _ hStep _ hOther hDistinct _ hReads =>
    h.not_reads hStep hOther hDistinct hReads
  orders := by
    intro state hReach
    obtain ⟨hSucceeds, hSame⟩ := h.interleave hReach
    exact ⟨hSucceeds, LevelState.exists_end solver state, hSame⟩

end Level.Due

namespace Solver

/-- In every run that completes all levels there is one resolver for every wire
and every hint, the one that the resolution pass has recorded, and the tasks of
a level do not interfere. -/
theorem run_resolved {settings : SchedulerSettings} {flat : FlatSystem p}
    {solver : Solver p} {publicInputs secretInputs : List (Fp p)}
    (hCompile : CompiledSystem.compile settings flat = .ok solver.system)
    (hRun : solver.Completes publicInputs secretInputs) :
    ∃ resolution, solver.system.resolution = .ok resolution ∧
      solver.system.ResolvedFirst resolution.resolver ∧
      solver.Shares resolution.resolver
        (solver.trace publicInputs secretInputs).steps ∧
      ∀ before level after,
        solver.system.schedule.levels = before ++ level :: after →
        solver.Independent
          (solver.runLevels before
            (solver.initialValues publicInputs secretInputs)).known
          level := by
  obtain ⟨resolution, hResolution, hPlan⟩ :=
    CompiledSystem.compile_resolution hCompile
  refine ⟨resolution, hResolution,
    resolvedFirst hPlan (ValidSystem.countsFit_spec hRun.counts),
    hRun.shares hPlan, fun before level after hSplit => ?_⟩
  exact (hRun.due hPlan hSplit).independent

end Solver

/-- So it is in the run for the square of five, where the second hint is run for
the first. -/
theorem run_resolved_square : ∃ solver : Solver 17,
    CompiledSystem.compile {} squareSystem = .ok solver.system ∧
      solver.Completes [Fp.ofNat 17 8] [Fp.ofNat 17 5] ∧
      ((solver.trace [Fp.ofNat 17 8] [Fp.ofNat 17 5]).steps.map fun step =>
        (step.constraint, step.written, step.hints)) =
          [(0, [3], []), (2, [6, 5], [1, 0]), (1, [4], []), (4, [], []),
            (3, [], [])] ∧
      ∃ resolution, solver.system.resolution = .ok resolution ∧
        solver.system.ResolvedFirst resolution.resolver ∧
        solver.Shares resolution.resolver
          (solver.trace [Fp.ofNat 17 8] [Fp.ofNat 17 5]).steps ∧
        ∀ before level after,
          solver.system.schedule.levels = before ++ level :: after →
          solver.Independent
            (solver.runLevels before
              (solver.initialValues [Fp.ofNat 17 8] [Fp.ofNat 17 5])).known
                level := by
  have hRun :
      ((CompiledSystem.compile {} squareSystem).toOption.any fun system =>
        decide (((Solver.ofSystem system).solve [Fp.ofNat 17 8]
          [Fp.ofNat 17 5]).toOption.isSome ∧
          (((Solver.ofSystem system).trace [Fp.ofNat 17 8]
            [Fp.ofNat 17 5]).steps.map fun step =>
            (step.constraint, step.written, step.hints)) =
              [(0, [3], []), (2, [6, 5], [1, 0]), (1, [4], []), (4, [], []),
                (3, [], [])])) =
        true := by
    decide +kernel
  simp only [Option.any_eq_true, toOption_eq_some, decide_eq_true_eq,
    isSome_toOption] at hRun
  obtain ⟨system, hCompile, ⟨solution, hSolve⟩, hSteps⟩ := hRun
  have hCompletes := Solver.completes_of_solve hSolve
  exact ⟨Solver.ofSystem system, hCompile, hCompletes, hSteps,
    Solver.run_resolved hCompile hCompletes⟩

end RankOne
