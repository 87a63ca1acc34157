import RankOne.Proofs.Schedule.Circles
import RankOne.Proofs.Witness.Failure

/-!
# Solving ends, and ends cleanly

To run a hint is to run first the hints that it reads, as far as their outputs
are unknown. Nothing in the solver itself keeps this recursion from coming back
to a hint that is being run. It does not come back because the calls follow the
chains of reading hints, and a system on which such a chain leads back to its
start is not compiled in the first place. So the depth of the recursion is at
most the number of hints, and a guard against coming back would never act.

With that, a run cannot fault: it looks up wires, coefficients, constraints and
hints that are there, and what it writes has a place. It ends with a solution or
with an error that it reports.
-/

namespace RankOne

variable {p : Nat} [Modulus p]

namespace Solver

/-! ## The recursion over hints -/

/-- Runs a hint under a guard: `evaluating` lists the hints that are being run,
and a call that comes back to one of them, or that exceeds the bound on the
depth, ends with `stopped`. -/
def runHintGuarded (solver : Solver p)
    (stopped : Outcome SolveError (Progress p)) (view : View p) :
    Nat → List Nat → Nat → Hint p → Progress p → Outcome SolveError (Progress p)
  | 0, _, _, _, _ => stopped
  | levels + 1, evaluating, number, hint, progress =>
      if number ∈ evaluating then stopped
      else do
        if (← Outcome.ofFaulty (view.get progress hint.firstWire)).isSome then
          return progress
        let settled ← hint.terms.foldlM (solver.settleTerm view
          (runHintGuarded solver stopped view levels (number :: evaluating)))
            progress
        let inputs ← hint.inputs.mapM (solver.evaluateInput view settled)
        let outputs ← Outcome.ofExcept (solver.applyHint hint inputs)
        return settled.record number hint outputs

section Guard

variable {solver : Solver p} {view : View p}

omit [Modulus p] in
/-- Seeing to a term asks nothing of a way to run hints but to run the producer
of the wire. -/
private theorem settleTerm_run_congr {term : Term} {progress : Progress p}
    {run run' : Nat → Hint p → Progress p → Outcome SolveError (Progress p)}
    (h : ∀ source sourceHint,
      solver.system.hintFor? term.wire = some (source, sourceHint) →
      run source sourceHint progress = run' source sourceHint progress) :
    solver.settleTerm view run progress term =
      solver.settleTerm view run' progress term := by
  unfold settleTerm
  refine bind_congr fun read => ?_
  split
  · rfl
  · split
    · next source sourceHint hProducer => exact h source sourceHint hProducer
    · rfl

/-- Where no chain of reading hints goes on for ever, a hint runs under a guard
as it runs without one, once the bounds on the depth leave a level for every
hint that is not being run. -/
theorem runHintGuarded_eq (hSystem : solver.system.WellFormed)
    (hAcc : ∀ number, Acc solver.system.HintReads number)
    (stopped : Outcome SolveError (Progress p)) {levels levels' number : Nat}
    {evaluating : List Nat} {hint : Hint p}
    (hGet : solver.system.hints[number]? = some hint)
    (hWaiting : solver.system.Waiting number evaluating)
    (hLevels : solver.system.hints.size < evaluating.length + levels)
    (hLevels' : solver.system.hints.size < evaluating.length + levels')
    (progress : Progress p) :
    solver.runHintGuarded stopped view levels evaluating number hint progress =
      solver.runHint view levels' number hint progress := by
  have hLength := hWaiting.length_le
  induction levels generalizing levels' number evaluating hint progress with
  | zero => omega
  | succ levels ih =>
      cases levels' with
      | zero => omega
      | succ levels' =>
          have hNumber := (Array.getElem?_eq_some_iff.mp hGet).1
          -- Every call made from here follows an edge, and the hint joins those
          -- being run.
          have hSettle : ∀ term ∈ hint.terms, ∀ current,
              solver.settleTerm view
                  (solver.runHintGuarded stopped view levels
                    (number :: evaluating)) current term =
                solver.settleTerm view
                  (solver.runHint view levels') current term := by
            intro term hTerm current
            refine settleTerm_run_congr fun source sourceHint hProducer => ?_
            have hSource := (hSystem.hintFor?_eq_some_iff.mp hProducer).1
            have hReads : solver.system.HintReads source number :=
              ⟨hint, sourceHint, hGet, term, hTerm, hProducer⟩
            have hNext :=
              hWaiting.push (hWaiting.notMem (hAcc number)) hNumber hReads
            apply ih hSource hNext
            · rw [List.length_cons]
              omega
            · rw [List.length_cons]
              omega
            · exact hNext.length_le
          have hFold := foldlM_congr hSettle progress
          unfold runHintGuarded
          rw [if_neg (hWaiting.notMem (hAcc number)), hFold, runHint_succ]

end Guard

/-! ## Tasks -/

/-- A task that is run with the given wires known does not fault, and what it
has found out goes to rows of constraints and to places of wires. -/
structure TaskEndsCleanly (solver : Solver p) (known : Array (Option (Fp p)))
    (task : Task) : Prop where
  noFault : ∀ cause,
    (solver.runTask { known } task.nodes).failure ≠ some (.fault cause)
  rows : ∀ step ∈ (solver.runTask { known } task.nodes).steps,
    step.constraint < solver.system.numConstraints
  places : ∀ step ∈ (solver.runTask { known } task.nodes).steps,
    ∀ write ∈ step.writes, write.1 < known.size

/-- A task whose constraints are all run in their turn ends cleanly. -/
theorem taskEndsCleanly_of_turns [Fact p.Prime] {solver : Solver p}
    {resolution : Resolution} (hPlan : solver.system.Planned resolution)
    {known : Array (Option (Fp p))}
    (hSize : known.size = solver.system.layout.numWires) {task : Task}
    (hNodup : task.nodes.Nodup)
    (hTurns : ∀ node ∈ task.nodes, ∃ c cost, solver.system.constraints[node]? =
      some c ∧ solver.Turn resolution node c cost { known }) :
    solver.TaskEndsCleanly known task := by
  have hTaken : ∀ step ∈ (solver.runTask { known } task.nodes).steps,
      ∃ c, step.Taken solver resolution known c :=
    runTask_taken hNodup hTurns (fun _ _ _ _ => rfl)
  constructor
  · intro cause hFails
    obtain ⟨node, c, -, hExplained⟩ :=
      runTask_failure hNodup hTurns (fun _ _ _ _ => rfl) hFails
    exact hExplained
  · intro step hStep
    obtain ⟨c, hGet, -⟩ := hTaken step hStep
    exact (Array.getElem?_eq_some_iff.mp hGet).1
  · intro step hStep write hWrite
    obtain ⟨c, hStepTaken⟩ := hTaken step hStep
    have hWritten :=
      isSome_lookup_iff.mpr (List.mem_map_of_mem (f := Prod.fst) hWrite)
    have hOwner := (hStepTaken.sound.writes write.1).mp hWritten
    rw [hSize]
    exact (hPlan.resolved.bounded write.1 step.constraint hOwner).2.2

/-! ## Runs -/

/-- A run has a place for each wire it started with a place for. -/
private theorem size_runLevels (solver : Solver p) (levels : List Level)
    (known : Array (Option (Fp p))) :
    (solver.runLevels levels known).known.size = known.size := by
  induction levels generalizing known with
  | nil => rfl
  | cons level rest ih =>
      rw [runLevels]
      dsimp only
      split
      · rfl
      · dsimp only
        rw [ih, size_commitSteps]

/-- How a solver deals with some inputs, of whatever numbers, from the first
copy to the result. -/
structure EndsCleanly (solver : Solver p)
    (publicInputs secretInputs : List (Fp p)) : Prop where
  wellFormed : solver.system.WellFormed
  counts : solver.system.CountsFit
  inputs : solver.checkInputs publicInputs secretInputs = .ok () →
    publicInputs.length = solver.system.layout.numPublic.toNat - 1 ∧
      secretInputs.length =
        solver.system.layout.numInputs - solver.system.layout.numPublic.toNat
  /-- A hint is never entered while it is being run, and calls are never nested
  deeper than there are hints: it does not matter what would happen then. -/
  hints : ∀ (stopped : Outcome SolveError (Progress p))
    (view : View p) (levels number : Nat)
      (hint : Hint p) (progress : Progress p),
        solver.system.hints[number]? = some hint →
        solver.system.hints.size < levels →
          solver.runHintGuarded stopped view levels [] number hint progress =
            solver.runHint view
              (solver.system.hints.size + 1) number hint progress
  places : solver.checkInputs publicInputs secretInputs = .ok () → ∀ levels,
    (solver.runLevels levels
      (solver.initialValues publicInputs secretInputs)).known.size =
      solver.system.layout.numWires
  /-- All tasks of all levels that the run comes to end cleanly, also those of a
  level with a task that fails. -/
  tasks : solver.checkInputs publicInputs secretInputs = .ok () →
    ∀ before level after,
    solver.system.schedule.levels = before ++ level :: after →
      (solver.runLevels before
        (solver.initialValues publicInputs secretInputs)).failure = none →
        ∀ task ∈ level.tasks, solver.TaskEndsCleanly
          (solver.runLevels before
            (solver.initialValues publicInputs secretInputs)).known task
  result : (∃ solution, solver.solve publicInputs secretInputs = .ok solution) ∨
    ∃ e, solver.solve publicInputs secretInputs = .error (.reported e)

section Runs

variable [Fact p.Prime] {solver : Solver p} {resolution : Resolution}
  {publicInputs secretInputs : List (Fp p)}

/-- At every level that a run comes to, all tasks end cleanly. -/
private theorem level_endsCleanly (hPlan : solver.system.Planned resolution)
    (hFit : solver.system.CountsFit)
    (hInputs : solver.checkInputs publicInputs secretInputs = .ok ())
    {before after : List Level} {level : Level}
    (hSplit : solver.system.schedule.levels = before ++ level :: after)
    (hBefore : (solver.runLevels before
      (solver.initialValues publicInputs secretInputs)).failure = none) :
    ∀ task ∈ level.tasks, solver.TaskEndsCleanly
      (solver.runLevels before
        (solver.initialValues publicInputs secretInputs)).known task := by
  have hStart := knows_initialValues hPlan hFit hInputs
  obtain ⟨hSize, hNodup, hTurns⟩ :=
    reached_turns hPlan hFit.inputs_le hSplit hStart hBefore
  intro task hTask
  apply taskEndsCleanly_of_turns hPlan hSize
    ((List.nodup_flatMap.mp hNodup).1 task hTask)
  intro node hNode
  exact hTurns node (List.mem_flatMap.mpr ⟨task, hTask, hNode⟩)

/-- A run that fails has found something to report. -/
private theorem exists_result (hPlan : solver.system.Planned resolution)
    (hCounts : solver.system.countsFit = true) :
    (∃ solution, solver.solve publicInputs secretInputs = .ok solution) ∨
      ∃ e, solver.solve publicInputs secretInputs = .error (.reported e) := by
  cases hSolve : solver.solve publicInputs secretInputs with
  | ok solution => exact Or.inl ⟨solution, rfl⟩
  | error failure =>
      cases failure with
      | reported e => exact Or.inr ⟨e, rfl⟩
      | fault cause =>
          have hWrapped := (solve_eq_fault hPlan hSolve).1
          rw [hCounts] at hWrapped
          cases hWrapped

/-- A planned run ends cleanly when no chain of reading hints goes on for ever
and no sum of counts wraps around. -/
private theorem endsCleanly_of_planned
    (hPlan : solver.system.Planned resolution)
    (hAcc : ∀ number, Acc solver.system.HintReads number)
    (hCounts : solver.system.countsFit = true) :
    solver.EndsCleanly publicInputs secretInputs := by
  have hFit := ValidSystem.countsFit_spec hCounts
  exact
    { wellFormed := hPlan.wellFormed
      counts := hFit
      inputs := by
        intro hInputs
        have hLengths := checkInputs_eq_ok hInputs
        refine ⟨hLengths.1, ?_⟩
        rw [hLengths.2, hFit.numInputs_eq]
        omega
      hints := by
        intro stopped view levels number hint progress hGet hLevels
        apply runHintGuarded_eq hPlan.wellFormed hAcc stopped hGet
          ValidSystem.Waiting.start
        · rw [List.length_nil]
          omega
        · rw [List.length_nil]
          omega
      places := by
        intro hInputs levels
        rw [size_runLevels]
        exact (knows_initialValues hPlan hFit hInputs).size
      tasks := by
        intro hInputs before level after hSplit hBefore
        exact level_endsCleanly hPlan hFit hInputs hSplit hBefore
      result := exists_result hPlan hCounts }

end Runs

/-- The resolution of a hint of a valid system ends, whether the hint is on a
circle or not. Hints that read each other, or themselves, in a circle of
whatever length keep a valid system from being scheduled and compiled. And
whatever is compiled ends cleanly when it is solved, on all inputs and with all
functions of the custom hints, if the counts of wires do not wrap around and the
constraints are no more than memory can address. -/
theorem ends_cleanly [Fact p.Prime] (settings : SchedulerSettings)
    (flat : FlatSystem p) :
    (∀ valid, flat.validate = .ok valid →
      (∀ exceeded node levels number hint state,
        valid.hints[number]? = some hint →
        valid.hints.size < levels →
          valid.resolveHintWithin exceeded node levels [] number hint state =
            valid.resolveHint node (valid.hints.size +
              1) [] number hint state) ∧
        ∀ number, Relation.TransGen valid.HintReads number number →
          ∃ cause, cause.BlamesHint ∧
            Schedule.ofSystem settings valid = .error cause ∧
            CompiledSystem.compile settings flat = .error (.fault cause)) ∧
      ∀ solver : Solver p,
        CompiledSystem.compile settings flat = .ok solver.system →
        flat.layout.numPublic.toNat + flat.layout.numSecret.toNat +
            flat.layout.numInternal.toNat < 2 ^ 64 →
          flat.constraints.size < 2 ^ 63 →
            ∀ publicInputs secretInputs,
              solver.EndsCleanly publicInputs secretInputs := by
  constructor
  · intro valid hValid
    constructor
    · intro exceeded node levels number hint state hGet hLevels
      have hSystem := (FlatSystem.validate_wellFormed hValid).2
      apply ValidSystem.resolveHintWithin_eq hSystem exceeded hGet
        ValidSystem.Waiting.start
      · rw [List.length_nil]
        omega
      · rw [List.length_nil]
        omega
    · intro number hCircle
      obtain ⟨cause, hBlames, hSchedule⟩ :=
        Schedule.ofSystem_of_circle hValid hCircle
      exact ⟨cause, hBlames, hSchedule,
        CompiledSystem.compile_eq_fault hValid hSchedule⟩
  · intro solver hCompile hWires hSize publicInputs secretInputs
    obtain ⟨resolution, hResolution, hPlan⟩ :=
      CompiledSystem.compile_resolution hCompile
    obtain ⟨valid, hValid, schedule, -, hSystem⟩ :=
      CompiledSystem.compile_eq_ok.mp hCompile
    have hSame : solver.system.toValidSystem = valid := by rw [← hSystem]
    have hFlat : solver.system.toFlatSystem = flat := by
      rw [hSame]
      exact (FlatSystem.validate_wellFormed hValid).1
    have hAcc : ∀ number, Acc solver.system.HintReads number := by
      rw [← hSame] at hValid
      exact ValidSystem.accessible_of_resolution hValid hResolution
    have hCounts : solver.system.countsFit = true := by
      apply hPlan.wellFormed.countsFit
      · rw [hFlat]
        unfold Layout.numWires
        rw [UInt64.toNat_add, UInt64.toNat_add]
        omega
      · rw [hFlat]
        exact hSize
    exact endsCleanly_of_planned hPlan hAcc hCounts

end Solver

/-- A system whose wires are one and three internal wires. A hint sets the first
two, and reads the third, which another hint sets from the second. -/
def circularSystem : FlatSystem 17 where
  layout := ⟨1, 0, 3⟩
  constraints := #[⟨[⟨0, 1⟩], [⟨0, 2⟩], [⟨0, 3⟩]⟩]
  coefficients := #[1]
  hints := #[
    ⟨.custom 7, [.expression [⟨0, 3⟩]], [1, 2]⟩,
    ⟨.isZero, [.constant 4, .expression [⟨0, 2⟩]], [3]⟩]

/-- The two hints keep the system from being compiled; the system of squares is
compiled, and ends cleanly on inputs of the right and of wrong numbers. -/
theorem Solver.ends_cleanly_square :
    (∃ valid cause, circularSystem.validate = .ok valid ∧
      Relation.TransGen valid.HintReads 0 0 ∧ cause.BlamesHint ∧
        CompiledSystem.compile {} circularSystem = .error (.fault cause)) ∧
      ∃ solver : Solver 17,
        CompiledSystem.compile {} squareSystem = .ok solver.system ∧
        solver.EndsCleanly [Fp.ofNat 17 8] [Fp.ofNat 17 5] ∧
          solver.EndsCleanly [] [Fp.ofNat 17 8, Fp.ofNat 17 5] := by
  constructor
  · obtain ⟨valid, hValid⟩ : ∃ valid, circularSystem.validate = .ok valid :=
      isSome_toOption.mp (by decide +kernel)
    obtain ⟨hFlat, hSystem⟩ := FlatSystem.validate_wellFormed hValid
    have hFirst : valid.hints[0]? = circularSystem.hints[0]? := by rw [hFlat]
    have hSecond : valid.hints[1]? = circularSystem.hints[1]? := by rw [hFlat]
    have hAbove : valid.HintReads 1 0 := ⟨_, _, hFirst, ⟨0, 3⟩, by decide,
      hSystem.hintFor?_eq_some_iff.mpr ⟨hSecond, by decide⟩⟩
    have hBelow : valid.HintReads 0 1 := ⟨_, _, hSecond, ⟨0, 2⟩, by decide,
      hSystem.hintFor?_eq_some_iff.mpr ⟨hFirst, by decide⟩⟩
    have hCircle := (Relation.TransGen.single hBelow).tail hAbove
    obtain ⟨cause, hBlames, -, hFault⟩ :=
      ((ends_cleanly {} circularSystem).1 valid hValid).2 0 hCircle
    exact ⟨valid, cause, hValid, hCircle, hBlames, hFault⟩
  · obtain ⟨system, hCompile⟩ : ∃ system,
        CompiledSystem.compile {} squareSystem = .ok system :=
      isSome_toOption.mp (by decide +kernel)
    have hEnds :=
      (ends_cleanly {} squareSystem).2 (ofSystem system) hCompile (by decide)
        (by decide)
    exact ⟨ofSystem system, hCompile, hEnds _ _, hEnds _ _⟩

end RankOne
