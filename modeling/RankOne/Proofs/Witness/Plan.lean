import RankOne.Proofs.Witness.Failure

/-!
# What a run does whatever its inputs are

Which wires a constraint sees when its turn comes is settled by the schedule: a
wire is unknown to it exactly when the constraint resolves it and has not
written it yet. The values play no part in this, and nothing else decides which
hints are run and which wires are written. So the constraint does the same in
every run that comes past it, on whatever inputs and with whatever functions of
the custom hints, and a system that has once stopped for its shape is solved on
no inputs at all.

## Main results

* `Solver.Turn.isSome_get_iff` — which wires a constraint sees;
* `Solver.Turn.runConstraint_samePlan` — in two runs a constraint does the same;
* `Solver.Processed.taken` — also in a run that fails, constraints are run in
  their turn;
* `Solver.plan_independent` — the plan of a system does not depend on the
  inputs.
-/

namespace RankOne

variable {p : Nat}

/-! ## Two runs -/

namespace Progress

/-- Two runs have come equally far: they have written the same wires and run the
same hints, in the same order. -/
structure SamePlan (progress progress' : Progress p) : Prop where
  written : progress'.writes.map Prod.fst = progress.writes.map Prod.fst
  hints : progress'.hints = progress.hints

private theorem SamePlan.start : SamePlan ({} : Progress p) {} := ⟨rfl, rfl⟩

private theorem SamePlan.symm {progress progress' : Progress p}
    (h : SamePlan progress progress') : SamePlan progress' progress :=
  ⟨h.written.symm, h.hints.symm⟩

/-- Recording a hint keeps two runs together, whatever its function has
yielded. -/
private theorem SamePlan.record {progress progress' : Progress p}
    (h : SamePlan progress progress') {number : Nat} {hint : Hint p}
    {outputs outputs' : List (Fp p)}
    (hLength : outputs.length = hint.wires.length)
    (hLength' : outputs'.length = hint.wires.length) :
    SamePlan (progress.record number hint outputs)
      (progress'.record number hint outputs') where
  written := by
    simp only [Progress.record, List.map_append, List.map_reverse]
    rw [List.map_fst_zip (by omega), List.map_fst_zip (by omega), h.written]
  hints := by
    simp only [Progress.record]
    rw [h.hints]

end Progress

namespace Solver.Turn

section Sees

variable {solver : Solver p} {resolution : Resolution} {node : Nat}
  {c : Constraint} {cost : NodeCost} {view : View p}
  (hTurn : solver.Turn resolution node c cost view)
include hTurn

/-- A constraint sees a wire unless it resolves the wire itself and has not
written it yet. -/
theorem isSome_get_iff {wire : Nat}
    (hSettled : SettledFor solver.system.toValidSystem resolution.resolver
      cost.dependencies node wire) {progress : Progress p}
    {read : Option (Fp p)} (h : view.get progress wire = .ok read) :
    read.isSome ↔ (resolution.resolver[wire]? = some node →
      wire ∈ progress.writes.map Prod.fst) := by
  by_cases hOwner : resolution.resolver[wire]? = some node
  · rw [hTurn.get_own hOwner] at h
    injection h with h
    rw [← h, isSome_lookup_iff]
    simp [hOwner]
  · obtain ⟨value, -, hGet⟩ := hTurn.get_other hSettled hOwner
    rw [hGet progress] at h
    injection h with h
    simp [← h, hOwner]

end Sees

variable {system : CompiledSystem p}
  {functions functions' : Std.TreeMap Nat (HintFunction p)}
  {resolution : Resolution} {node : Nat} {c : Constraint}
  {cost cost' : NodeCost} {view view' : View p}
  (hTurn : Solver.Turn ⟨system, functions⟩ resolution node c cost view)
  (hTurn' : Solver.Turn ⟨system, functions'⟩ resolution node c cost' view')
include hTurn hTurn'

/-- In two runs that have come equally far a constraint sees the same wires. -/
private theorem isSome_get_congr {wire : Nat}
    (hSettled : SettledFor system.toValidSystem resolution.resolver
      cost.dependencies node wire)
    (hSettled' : SettledFor system.toValidSystem resolution.resolver
      cost'.dependencies node wire) {progress progress' : Progress p}
    (hSame : progress.SamePlan progress') {read read' : Option (Fp p)}
    (h : view.get progress wire = .ok read)
    (h' : view'.get progress' wire = .ok read') :
    read'.isSome ↔ read.isSome := by
  rw [hTurn.isSome_get_iff hSettled h, hTurn'.isSome_get_iff hSettled' h',
    hSame.written]

/-! ## Hints -/

/-- Seeing to a term keeps two runs together when running a hint that the
constraint resolves does. -/
private theorem settleTerm_samePlan {term : Term}
    {run run' : Nat → Hint p → Progress p → Outcome SolveError (Progress p)}
    (hSettled : SettledFor system.toValidSystem resolution.resolver
      cost.dependencies node term.wire)
    (hSettled' : SettledFor system.toValidSystem resolution.resolver
      cost'.dependencies node term.wire)
    (hRun : ∀ (source : Nat) (sourceHint : Hint p) (current current'
      next next' : Progress p), system.hints[source]? = some sourceHint →
      (∀ wire ∈ sourceHint.wires, resolution.resolver[wire]? = some node) →
      current.SamePlan current' → run source sourceHint current = .ok next →
      run' source sourceHint current' = .ok next' → next.SamePlan next')
    {progress progress' next next' : Progress p}
    (hSame : progress.SamePlan progress')
    (h : Solver.settleTerm ⟨system, functions⟩ view run progress term =
      .ok next)
    (h' : Solver.settleTerm ⟨system, functions'⟩ view' run' progress' term =
      .ok next') :
    next.SamePlan next' := by
  rcases settleTerm_eq_ok h
    with ⟨rfl, hDone⟩ | ⟨source, sourceHint, hProducer, hUnseen, hNext⟩
  · rcases settleTerm_eq_ok h'
      with ⟨rfl, -⟩ | ⟨source, sourceHint, hProducer, hUnseen, -⟩
    · exact hSame
    · -- The second run has something to do, so the wire is unknown in the first
      -- one as well.
      rcases hDone with ⟨value, hSeen⟩ | hPlain
      · have hAgree :=
          hTurn.isSome_get_congr hTurn' hSettled hSettled' hSame hSeen hUnseen
        simp at hAgree
      · rw [hProducer] at hPlain
        cases hPlain
  · rcases settleTerm_eq_ok h'
      with ⟨rfl, hDone⟩ | ⟨source', sourceHint', hProducer', -, hNext'⟩
    · rcases hDone with ⟨value, hSeen⟩ | hPlain
      · have hAgree :=
          hTurn.isSome_get_congr hTurn' hSettled hSettled' hSame hUnseen hSeen
        simp at hAgree
      · rw [hProducer] at hPlain
        cases hPlain
    · rw [hProducer] at hProducer'
      cases hProducer'
      obtain ⟨hSource, hWire⟩ :=
        hTurn.wellFormed.hintFor?_eq_some_iff.mp hProducer
      obtain ⟨hOwner, -⟩ := hTurn.get_eq_none hSettled hUnseen
      have hOwn : ∀ wire ∈ sourceHint.wires,
          resolution.resolver[wire]? = some node := by
        intro wire hMem
        rw [hTurn.resolved.whole source sourceHint hSource wire hMem
          term.wire hWire]
        exact hOwner
      exact hRun source sourceHint progress progress' next next' hSource hOwn
        hSame hNext hNext'

variable [Modulus p]

/-- Running a hint that the constraint resolves keeps two runs together. -/
private theorem runHint_samePlan {levels number : Nat} {hint : Hint p}
    (hGet : system.hints[number]? = some hint)
    (hOwn : ∀ wire ∈ hint.wires, resolution.resolver[wire]? = some node)
    {progress progress' next next' : Progress p}
    (hSame : progress.SamePlan progress')
    (h : Solver.runHint ⟨system, functions⟩ view levels number hint progress =
      .ok next)
    (h' : Solver.runHint ⟨system,
      functions'⟩ view' levels number hint progress' = .ok next') :
    next.SamePlan next' := by
  induction levels generalizing number hint progress progress' next next' with
  | zero =>
      unfold runHint at h
      exact absurd h Outcome.abandon_ne_ok
  | succ levels ih =>
      have hFirst := hTurn.wellFormed.firstWire_mem hGet
      have hFirstOwn := hOwn hint.firstWire hFirst
      have hSettled :=
        hTurn.nodeResolved.hintSettled number hint hGet hint.firstWire
          hFirst hFirstOwn
      have hSettled' :=
        hTurn'.nodeResolved.hintSettled number hint hGet hint.firstWire
          hFirst hFirstOwn
      have hOwnSettled : ∀ dependencies,
          SettledFor system.toValidSystem resolution.resolver
          dependencies node hint.firstWire :=
            fun _ => Or.inr ⟨node, hFirstOwn, Or.inl rfl⟩
      rcases runHint_eq_ok h with
        ⟨⟨value, hSeen⟩, rfl⟩ | ⟨hUnseen, settled, inputs, outputs, hFold, -,
          hOutputs, rfl⟩
      · rcases runHint_eq_ok h' with ⟨-, rfl⟩ | ⟨hUnseen', -⟩
        · exact hSame
        · have hAgree := hTurn.isSome_get_congr hTurn' (hOwnSettled _)
            (hOwnSettled _) hSame hSeen hUnseen'
          simp at hAgree
      · rcases runHint_eq_ok h' with
          ⟨⟨value, hSeen'⟩, rfl⟩ | ⟨-, settled', inputs', outputs', hFold', -,
            hOutputs', rfl⟩
        · have hAgree := hTurn.isSome_get_congr hTurn' (hOwnSettled _)
            (hOwnSettled _) hSame hUnseen hSeen'
          simp at hAgree
        · have hTogether : settled.SamePlan settled' := by
            refine foldlM_ok_related Progress.SamePlan hFold hFold' hSame ?_
            intro term hTerm current next current' next' hCurrent hNext hNext'
            refine hTurn.settleTerm_samePlan hTurn' (hSettled term hTerm)
              (hSettled' term hTerm) ?_ hCurrent hNext hNext'
            intro source sourceHint current current' next next' hSource
              hSourceOwn hCurrent hNext hNext'
            exact ih hSource hSourceOwn hCurrent hNext hNext'
          exact hTogether.record (length_applyHint hOutputs)
            (length_applyHint hOutputs')

private theorem runHintOf_samePlan {term : Term} (hTerm : term ∈ c.terms)
    {progress progress' next next' : Progress p}
    (hSame : progress.SamePlan progress')
    (h : Solver.runHintOf ⟨system, functions⟩ view progress term = .ok next)
    (h' : Solver.runHintOf ⟨system, functions'⟩ view' progress' term =
      .ok next') :
    next.SamePlan next' := by
  have hSettled := hTurn.nodeResolved.settled term hTerm
  have hSettled' := hTurn'.nodeResolved.settled term hTerm
  unfold runHintOf at h h'
  cases hProducer : system.hintFor? term.wire with
  | none =>
      rw [hProducer] at h h'
      cases h
      cases h'
      exact hSame
  | some producer =>
      obtain ⟨number, hint⟩ := producer
      rw [hProducer] at h h'
      obtain ⟨hGet, hWire⟩ := hTurn.wellFormed.hintFor?_eq_some_iff.mp hProducer
      by_cases hOwner : resolution.resolver[term.wire]? = some node
      · refine hTurn.runHint_samePlan hTurn' hGet (fun wire hMem =>
          ?_) hSame h h'
        rw [hTurn.resolved.whole number hint hGet wire hMem term.wire hWire]
        exact hOwner
      · -- Another constraint has run the hint, as both runs see.
        obtain ⟨value, hSeen⟩ :=
          hTurn.get_firstWire progress hProducer hSettled hOwner
        obtain ⟨value', hSeen'⟩ :=
          hTurn'.get_firstWire progress' hProducer hSettled' hOwner
        rcases runHint_eq_ok h with ⟨-, rfl⟩ | ⟨hUnseen, -⟩
        · rcases runHint_eq_ok h' with ⟨-, rfl⟩ | ⟨hUnseen', -⟩
          · exact hSame
          · rw [hSeen'] at hUnseen'
            cases hUnseen'
        · rw [hSeen] at hUnseen
          cases hUnseen

/-! ## Constraints -/

/-- Two runs that have come equally far leave the same wire of an expression
open. -/
private theorem unknown_samePlan {terms : Expression}
    (hTerms : ∀ term ∈ terms, term ∈ c.terms) {progress progress' : Progress p}
    (hSame : progress.SamePlan progress')
    {partialSum partialSum' : PartialSum p}
    (h : partialSum.Sums ⟨system, functions⟩ view progress terms)
    (h' : partialSum'.Sums ⟨system, functions'⟩ view' progress' terms)
    (wire : Nat) :
    (∃ coefficient, partialSum.unknown = some (wire, coefficient)) →
      ∃ coefficient, partialSum'.unknown = some (wire, coefficient) := by
  rintro ⟨coefficient, hOpen⟩
  obtain ⟨⟨term, hTerm, rfl⟩, hUnseen⟩ := h.origin wire coefficient hOpen
  have hSettled := hTurn.nodeResolved.settled term (hTerms term hTerm)
  have hSettled' := hTurn'.nodeResolved.settled term (hTerms term hTerm)
  rcases h'.covers term hTerm with ⟨value, hSeen⟩ | hOpen'
  · have hAgree :=
      hTurn.isSome_get_congr hTurn' hSettled hSettled' hSame hUnseen hSeen
    simp at hAgree
  · exact hOpen'

omit hTurn hTurn' in
/-- Solving an equation writes the wire that one of its sums leaves open. -/
private theorem written_iff {constraint : Nat}
    {left right output : PartialSum p} {write : Option (Nat × Fp p)}
    {row : Row p}
    (h : PartialSum.solve constraint left right output = .ok (write, row))
    (wire : Nat) :
    write.map Prod.fst = some wire ↔
      (∃ coefficient, left.unknown = some (wire, coefficient)) ∨
      (∃ coefficient, right.unknown = some (wire, coefficient)) ∨
        ∃ coefficient, output.unknown = some (wire, coefficient) := by
  obtain ⟨value, -, hCloses, hOpens⟩ :=
    PartialSum.isolate_sound (PartialSum.solve_holds h).1
  constructor
  · intro hWrite
    obtain ⟨⟨written, value'⟩, hWritten, rfl⟩ :=
      Option.map_eq_some_iff.mp hWrite
    obtain ⟨partialSum, hMem, hOpen⟩ := hOpens written value' hWritten
    simp only [List.mem_cons, List.not_mem_nil, or_false] at hMem
    rcases hMem with rfl | rfl | rfl
    · exact Or.inl hOpen
    · exact Or.inr (Or.inl hOpen)
    · exact Or.inr (Or.inr hOpen)
  · rintro (⟨coefficient, hOpen⟩ | ⟨coefficient, hOpen⟩ | ⟨coefficient, hOpen⟩)
    · simp [hCloses left (by simp) wire coefficient hOpen]
    · simp [hCloses right (by simp) wire coefficient hOpen]
    · simp [hCloses output (by simp) wire coefficient hOpen]

/-- In two runs a constraint writes the same wires and runs the same hints, in
the same order. -/
theorem runConstraint_samePlan (hGet : system.constraints[node]? = some c)
    {step step' : Step p}
    (h : Solver.runConstraint ⟨system, functions⟩ view node = .ok step)
    (h' : Solver.runConstraint ⟨system, functions'⟩ view' node = .ok step') :
    step.SamePlan step'.toProgress := by
  obtain ⟨-, progress, left, right, output, write, hWrites, hRun, hHints, hLeft,
    hRight, hOutput, hSolve⟩ := runConstraint_eq_ok hGet h
  obtain ⟨-, progress', left', right', output', write', hWrites', hRun',
    hHints', hLeft', hRight', hOutput', hSolve'⟩ := runConstraint_eq_ok hGet h'
  have hSame : progress.SamePlan progress' :=
    foldlM_ok_related Progress.SamePlan hHints hHints' .start
      fun term hTerm _ _ _ _ hCurrent hNext
      hNext' => hTurn.runHintOf_samePlan hTurn' hTerm hCurrent hNext hNext'
  have hOpen : ∀ {terms : Expression}, (∀ term ∈ terms, term ∈ c.terms) →
      ∀ {partialSum partialSum' : PartialSum p},
        partialSum.Sums ⟨system, functions⟩ view progress terms →
        partialSum'.Sums ⟨system, functions'⟩ view' progress' terms → ∀ wire,
          (∃ coefficient, partialSum'.unknown = some (wire, coefficient)) ↔
            ∃ coefficient, partialSum.unknown = some (wire, coefficient) :=
    fun hTerms _ _ hSums hSums' wire =>
      ⟨hTurn'.unknown_samePlan hTurn hTerms hSame.symm hSums' hSums wire,
        hTurn.unknown_samePlan hTurn' hTerms hSame hSums hSums' wire⟩
  have hWritten : write'.map Prod.fst = write.map Prod.fst := by
    refine Option.ext fun wire => ?_
    rw [written_iff hSolve, written_iff hSolve',
      hOpen (c.mem_terms (by simp)) (sumKnown_sound hLeft)
        (sumKnown_sound hLeft'),
      hOpen (c.mem_terms (by simp)) (sumKnown_sound hRight)
        (sumKnown_sound hRight'),
      hOpen (c.mem_terms (by simp)) (sumKnown_sound hOutput)
        (sumKnown_sound hOutput')]
  constructor
  · rw [hWrites, hWrites', List.map_append, List.map_append, hSame.written,
      ← Option.toList_map, ← Option.toList_map, hWritten]
  · rw [hRun, hRun', hSame.hints]

end Solver.Turn

/-! ## Whole runs -/

namespace Solver

variable [Modulus p]

/-- A run on some inputs of the right numbers has come past a constraint and
left a record. -/
structure Processed (solver : Solver p)
    (publicInputs secretInputs : List (Fp p)) (step : Step p) : Prop where
  inputs : solver.checkInputs publicInputs secretInputs = .ok ()
  counts : solver.system.countsFit = true
  recorded : step ∈ (solver.trace publicInputs secretInputs).steps

/-- Also in a run that fails later, constraints are run in their turn. -/
theorem Processed.taken {solver : Solver p} {resolution : Resolution}
    {publicInputs secretInputs : List (Fp p)} {step : Step p}
    (h : solver.Processed publicInputs secretInputs step)
    (hPlan : solver.system.Planned resolution) :
    ∃ c known, step.Taken solver resolution known c := by
  have hFit := ValidSystem.countsFit_spec h.counts
  have hKnows := knows_initialValues hPlan hFit h.inputs
  exact runLevels_taken hPlan hFit.inputs_le
    (List.nil_append solver.system.schedule.levels).symm hKnows step h.recorded

/-- What a run does is settled by the system alone. In two runs, on any inputs
of the right numbers and with any functions of the custom hints, a constraint
that both come past writes the same wires and runs the same hints, in the same
order. And once some inputs have led to a constraint with more than one unknown
wire, or to an unresolved wire, or may have led there with tasks run side by
side, no inputs and no functions lead to a solution. -/
theorem plan_independent [Fact p.Prime] {settings : SchedulerSettings}
    {flat : FlatSystem p} {system : CompiledSystem p}
    (hCompile : CompiledSystem.compile settings flat = .ok system)
    (functions functions' : Std.TreeMap Nat (HintFunction p))
    (publicInputs secretInputs publicInputs' secretInputs' : List (Fp p)) :
    (∀ step step',
      Processed ⟨system, functions⟩ publicInputs secretInputs step →
      Processed ⟨system, functions'⟩ publicInputs' secretInputs' step' →
        step'.constraint = step.constraint →
          step'.writes.map Prod.fst = step.writes.map Prod.fst ∧
            step'.hints = step.hints) ∧
      (∀ e, solve ⟨system, functions⟩ publicInputs secretInputs =
        .error (.reported e) →
        ((∃ constraint, e = .multipleUnknowns constraint) ∨
          ∃ wire, e = .unresolvedWire wire) →
          ∀ solution, solve ⟨system, functions'⟩ publicInputs' secretInputs' ≠
            .ok solution) ∧
      ∀ e, MayReport ⟨system, functions⟩ publicInputs secretInputs e →
        ((∃ constraint, e = .multipleUnknowns constraint) ∨
          ∃ wire, e = .unresolvedWire wire) →
          ∀ solution, solve ⟨system, functions'⟩ publicInputs' secretInputs' ≠
            .ok solution := by
  obtain ⟨resolution, -, hPlan⟩ := CompiledSystem.compile_resolution hCompile
  have hNever : ∀ e, MayReport ⟨system, functions⟩ publicInputs secretInputs e →
      ((∃ constraint, e = .multipleUnknowns constraint) ∨
        ∃ wire, e = .unresolvedWire wire) →
        ∀ solution, solve ⟨system, functions'⟩ publicInputs' secretInputs' ≠
          .ok solution := by
    intro e hReport hShape solution hSolve'
    rcases hReport.explained hPlan with hCheck | ⟨-, node, c, hGet, hExplained⟩
    · obtain ⟨kind, expected, actual, rfl⟩ := checkInputs_eq_error hCheck
      simp at hShape
    · have hSolvable := solve_solvable hPlan hSolve' hGet
      rcases hShape with ⟨constraint, rfl⟩ | ⟨wire, rfl⟩
      · exact hSolvable.uncrowded hExplained
      · exact hSolvable.fed wire hExplained
  refine ⟨?_, fun e hSolve => hNever e (mayReport_of_solve hSolve), hNever⟩
  intro step step' hStep hStep' hSame
  obtain ⟨c, known, hGet, cost, recent, hTurn, hRun⟩ := hStep.taken hPlan
  obtain ⟨c', known', hGet', cost', recent', hTurn', hRun'⟩ :=
    hStep'.taken hPlan
  rw [hSame] at hGet' hTurn' hRun'
  rw [hGet] at hGet'
  cases hGet'
  have hPlanned := hTurn.runConstraint_samePlan hTurn' hGet hRun hRun'
  exact ⟨hPlanned.written, hPlanned.hints⟩

/-- For five and for six as the root of eight, the third constraint writes the
same wires and runs the same hints. The run for six fails later. -/
theorem plan_independent_square :
    ∃ (system : CompiledSystem 17) (step step' : Step 17),
    CompiledSystem.compile {} squareSystem = .ok system ∧
      Processed ⟨system, ∅⟩ [Fp.ofNat 17 8] [Fp.ofNat 17 5] step ∧
      Processed ⟨system, ∅⟩ [Fp.ofNat 17 8] [Fp.ofNat 17 6] step' ∧
      solve ⟨system, ∅⟩ [Fp.ofNat 17 8] [Fp.ofNat 17 6] =
        .error (.reported (.unsatisfied 4)) ∧
      step.constraint = 2 ∧ step.hints = [1, 0] ∧
      step'.writes.map Prod.fst = step.writes.map Prod.fst ∧
        step'.hints = step.hints := by
  have hRun :
      ((CompiledSystem.compile {} squareSystem).toOption.any fun system =>
      let solver : Solver 17 := ⟨system, ∅⟩
      let first := solver.trace [Fp.ofNat 17 8] [Fp.ofNat 17 5]
      let second := solver.trace [Fp.ofNat 17 8] [Fp.ofNat 17 6]
      (first.steps.find? fun step => step.constraint = 2).any fun step =>
        (second.steps.find? fun step' => step'.constraint = 2).any fun _ =>
          decide (solver.checkInputs [Fp.ofNat 17 8] [Fp.ofNat 17 5] = .ok () ∧
            solver.checkInputs [Fp.ofNat 17 8] [Fp.ofNat 17 6] = .ok () ∧
            system.countsFit = true ∧ step.hints = [1, 0] ∧
            solver.solve [Fp.ofNat 17 8] [Fp.ofNat 17 6] =
              .error (.reported (.unsatisfied 4)))) = true := by
    decide +kernel
  simp only [Option.any_eq_true, toOption_eq_some, decide_eq_true_eq] at hRun
  obtain ⟨system, hCompile, step, hFound, step', hFound', hInputs, hInputs',
    hCounts, hHints, hFails⟩ := hRun
  have hStep : Processed ⟨system, ∅⟩ [Fp.ofNat 17 8] [Fp.ofNat 17 5] step :=
    ⟨hInputs, hCounts, List.mem_of_find?_eq_some hFound⟩
  have hStep' : Processed ⟨system, ∅⟩ [Fp.ofNat 17 8] [Fp.ofNat 17 6] step' :=
    ⟨hInputs', hCounts, List.mem_of_find?_eq_some hFound'⟩
  have hNumber : step.constraint = 2 := by simpa using List.find?_some hFound
  have hNumber' : step'.constraint = 2 := by simpa using List.find?_some hFound'
  have hSame :=
    (plan_independent hCompile ∅ ∅ _ _ _ _).1 step step' hStep hStep'
      (by rw [hNumber, hNumber'])
  exact ⟨system, step, step', hCompile, hStep, hStep', hFails, hNumber,
    hHints, hSame⟩

end Solver

end RankOne
