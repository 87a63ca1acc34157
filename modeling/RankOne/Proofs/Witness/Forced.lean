import RankOne.Proofs.Witness.Run

/-!
# What the solver finds out is forced

Take any full assignment that satisfies all constraints and all hints, and a run
that has started from values of this assignment. Then everything the run writes
is a value of the assignment: the outputs of a hint are what its function makes
of its inputs, and the wire that a constraint is solved for is the only root of
the equation, since the solver divides by nothing that is zero.
-/

namespace RankOne

variable {p : Nat}

/-! ## Assigned values -/

namespace Assigns

variable {wires : Array (Fp p)} {known : Array (Option (Fp p))}
  {writes : List (Nat × Fp p)}

/-- Further writes of assigned values. -/
private theorem append {added : List (Nat × Fp p)}
    (h : Assigns wires known writes)
    (hAdded : ∀ wire value, added.lookup wire = some value →
      wires[wire]? = some value) : Assigns wires known (added ++ writes) where
  known := h.known
  writes := by
    intro wire value hWritten
    rw [List.lookup_append, Option.or_eq_some_iff] at hWritten
    rcases hWritten with hNew | ⟨-, hOld⟩
    · exact hAdded wire value hNew
    · exact h.writes wire value hOld

/-- Known and written values are the values that a constraint sees. -/
theorem reads [Modulus p] {view : View p} {progress : Progress p}
    (h : Assigns wires view.known (progress.writes ++ view.recent))
    (wire : Nat) :
    view.Reads progress wires wire := by
  intro value hGet
  unfold View.get at hGet
  split at hGet
  · cases hGet
  · next seen hKnown =>
      injection hGet with hGet
      injection hGet with hGet
      exact h.known wire value (hGet ▸ hKnown)
  · apply h.writes wire value
    rw [List.lookup_append]
    split at hGet
    · next seen hWritten =>
        injection hGet with hGet
        rw [hWritten, Option.some_or]
        exact hGet
    · next hUnwritten =>
        injection hGet with hGet
        rw [hUnwritten, Option.none_or]
        exact hGet

/-- Committing assigned values leaves the known values assigned. -/
private theorem commitStep {step : Step p} (h : Assigns wires known [])
    (hStep : ∀ wire value, step.writes.lookup wire = some value →
      wires[wire]? = some value) :
    Assigns wires (Solver.commitStep known step) [] where
  known := by
    intro wire value hKnown
    rw [Solver.getElem?_commitStep, Option.map_eq_some_iff] at hKnown
    obtain ⟨old, hOld, hValue⟩ := hKnown
    rw [Option.or_eq_some_iff] at hValue
    rcases hValue with hWritten | ⟨-, hSame⟩
    · exact hStep wire value hWritten
    · exact h.known wire value (hSame ▸ hOld)
  writes := by simp

private theorem commitSteps {steps : List (Step p)} (h : Assigns wires known [])
    (hSteps : ∀ step ∈ steps, ∀ wire value,
      step.writes.lookup wire = some value → wires[wire]? = some value) :
    Assigns wires (steps.foldl Solver.commitStep known) [] := by
  induction steps generalizing known with
  | nil => exact h
  | cons step rest ih =>
      rw [List.foldl_cons]
      exact ih (h.commitStep (hSteps step List.mem_cons_self))
        (fun other hOther => hSteps other (List.mem_cons_of_mem _ hOther))

end Assigns

variable [Modulus p]

/-! ## Satisfying assignments -/

/-- A full assignment satisfies all constraints and all hints of a system. -/
structure Solver.Satisfies (solver : Solver p) (wires : Array (Fp p)) :
    Prop where
  constraints : ∀ (number : Nat) (c : Constraint),
    solver.system.constraints[number]? = some c → ∃ left right output,
      solver.system.evaluate wires c.left = .ok left ∧
      solver.system.evaluate wires c.right = .ok right ∧
      solver.system.evaluate wires c.output = .ok output ∧ left * right = output
  hints : ∀ (number : Nat) (hint : Hint p),
    solver.system.hints[number]? = some hint →
    solver.HintHolds wires hint

/-- An expression is evaluated only when all its wires have values. -/
private theorem CompiledSystem.exists_value_of_evaluate
    {system : CompiledSystem p} {wires : Array (Fp p)} {terms : Expression}
    {sum : Fp p} (h : system.evaluate wires terms = .ok sum) :
    ∀ term ∈ terms, ∃ value, wires[term.wire]? = some value := by
  induction terms generalizing sum with
  | nil => simp
  | cons first rest ih =>
      unfold evaluate at h
      split at h
      · next coefficient value _ hValue =>
          split at h
          · next later hLater =>
              intro term hTerm
              rcases List.mem_cons.mp hTerm with rfl | hTerm
              · exact ⟨value, hValue⟩
              · exact ih hLater term hTerm
          · cases h
      · cases h

/-! ## Hints -/

/-- What is read back of a hint's outputs are the values that an assignment
gives them. -/
private theorem lookup_reverse_zip {α : Type} {wires : List Nat}
    {outputs : List α} {f : Nat → Option α} (h : wires.map f = outputs.map some)
    {wire : Nat} {value : α}
    (hLookup : (wires.zip outputs).reverse.lookup wire = some value) :
    f wire = some value := by
  induction wires generalizing outputs with
  | nil => simp at hLookup
  | cons first rest ih =>
      cases outputs with
      | nil => simp at hLookup
      | cons output outputs =>
          rw [List.map_cons, List.map_cons] at h
          injection h with hFirst hRest
          rw [List.zip_cons_cons, List.reverse_cons, List.lookup_append,
            Option.or_eq_some_iff] at hLookup
          rcases hLookup with hLater | ⟨-, hHere⟩
          · exact ih hRest hLater
          · rw [List.lookup_cons] at hHere
            split at hHere
            · next hSame =>
                rw [eq_of_beq hSame, hFirst]
                exact hHere
            · simp at hHere

namespace ValidSystem

omit [Modulus p] in
private theorem getElem?_of_hintFor? {system : ValidSystem p}
    {wire number : Nat} {hint : Hint p}
    (h : system.hintFor? wire = some (number, hint)) :
    system.hints[number]? = some hint := by
  unfold hintFor? at h
  simp only [Option.bind_eq_bind, Option.bind_eq_some_iff, Option.pure_def,
    Option.some.injEq, Prod.mk.injEq] at h
  obtain ⟨_, _, _, hGet, rfl, rfl⟩ := h
  exact hGet

end ValidSystem

namespace Solver

variable {solver : Solver p} {view : View p} {wires : Array (Fp p)}

/-- The outputs that a hint's function yields are those of every assignment that
satisfies the hint and agrees with what is seen. -/
private theorem outputs_forced {hint : Hint p} {progress : Progress p}
    {inputs outputs : List (Fp p)}
    (hAssigns : Assigns wires view.known (progress.writes ++ view.recent))
    (hHolds : solver.HintHolds wires hint)
    (hInputs : hint.inputs.mapM (solver.evaluateInput view progress) =
      .ok inputs) (hOutputs : solver.applyHint hint inputs = .ok outputs) :
    hint.wires.map (fun wire => wires[wire]?) = outputs.map some := by
  obtain ⟨inputs', outputs', hInputs', hOutputs', hWires⟩ := hHolds
  rw [(mapM_evaluateInput_sound hInputs).2 wires fun term _ =>
    hAssigns.reads term.wire] at hInputs'
  injection hInputs' with hSame
  rw [← hSame, hOutputs] at hOutputs'
  injection hOutputs' with hSame'
  rw [hWires, hSame']

/-- Seeing to the terms of a hint writes values of every satisfying assignment
that agrees with what is seen, when running a hint does. -/
theorem settle_forced {levels : Nat} {terms : List Term}
    {progress settled : Progress p}
    (hRun : ∀ (source : Nat) (sourceHint : Hint p) (current next : Progress p),
      solver.system.hints[source]? = some sourceHint →
      Assigns wires view.known (current.writes ++ view.recent) →
      solver.runHint view levels source sourceHint current = .ok next →
      Assigns wires view.known (next.writes ++ view.recent))
    (hAssigns : Assigns wires view.known (progress.writes ++ view.recent))
    (h : terms.foldlM (solver.settleTerm view (solver.runHint view levels))
      progress = .ok settled) :
    Assigns wires view.known (settled.writes ++ view.recent) := by
  refine foldlM_ok_invariant
    (fun current =>
      Assigns wires view.known (current.writes ++ view.recent)) h hAssigns ?_
  intro term _ current next hCurrent hNext
  rcases settleTerm_eq_ok hNext
    with ⟨rfl, -⟩ | ⟨source, sourceHint, hProducer, -, hNext⟩
  · exact hCurrent
  · exact hRun source sourceHint current next
      (ValidSystem.getElem?_of_hintFor? hProducer) hCurrent hNext

variable (hWires : solver.Satisfies wires)
include hWires

/-- Running a hint writes values of every satisfying assignment that agrees with
what is seen. -/
theorem runHint_forced {levels number : Nat} {hint : Hint p}
    {progress progress' : Progress p}
    (hGet : solver.system.hints[number]? = some hint)
    (hAssigns : Assigns wires view.known (progress.writes ++ view.recent))
    (h : solver.runHint view levels number hint progress = .ok progress') :
    Assigns wires view.known (progress'.writes ++ view.recent) := by
  induction levels generalizing number hint progress progress' with
  | zero =>
      unfold runHint at h
      exact absurd h Outcome.abandon_ne_ok
  | succ levels ih =>
      rcases runHint_eq_ok h with
        ⟨-, rfl⟩ | ⟨-, settled, inputs, outputs, hFold, hInputs, hOutputs, rfl⟩
      · exact hAssigns
      · have hSettled := settle_forced
          (fun _ _ _ _ hSource hCurrent hNext =>
            ih hSource hCurrent hNext) hAssigns hFold
        have hForced := outputs_forced hSettled
          (hWires.hints number hint hGet) hInputs hOutputs
        show Assigns wires view.known
          (((hint.wires.zip outputs).reverse ++ settled.writes) ++ _)
        rw [List.append_assoc]
        exact hSettled.append fun wire value hWritten =>
          lookup_reverse_zip hForced hWritten

theorem runHintOf_forced {term : Term} {progress progress' : Progress p}
    (hAssigns : Assigns wires view.known (progress.writes ++ view.recent))
    (h : solver.runHintOf view progress term = .ok progress') :
    Assigns wires view.known (progress'.writes ++ view.recent) := by
  unfold runHintOf at h
  split at h
  · next number hint hProducer =>
      exact runHint_forced hWires
        (ValidSystem.getElem?_of_hintFor? hProducer) hAssigns h
  · injection h with h
    exact h ▸ hAssigns

/-- After the hints of a constraint all its writes are assigned values. -/
theorem runHints_forced {terms : List Term} {progress progress' : Progress p}
    (hAssigns : Assigns wires view.known (progress.writes ++ view.recent))
    (h : terms.foldlM (solver.runHintOf view) progress = .ok progress') :
    Assigns wires view.known (progress'.writes ++ view.recent) :=
  foldlM_ok_invariant (fun current =>
    Assigns wires view.known (current.writes ++ view.recent))
    h hAssigns fun _ _ _ _ hCurrent hNext =>
      runHintOf_forced hWires hCurrent hNext

end Solver

/-! ## Equations -/

namespace PartialSum

omit [Modulus p] in
/-- What is written is the value that has been found. -/
private theorem eq_of_written {wire : Nat} {found value : Fp p}
    (h : found = value) (wire' : Nat) (written : Fp p)
    (hWritten : some (wire, found) = some (wire', written)) :
    written = value := by
  injection hWritten with hSame
  exact (Prod.mk.inj hSame).2.symm.trans h

/-- When the values of an assignment satisfy the equation, they are what it is
solved for. -/
theorem isolate_forced [Fact p.Prime] {constraint : Nat}
    {left right output : PartialSum p} {write : Option (Nat × Fp p)}
    {row : Row p} {value : Fp p}
    (h : isolate constraint left right output = .ok (write, row))
    (hHolds : left.total value * right.total value = output.total value) :
    row = ⟨left.total value, right.total value, output.total value⟩ ∧
      ∀ wire written, write = some (wire, written) → written = value := by
  unfold isolate at h
  unfold total at hHolds ⊢
  dsimp only at h
  split at h
  · next hLeft hRight hOutput =>
      injection h with h
      injection h with hWrite hRow
      simp only [hLeft, hRight, hOutput, ← hRow, ← hWrite, true_and]
      simp
  · next wire k hLeft hRight hOutput =>
      split at h
      · cases h
      next hNonzero =>
      injection h with h
      injection h with hWrite hRow
      simp only [hLeft, hRight, hOutput] at hHolds ⊢
      rw [not_or] at hNonzero
      have hValue : (output.sum * right.sum⁻¹ - left.sum) * k⁻¹ = value := by
        rw [← hHolds, mul_assoc, Fp.mul_inv_of_ne_zero hNonzero.1,
          mul_one, add_sub_cancel_left, mul_comm k, mul_assoc,
          Fp.mul_inv_of_ne_zero hNonzero.2, mul_one]
      rw [← hRow, ← hWrite, hValue]
      exact ⟨rfl, eq_of_written rfl⟩
  · next wire k hLeft hRight hOutput =>
      split at h
      · cases h
      next hNonzero =>
      injection h with h
      injection h with hWrite hRow
      simp only [hLeft, hRight, hOutput] at hHolds ⊢
      rw [not_or] at hNonzero
      have hValue : (output.sum * left.sum⁻¹ - right.sum) * k⁻¹ = value := by
        rw [← hHolds, mul_comm left.sum, mul_assoc,
          Fp.mul_inv_of_ne_zero hNonzero.1, mul_one, add_sub_cancel_left,
          mul_comm k, mul_assoc, Fp.mul_inv_of_ne_zero hNonzero.2, mul_one]
      rw [← hRow, ← hWrite, hValue]
      exact ⟨rfl, eq_of_written rfl⟩
  · next wire k hLeft hRight hOutput =>
      split at h
      · cases h
      next hNonzero =>
      injection h with h
      injection h with hWrite hRow
      simp only [hLeft, hRight, hOutput] at hHolds ⊢
      have hValue : (left.sum * right.sum - output.sum) * k⁻¹ = value := by
        rw [hHolds, add_sub_cancel_left, mul_comm k, mul_assoc,
          Fp.mul_inv_of_ne_zero hNonzero, mul_one]
      rw [← hRow, ← hWrite, hValue]
      exact ⟨rfl, eq_of_written rfl⟩
  · cases h

/-- An assignment over which an expression has a value gives one to the wire
that its sum leaves open. -/
private theorem Sums.exists_value {solver : Solver p} {view : View p}
    {progress : Progress p} {wires : Array (Fp p)} {terms : Expression}
    {partialSum : PartialSum p} {sum coefficient : Fp p} {wire : Nat}
    (hSums : partialSum.Sums solver view progress terms)
    (hEvaluate : solver.system.evaluate wires terms = .ok sum)
    (hOpen : partialSum.unknown = some (wire, coefficient)) :
    ∃ value, wires[wire]? = some value := by
  obtain ⟨⟨term, hTerm, rfl⟩, -⟩ := hSums.origin wire coefficient hOpen
  exact CompiledSystem.exists_value_of_evaluate hEvaluate term hTerm

end PartialSum

namespace Solver

variable {solver : Solver p} {view : View p} {wires : Array (Fp p)}

open PartialSum

/-- A satisfying assignment that agrees with what is seen solves the equation of
a constraint, and gives a value to the wire that is left open. -/
theorem totals_of_satisfies {node : Nat} {c : Constraint}
    {progress : Progress p} {left right output : PartialSum p}
    {write : Option (Nat × Fp p)} {row : Row p}
    (hWires : solver.Satisfies wires)
    (hAssigns : Assigns wires view.known (progress.writes ++ view.recent))
    (hGet : solver.system.constraints[node]? = some c)
    (hLeft : left.Sums solver view progress c.left)
    (hRight : right.Sums solver view progress c.right)
    (hOutput : output.Sums solver view progress c.output)
    (hIsolate : isolate node left right output = .ok (write, row)) :
    ∃ value, left.total value * right.total value = output.total value ∧
      ∀ wire written, write = some (wire, written) →
        wires[wire]? = some value := by
  obtain ⟨l, r, o, hEvaluateLeft, hEvaluateRight, hEvaluateOutput, hHolds⟩ :=
    hWires.constraints node c hGet
  obtain ⟨solved, -, hCloses, hOpens⟩ := isolate_sound hIsolate
  -- Every sum that leaves a wire open leaves the written one open, and it has a
  -- value.
  obtain ⟨value, hValue⟩ : ∃ value, ∀ partialSum ∈ [left, right, output],
      ∀ wire coefficient, partialSum.unknown = some (wire, coefficient) →
        wires[wire]? = some value := by
    cases hWrite : write with
    | none =>
        refine ⟨0, fun partialSum hMem wire coefficient hOpen => ?_⟩
        have hClosed := hCloses partialSum hMem wire coefficient hOpen
        rw [hWrite] at hClosed
        cases hClosed
    | some written =>
        obtain ⟨opened, hMem, coefficient, hOpen⟩ :=
          hOpens written.1 written.2 hWrite
        have hExists : ∃ value, wires[written.1]? = some value := by
          simp only [List.mem_cons, List.not_mem_nil, or_false] at hMem
          rcases hMem with rfl | rfl | rfl
          · exact hLeft.exists_value hEvaluateLeft hOpen
          · exact hRight.exists_value hEvaluateRight hOpen
          · exact hOutput.exists_value hEvaluateOutput hOpen
        obtain ⟨value, hValue⟩ := hExists
        refine ⟨value, fun partialSum hMem' wire coefficient' hOpen' => ?_⟩
        have hClosed := hCloses partialSum hMem' wire coefficient' hOpen'
        rw [hWrite] at hClosed
        injection hClosed with hClosed
        rw [hClosed] at hValue
        exact hValue
  refine ⟨value, ?_, ?_⟩
  · have hTotal :
        ∀ {terms : Expression} {partialSum : PartialSum p} {sum : Fp p},
        partialSum ∈ [left, right, output] →
          partialSum.Sums solver view progress terms →
          solver.system.evaluate wires terms = .ok sum →
            partialSum.total value = sum := by
      intro terms partialSum sum hMem hSums hEvaluate
      rw [hSums.evaluate wires value (fun term _ => hAssigns.reads term.wire)
        (hValue partialSum hMem)] at hEvaluate
      injection hEvaluate
    rw [hTotal (by simp) hLeft hEvaluateLeft,
      hTotal (by simp) hRight hEvaluateRight,
      hTotal (by simp) hOutput hEvaluateOutput]
    exact hHolds
  · intro wire written hWrite
    obtain ⟨opened, hMem, coefficient, hOpen⟩ := hOpens wire written hWrite
    exact hValue opened hMem wire coefficient hOpen

variable [Fact p.Prime] (hWires : solver.Satisfies wires)
include hWires

/-- A constraint writes values of every satisfying assignment that agrees with
what it sees. -/
theorem runConstraint_forced {node : Nat} {step : Step p}
    (hAssigns : Assigns wires view.known view.recent)
    (h : solver.runConstraint view node = .ok step) :
    Assigns wires view.known (step.writes ++ view.recent) := by
  cases hGet : solver.system.constraints[node]? with
  | none =>
      unfold runConstraint at h
      rw [hGet] at h
      exact absurd h Outcome.abandon_ne_ok
  | some c =>
  obtain ⟨-, progress, left, right, output, write, hWrites, -, hHints, hLeft,
    hRight, hOutput, hSolve⟩ :=
    runConstraint_eq_ok hGet h
  have hStart :
      Assigns wires view.known (({} : Progress p).writes ++ view.recent) :=
    hAssigns
  have hProgress := runHints_forced hWires hStart hHints
  have hIsolate := (solve_holds hSolve).1
  obtain ⟨value, hHolds, hOpen⟩ := totals_of_satisfies hWires hProgress hGet
    (sumKnown_sound hLeft) (sumKnown_sound hRight)
      (sumKnown_sound hOutput) hIsolate
  have hWritten := (isolate_forced hIsolate hHolds).2
  rw [hWrites, List.append_assoc]
  refine hProgress.append fun wire written hLookup => ?_
  cases hWrite : write with
  | none =>
      rw [hWrite] at hLookup
      simp at hLookup
  | some pair =>
      obtain ⟨opened, openedValue⟩ := pair
      rw [hWrite, Option.toList_some, List.lookup_cons] at hLookup
      split at hLookup
      · next hSame =>
          injection hLookup with hLookup
          rw [eq_of_beq hSame, ← hLookup, hWritten opened openedValue hWrite]
          exact hOpen opened openedValue hWrite
      · simp at hLookup

/-! ## Tasks and levels -/

/-- The constraints of a task write assigned values, also when the task
fails. -/
private theorem runTask_forced {nodes : List Nat}
    (hAssigns : Assigns wires view.known view.recent) :
    ∀ step ∈ (solver.runTask view nodes).steps, ∀ wire value,
      step.writes.lookup wire = some value → wires[wire]? = some value := by
  induction nodes generalizing view with
  | nil => exact fun step hStep => by simp [runTask] at hStep
  | cons node rest ih =>
      unfold runTask
      split
      · exact fun step hStep => by simp at hStep
      next first hFirst =>
      have hNext :
          Assigns wires (view.after first).known (view.after first).recent :=
        runConstraint_forced hWires hAssigns hFirst
      intro step hStep
      rcases List.mem_cons.mp hStep with rfl | hStep
      · intro wire value hWritten
        apply hNext.writes
        show (step.writes ++ view.recent).lookup wire = some value
        rw [List.lookup_append, hWritten, Option.some_or]
      · exact ih hNext step hStep

/-- What is known after a level are assigned values. -/
theorem commitLevel_forced {level : Level} {known : Array (Option (Fp p))}
    (hAssigns : Assigns wires known []) :
    Assigns wires (((level.tasks.map fun task =>
      solver.runTask { known } task.nodes).flatMap
      TaskRun.steps).foldl commitStep known) [] := by
  apply hAssigns.commitSteps
  intro step hStep
  obtain ⟨run, hRun, hStep⟩ := List.mem_flatMap.mp hStep
  obtain ⟨task, -, rfl⟩ := List.mem_map.mp hRun
  exact runTask_forced hWires hAssigns step hStep

/-- What is known in the end are assigned values, however the run ends. -/
theorem runLevels_forced {levels : List Level} {known : Array (Option (Fp p))}
    (hAssigns : Assigns wires known []) :
    Assigns wires (solver.runLevels levels known).known [] := by
  induction levels generalizing known with
  | nil => exact hAssigns
  | cons level rest ih =>
      unfold runLevels
      dsimp only
      split
      · exact hAssigns
      · exact ih (commitLevel_forced hWires hAssigns)

end Solver

end RankOne
